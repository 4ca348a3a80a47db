import Mathlib.Data.List.Induction
import NfsServer.Proofs.Rpc.Repetition

/-!
# What a call log remembers

A call log is told that calls arrive and that they have been completed, in any order and under any
keys.  Its history tells which arrivals were first ones and which repeated a call that the log
remembered.  A log forgets late and only in passing, but the history alone decides its answers: a
call is remembered as long as the latest first arrival under its key has not been completed, and for
the retention time behind its completion (`CallLog.arrive_iff_remembers`).
-/

namespace NfsServer

theorem Time.le_refl (t : Time) : t ≤ t := Int.le_refl t.nanoseconds

namespace Rpc

/-- What a log is told. -/
inductive LogCall
  /-- A call arrives. -/
  | arrive (now : Time) (key : CallKey)
  /-- A call has been completed. -/
  | complete (now : Time) (key : CallKey)
  deriving DecidableEq, Repr

namespace LogCall

/-- The reading of the clock. -/
def time : LogCall → Time
  | arrive now _ => now
  | complete now _ => now

/-- The key of the call. -/
def key : LogCall → CallKey
  | arrive _ key => key
  | complete _ key => key

/-- The clock shows only times that clocks can show and never goes back. -/
def Timely (calls : List LogCall) : Prop :=
  (Time.earliest :: calls.map time).Pairwise (· ≤ ·)

theorem Timely.left {calls calls' : List LogCall} (h : Timely (calls ++ calls')) :
    Timely calls := by
  rw [Timely, List.map_append] at h
  exact h.sublist ((List.sublist_append_left _ _).cons_cons _)

theorem Timely.earliest_le {calls : List LogCall} (h : Timely calls) {c : LogCall}
    (hc : c ∈ calls) : Time.earliest ≤ c.time :=
  List.rel_of_pairwise_cons h (List.mem_map_of_mem hc)

theorem Timely.le_of_mem_append {calls calls' : List LogCall} (h : Timely (calls ++ calls'))
    {c c' : LogCall} (hc : c ∈ calls) (hc' : c' ∈ calls') : c.time ≤ c'.time := by
  rw [Timely, List.map_append] at h
  exact (List.pairwise_append.1 h.tail).2.2 _ (List.mem_map_of_mem hc) _ (List.mem_map_of_mem hc')

end LogCall

/-- What a log has been told, and what it made of arrivals. -/
inductive LogEvent
  /-- A call arrived that was not remembered. -/
  | first (time : Time) (key : CallKey)
  /-- A call arrived that was remembered. -/
  | repeated (time : Time) (key : CallKey)
  /-- A call was completed. -/
  | completed (time : Time) (key : CallKey)
  deriving DecidableEq, Repr

namespace LogEvent

/-- Whether a call with the key was completed. -/
def completes (key : CallKey) : LogEvent → Bool
  | completed _ k => k = key
  | first _ _ => false
  | repeated _ _ => false

/-- From a first arrival under the key to the next one, at most one completion. -/
def CompletesOnce (key : CallKey) (events : List LogEvent) : Prop :=
  ∀ earlier start middle later, events = earlier ++ first start key :: middle ++ later →
    (∀ t, first t key ∉ middle) → middle.countP (completes key) ≤ 1

/-- The latest first arrival under the key has not been completed, or it has been completed no
longer before `now` than the retention time. -/
def Remembers (retention : Nat) (now : Time) (key : CallKey) (events : List LogEvent) : Prop :=
  ∃ earlier start later, events = earlier ++ first start key :: later ∧
    (∀ t, first t key ∉ later) ∧
    ((∀ t, completed t key ∉ later) ∨
      ∃ finish, completed finish key ∈ later ∧
        now.nanoseconds - retention ≤ finish.nanoseconds)

/-- How an event changes the state of a call for one who forgets nothing. -/
def update (key : CallKey) (state : Option CallState) : LogEvent → Option CallState
  | first _ k => if k = key then some .running else state
  | repeated _ _ => state
  | completed t k => if k = key then state.map fun _ => .completed t else state

@[simp]
theorem update_first (key : CallKey) (state : Option CallState) (t : Time) (k : CallKey) :
    update key state (first t k) = if k = key then some .running else state := rfl

@[simp]
theorem update_repeated (key : CallKey) (state : Option CallState) (t : Time) (k : CallKey) :
    update key state (repeated t k) = state := rfl

@[simp]
theorem update_completed (key : CallKey) (state : Option CallState) (t : Time) (k : CallKey) :
    update key state (completed t k) =
      if k = key then state.map fun _ => .completed t else state := rfl

/-- The state of a call behind a history, for one who forgets nothing. -/
def stateBehind (key : CallKey) (events : List LogEvent) : Option CallState :=
  events.foldl (update key) none

variable {key : CallKey} {events later : List LogEvent}

theorem stateBehind_concat (key : CallKey) (events : List LogEvent) (e : LogEvent) :
    stateBehind key (events ++ [e]) = update key (stateBehind key events) e := by
  rw [stateBehind, List.foldl_append]
  rfl

/-! ### The latest first arrival -/

/-- Since a first arrival under the key, a call that is running has not been completed, and another
one has been completed at the time that its state tells. -/
def LeavesIn (key : CallKey) (later : List LogEvent) : CallState → Prop
  | .running => ∀ t, completed t key ∉ later
  | .completed finish => completed finish key ∈ later

/-- The latest first arrival under the key, and what has become of the call. -/
def IsLatest (key : CallKey) (events : List LogEvent) (state : CallState) : Prop :=
  ∃ earlier start later, events = earlier ++ first start key :: later ∧
    (∀ t, first t key ∉ later) ∧ LeavesIn key later state

/-- An event under another key, or a repetition, changes nothing about a call. -/
theorem IsLatest.concat {state : CallState} (h : IsLatest key events state) {e : LogEvent}
    (hfirst : ∀ t, e ≠ first t key) (hcompleted : ∀ t, e ≠ completed t key) :
    IsLatest key (events ++ [e]) state := by
  obtain ⟨earlier, start, later, rfl, hlatest, hlater⟩ := h
  refine ⟨earlier, start, later ++ [e], by simp, fun t ht => ?_, ?_⟩
  · rcases List.mem_append.1 ht with ht | ht
    · exact hlatest t ht
    · exact hfirst t (List.mem_singleton.1 ht).symm
  · cases state with
    | completed finish => exact List.mem_append_left _ hlater
    | running =>
      intro t ht
      rcases List.mem_append.1 ht with ht | ht
      · exact hlater t ht
      · exact hcompleted t (List.mem_singleton.1 ht).symm

/-- A completion is the end of the latest call. -/
theorem IsLatest.concat_completed {state : CallState} (h : IsLatest key events state) (t : Time) :
    IsLatest key (events ++ [completed t key]) (.completed t) := by
  obtain ⟨earlier, start, later, rfl, hlatest, -⟩ := h
  refine ⟨earlier, start, later ++ [completed t key], by simp, fun t' ht' => ?_, by simp [LeavesIn]⟩
  rcases List.mem_append.1 ht' with ht' | ht'
  · exact hlatest t' ht'
  · cases List.mem_singleton.1 ht'

/-- One who forgets nothing knows what has become of the latest call. -/
theorem isLatest_of_stateBehind {state : CallState} (h : stateBehind key events = some state) :
    IsLatest key events state := by
  induction events using List.reverseRecOn generalizing state with
  | nil => cases h
  | append_singleton events e ih =>
    rw [stateBehind_concat] at h
    cases e with
    | repeated t k =>
      exact (ih h).concat (fun _ => LogEvent.noConfusion) fun _ => LogEvent.noConfusion
    | first t k =>
      by_cases hk : k = key
      · subst hk
        obtain rfl : CallState.running = state := by simpa [update] using h
        exact ⟨events, t, [], rfl, fun _ => List.not_mem_nil, fun _ => List.not_mem_nil⟩
      · have hstate : stateBehind key events = some state := by simpa [update, hk] using h
        exact (ih hstate).concat (by simp [hk]) (by simp)
    | completed t k =>
      by_cases hk : k = key
      · subst hk
        obtain ⟨before, hbefore, rfl⟩ : ∃ before, stateBehind k events = some before ∧
            CallState.completed t = state := by simpa [update] using h
        exact (ih hbefore).concat_completed t
      · have hstate : stateBehind key events = some state := by simpa [update, hk] using h
        exact (ih hstate).concat (by simp) (by simp [hk])

/-- Events that neither begin nor complete a call leave its state as it is. -/
theorem foldl_update_of_idle (state : Option CallState) (hfirst : ∀ t, first t key ∉ later)
    (hcompleted : ∀ t, completed t key ∉ later) : later.foldl (update key) state = state := by
  induction later with
  | nil => rfl
  | cons e later ih =>
    have hrest := ih (fun t ht => hfirst t (List.mem_cons_of_mem _ ht))
      fun t ht => hcompleted t (List.mem_cons_of_mem _ ht)
    have he : update key state e = state := by
      cases e with
      | repeated t k => rfl
      | first t k =>
        have hk : k ≠ key := by rintro rfl; exact hfirst t List.mem_cons_self
        exact if_neg hk
      | completed t k =>
        have hk : k ≠ key := by rintro rfl; exact hcompleted t List.mem_cons_self
        exact if_neg hk
    rw [List.foldl_cons, he, hrest]

theorem not_mem_of_countP_eq_zero (h : later.countP (completes key) = 0) (t : Time) :
    completed t key ∉ later :=
  fun ht => List.countP_eq_zero.1 h _ ht (decide_eq_true rfl)

/-- What is remembered by history is the state of one who forgets nothing. -/
theorem exists_stateBehind_of_remembers {retention : Nat} {now : Time}
    (honce : CompletesOnce key events) (h : Remembers retention now key events) :
    stateBehind key events = some .running ∨
      ∃ finish, stateBehind key events = some (.completed finish) ∧
        now.nanoseconds - retention ≤ finish.nanoseconds := by
  obtain ⟨earlier, start, later, rfl, hlatest, hlater⟩ := h
  have hstart : stateBehind key (earlier ++ first start key :: later) =
      later.foldl (update key) (some .running) := by
    rw [stateBehind, List.foldl_append, List.foldl_cons, update, if_pos rfl]
  rw [hstart]
  rcases hlater with hopen | ⟨finish, hmem, hrecent⟩
  · exact Or.inl (foldl_update_of_idle _ hlatest hopen)
  · refine Or.inr ⟨finish, ?_, hrecent⟩
    have hcount := honce earlier start later [] (List.append_nil _).symm hlatest
    obtain ⟨before, behind, rfl⟩ := List.append_of_mem hmem
    simp only [List.countP_append, List.countP_cons, completes, decide_true, if_true] at hcount
    have hbefore : before.foldl (update key) (some .running) = some .running :=
      foldl_update_of_idle _ (fun t ht => hlatest t (List.mem_append_left _ ht))
        (not_mem_of_countP_eq_zero (by omega))
    have hbehind : behind.foldl (update key) (some (.completed finish)) =
        some (.completed finish) :=
      foldl_update_of_idle _
        (fun t ht => hlatest t (List.mem_append_right _ (List.mem_cons_of_mem _ ht)))
        (not_mem_of_countP_eq_zero (by omega))
    rw [List.foldl_append, hbefore, List.foldl_cons, update_completed, if_pos rfl, Option.map_some,
      hbehind]

theorem CompletesOnce.left (h : CompletesOnce key (events ++ later)) :
    CompletesOnce key events := by
  rintro earlier start middle rest rfl hlatest
  exact h earlier start middle (rest ++ later) (by simp) hlatest

/-- A call that has been completed is not completed again before its next first arrival. -/
theorem CompletesOnce.not_completed {t : Time} (h : CompletesOnce key
    (events ++ completed t key :: later)) (finish : Time) :
    stateBehind key events ≠ some (.completed finish) := by
  intro hstate
  obtain ⟨earlier, start, middle, rfl, hlatest, hmem⟩ := isLatest_of_stateBehind hstate
  have hcount := h earlier start (middle ++ [completed t key]) later (by simp) fun t' ht' => by
    rcases List.mem_append.1 ht' with ht' | ht'
    · exact hlatest t' ht'
    · cases List.mem_singleton.1 ht'
  have hpos : 0 < middle.countP (completes key) :=
    List.countP_pos_iff.2 ⟨_, hmem, decide_eq_true rfl⟩
  simp only [List.countP_append, List.countP_singleton, completes, decide_true, if_true] at hcount
  omega

end LogEvent

/-! ## Logs and their histories -/

namespace CallLog

/-- Tells a log something, with what it makes of it. -/
def next (log : CallLog) : LogCall → LogEvent × CallLog
  | .arrive now key =>
    if (log.arrive now key).1 then (.repeated now key, (log.arrive now key).2)
    else (.first now key, (log.arrive now key).2)
  | .complete now key => (.completed now key, log.complete now key)

/-- The log behind a sequence of calls. -/
def after (log : CallLog) : List LogCall → CallLog
  | [] => log
  | c :: calls => (log.next c).2.after calls

/-- What the log makes of a sequence of calls. -/
def history (log : CallLog) : List LogCall → List LogEvent
  | [] => []
  | c :: calls => (log.next c).1 :: (log.next c).2.history calls

theorem after_append (log : CallLog) (calls calls' : List LogCall) :
    log.after (calls ++ calls') = (log.after calls).after calls' := by
  induction calls generalizing log with
  | nil => rfl
  | cons c calls ih => exact ih (log.next c).2

theorem history_append (log : CallLog) (calls calls' : List LogCall) :
    log.history (calls ++ calls') = log.history calls ++ (log.after calls).history calls' := by
  induction calls generalizing log with
  | nil => rfl
  | cons c calls ih => exact congrArg ((log.next c).1 :: ·) (ih (log.next c).2)

/-! ### Forgetting in passing -/

/-- The keys of all remembered calls. -/
def keys (log : CallLog) : List CallKey := log.calls.map Prod.fst

/-- Forgetting calls by their state, where each key stands once. -/
theorem lookup_filter {calls : List (CallKey × CallState)} (h : (calls.map Prod.fst).Nodup)
    (p : CallState → Bool) (key : CallKey) :
    (calls.filter fun c => p c.2).lookup key = (calls.lookup key).filter p := by
  induction calls with
  | nil => rfl
  | cons c calls ih =>
    obtain ⟨k, state⟩ := c
    rw [List.map_cons, List.nodup_cons] at h
    have hrest := ih h.2
    by_cases hk : key = k
    · subst hk
      have hnone : calls.lookup key = none := by
        refine List.lookup_eq_none_iff.2 fun c hc => bne_iff_ne.2 fun heq => h.1 ?_
        exact List.mem_map.2 ⟨c, hc, heq.symm⟩
      rw [hnone] at hrest
      by_cases hp : p state = true
      · simp [hp, Option.filter_some]
      · simp [hp, Option.filter_some, hrest]
    · have hne : (key == k) = false := beq_false_of_ne hk
      by_cases hp : p state = true
      · simp [hp, List.lookup_cons, hne, hrest]
      · simp [hp, List.lookup_cons, hne, hrest]

theorem state?_expire {log : CallLog} (h : log.keys.Nodup) (now : Time) (key : CallKey) :
    (log.expire now).state? key = (log.state? key).filter (·.isKept log.retention now) := by
  rw [expire_eq]
  exact lookup_filter h _ key

theorem nodup_keys_expire {log : CallLog} (h : log.keys.Nodup) (now : Time) :
    (log.expire now).keys.Nodup := by
  rw [expire_eq]
  exact h.sublist (List.filter_sublist.map _)

variable {log : CallLog} {now : Time} {key k : CallKey}

theorem next_of_repeated (h : (log.arrive now key).1 = true) :
    log.next (.arrive now key) = (.repeated now key, log.expire now) := by
  unfold next
  dsimp only
  rw [if_pos h, arrive_of_repeated h]

theorem next_of_first (h : (log.arrive now key).1 = false) :
    log.next (.arrive now key) =
      (.first now key, ⟨log.retention, (key, .running) :: (log.expire now).calls⟩) := by
  have hnone : (log.expire now).state? key = none := by
    rw [arrive_fst] at h
    simpa using h
  have hlog : (log.arrive now key).2 =
      ⟨log.retention, (key, .running) :: (log.expire now).calls⟩ := by
    unfold arrive
    dsimp only
    rw [hnone]
    simp only [retention_expire]
  unfold next
  dsimp only
  rw [h, hlog]
  rfl

/-- A call that arrives for the first time has a key that no remembered call has. -/
theorem not_mem_keys_of_first (h : (log.arrive now key).1 = false) :
    key ∉ (log.expire now).keys := by
  intro hkey
  obtain ⟨⟨_, state⟩, hmem, rfl⟩ := List.mem_map.1 hkey
  rw [arrive_fst, (state?_isSome_iff _ _).2 ⟨state, hmem⟩] at h
  cases h

theorem retention_next (log : CallLog) (c : LogCall) :
    (log.next c).2.retention = log.retention := by
  cases c with
  | complete now key => rfl
  | arrive now key =>
    cases h : (log.arrive now key).1 with
    | true => rw [next_of_repeated h, retention_expire]
    | false => rw [next_of_first h]

theorem retention_after (log : CallLog) (calls : List LogCall) :
    (log.after calls).retention = log.retention := by
  induction calls generalizing log with
  | nil => rfl
  | cons c calls ih => exact (ih (log.next c).2).trans (log.retention_next c)

/-! ### What logs know -/

/-- What a log knows of a call is its state, unless the call has been forgotten for good. -/
structure Tracks (log : CallLog) (key : CallKey) (now : Time) (state : Option CallState) :
    Prop where
  distinct : log.keys.Nodup
  knows : log.state? key = state ∨ log.state? key = none ∧
    ∃ finish, state = some (.completed finish) ∧
      (CallState.completed finish).isKept log.retention now = false

theorem tracks_empty (retention : Nat) (key : CallKey) (now : Time) :
    (empty retention).Tracks key now none :=
  ⟨List.nodup_nil, Or.inl rfl⟩

variable {s t : Time} {state : Option CallState}

/-- What is left of a call when a log has forgotten what it can. -/
theorem Tracks.state?_expire_eq (h : log.Tracks key s state) (hst : s ≤ t) :
    (log.expire t).state? key = state.filter (·.isKept log.retention t) := by
  rw [state?_expire h.distinct]
  rcases h.knows with hknows | ⟨hnone, finish, rfl, hkept⟩
  · rw [hknows]
  · rw [hnone, Option.filter_none, Option.filter_some, if_neg]
    exact fun ht => Bool.eq_false_iff.1 hkept (CallState.isKept_of_le hst ht)

theorem Tracks.arrive_eq (h : log.Tracks key s state) (hst : s ≤ t) :
    (log.arrive t key).1 = (state.filter (·.isKept log.retention t)).isSome := by
  rw [arrive_fst, h.state?_expire_eq hst]

theorem Tracks.later (h : log.Tracks key s state) (hst : s ≤ t) : log.Tracks key t state := by
  refine ⟨h.distinct, h.knows.imp_right fun ⟨hnone, finish, hstate, hkept⟩ =>
    ⟨hnone, finish, hstate, ?_⟩⟩
  rw [Bool.eq_false_iff] at hkept ⊢
  exact fun ht => hkept (CallState.isKept_of_le hst ht)

theorem Tracks.expire (h : log.Tracks key s state) (hst : s ≤ t) :
    (log.expire t).Tracks key t state := by
  refine ⟨nodup_keys_expire h.distinct t, ?_⟩
  rw [h.state?_expire_eq hst, retention_expire]
  cases state with
  | none => exact Or.inl rfl
  | some state =>
    rw [Option.filter_some]
    by_cases hkept : state.isKept log.retention t = true
    · exact Or.inl (if_pos hkept)
    · cases state with
      | running => exact absurd (CallState.isKept_running _ _) hkept
      | completed finish => exact Or.inr ⟨if_neg hkept, finish, rfl, Bool.eq_false_iff.2 hkept⟩

/-- A log that takes down a new call knows of that call and of the others what it knew. -/
theorem Tracks.add (h : log.Tracks key t state) (hnew : k ∉ log.keys) :
    (CallLog.mk log.retention ((k, .running) :: log.calls)).Tracks key t
      (if k = key then some .running else state) := by
  refine ⟨List.nodup_cons.2 ⟨hnew, h.distinct⟩, ?_⟩
  by_cases hk : k = key
  · subst hk
    exact Or.inl (by simp [state?])
  · have hne : (key == k) = false := beq_false_of_ne (Ne.symm hk)
    have hsame : state? ⟨log.retention, (k, .running) :: log.calls⟩ key = log.state? key := by
      rw [state?, List.lookup_cons, hne]
      rfl
    rw [hsame, if_neg hk]
    exact h.knows

/-- A log that learns of a completion knows when the call was completed, if it was under way. -/
theorem Tracks.complete (h : log.Tracks key t state)
    (honce : k = key → ∀ finish, state ≠ some (.completed finish)) :
    (log.complete t k).Tracks key t
      (if k = key then state.map fun _ => .completed t else state) := by
  have hkeys : (log.complete t k).keys = log.keys := by simp [CallLog.complete, keys]
  refine ⟨hkeys ▸ h.distinct, ?_⟩
  rw [state?_complete]
  by_cases hk : k = key
  · subst hk
    rcases h.knows with hknows | ⟨-, finish, hstate, -⟩
    · exact Or.inl (by rw [if_pos rfl, if_pos rfl, hknows])
    · exact absurd hstate (honce rfl finish)
  · rw [if_neg (Ne.symm hk), if_neg hk]
    exact h.knows

/-- A log that is told something at a later time goes on knowing the state of the call, if no call
is completed twice. -/
theorem Tracks.next (h : log.Tracks key s state) {c : LogCall} (hst : s ≤ c.time)
    (honce : ∀ t, c = .complete t key → ∀ finish, state ≠ some (.completed finish)) :
    (log.next c).2.Tracks key c.time (LogEvent.update key state (log.next c).1) := by
  cases c with
  | complete t k => exact (h.later hst).complete fun hk => honce t (by rw [hk])
  | arrive t k =>
    have hexpire := h.expire hst
    cases hfirst : (log.arrive t k).1 with
    | true =>
      rw [next_of_repeated hfirst]
      exact hexpire
    | false =>
      rw [next_of_first hfirst, ← retention_expire log t]
      exact hexpire.add (not_mem_keys_of_first hfirst)

/-- Logs that know the same of a call make the same of what they are told about it. -/
theorem Tracks.next_fst_eq {log' : CallLog} (h : log.Tracks key s state)
    (h' : log'.Tracks key s state) (hretention : log.retention = log'.retention) {c : LogCall}
    (hst : s ≤ c.time) (hc : c.key = key) : (log.next c).1 = (log'.next c).1 := by
  cases c with
  | complete t k => rfl
  | arrive t k =>
    obtain rfl : k = key := hc
    have hsame : (log.arrive t k).1 = (log'.arrive t k).1 := by
      rw [h.arrive_eq (t := t) hst, h'.arrive_eq (t := t) hst, hretention]
    cases hfirst : (log.arrive t k).1 with
    | true => rw [next_of_repeated hfirst, next_of_repeated (hsame.symm.trans hfirst)]
    | false => rw [next_of_first hfirst, next_of_first (hsame.symm.trans hfirst)]

/-- What a log is told about other calls changes nothing about a call. -/
theorem update_next_of_ne {c : LogCall} (hc : c.key ≠ key) :
    LogEvent.update key state (log.next c).1 = state := by
  cases c with
  | complete t k => exact if_neg hc
  | arrive t k =>
    cases hfirst : (log.arrive t k).1 with
    | true => rw [next_of_repeated hfirst, LogEvent.update_repeated]
    | false =>
      rw [next_of_first hfirst]
      exact if_neg hc

theorem mem_of_completed_mem_history {calls : List LogCall}
    (h : LogEvent.completed t k ∈ log.history calls) : .complete t k ∈ calls := by
  induction calls generalizing log with
  | nil => cases h
  | cons c calls ih =>
    rcases List.mem_cons.1 h with h | h
    · cases c with
      | complete t' k' =>
        obtain ⟨rfl, rfl⟩ := LogEvent.completed.inj h
        exact List.mem_cons_self
      | arrive t' k' =>
        cases hfirst : (log.arrive t' k').1 with
        | true => rw [next_of_repeated hfirst] at h; cases h
        | false => rw [next_of_first hfirst] at h; cases h
    · exact List.mem_cons_of_mem _ (ih h)

/-- A log knows the state of a call, and so does one that has been told of no other calls. -/
theorem tracks_after {retention : Nat} {calls : List LogCall} (htimely : LogCall.Timely calls)
    (honce : LogEvent.CompletesOnce key ((empty retention).history calls))
    (hnow : ∀ c ∈ calls, c.time ≤ now) :
    let state := LogEvent.stateBehind key ((empty retention).history calls)
    ((empty retention).after calls).Tracks key now state ∧
      ((empty retention).after (calls.filter fun c => c.key = key)).Tracks key now state := by
  induction calls using List.reverseRecOn generalizing now with
  | nil => exact ⟨tracks_empty retention key now, tracks_empty retention key now⟩
  | append_singleton calls c ih =>
    have hhistory : (empty retention).history (calls ++ [c]) =
        (empty retention).history calls ++ [(((empty retention).after calls).next c).1] :=
      history_append _ _ _
    rw [hhistory] at honce ⊢
    have hbefore : ∀ c' ∈ calls, c'.time ≤ c.time := fun c' hc' =>
      htimely.le_of_mem_append hc' (List.mem_singleton_self c)
    have hlast : c.time ≤ now := hnow c (by simp)
    obtain ⟨hall, hown⟩ := ih htimely.left honce.left hbefore
    have hopen : ∀ t, c = .complete t key → ∀ finish,
        LogEvent.stateBehind key ((empty retention).history calls) ≠ some (.completed finish) := by
      rintro t rfl
      exact honce.not_completed
    rw [after_append, LogEvent.stateBehind_concat, List.filter_append]
    refine ⟨(hall.next (Time.le_refl _) hopen).later hlast, ?_⟩
    by_cases hc : c.key = key
    · have hevent :=
        hall.next_fst_eq hown (by rw [retention_after, retention_after]) (Time.le_refl _) hc
      have hkept : [c].filter (fun c => c.key = key) = [c] := by simp [hc]
      rw [hkept, after_append, hevent]
      exact (hown.next (Time.le_refl _) hopen).later hlast
    · have hdropped : [c].filter (fun c => c.key = key) = [] := by simp [hc]
      rw [hdropped, List.append_nil, update_next_of_ne hc]
      exact hown.later hlast

/-- A call has been completed at a time that clocks can show. -/
theorem earliest_le_of_stateBehind {calls : List LogCall} (htimely : LogCall.Timely calls)
    {finish : Time}
    (h : LogEvent.stateBehind key (log.history calls) = some (.completed finish)) :
    Time.earliest ≤ finish := by
  obtain ⟨earlier, start, later, hevents, -, hlater⟩ := LogEvent.isLatest_of_stateBehind h
  have hmem : LogEvent.completed finish key ∈ log.history calls := by
    rw [hevents]
    exact List.mem_append_right _ (List.mem_cons_of_mem _ hlater)
  exact htimely.earliest_le (mem_of_completed_mem_history hmem)

/-- A call that arrives is taken for a repetition exactly when the latest first arrival under its
key has not been completed, however long ago it was, or has been completed no longer ago than the
retention time.  What the log has been told about other calls makes no difference. -/
theorem arrive_iff_remembers (retention : Nat) (calls : List LogCall) (now : Time) (key : CallKey)
    (htimely : LogCall.Timely (calls ++ [.arrive now key]))
    (honce : LogEvent.CompletesOnce key ((empty retention).history calls)) :
    ((((empty retention).after calls).arrive now key).1 = true ↔
        LogEvent.Remembers retention now key ((empty retention).history calls)) ∧
      (((empty retention).after calls).arrive now key).1 =
        (((empty retention).after (calls.filter fun c => c.key = key)).arrive now key).1 := by
  have hnow : ∀ c ∈ calls, c.time ≤ now := fun c hc =>
    htimely.le_of_mem_append hc (List.mem_singleton_self _)
  obtain ⟨hall, hown⟩ := tracks_after htimely.left honce hnow
  rw [hall.arrive_eq (Time.le_refl _), hown.arrive_eq (Time.le_refl _), retention_after,
    retention_after]
  refine ⟨?_, rfl⟩
  show ((LogEvent.stateBehind key _).filter (·.isKept retention now)).isSome = true ↔ _
  constructor
  · intro hkept
    obtain ⟨state, hfilter⟩ := Option.isSome_iff_exists.1 hkept
    obtain ⟨hstate, hkept⟩ := Option.filter_eq_some_iff.1 hfilter
    obtain ⟨earlier, start, later, hevents, hlatest, hlater⟩ :=
      LogEvent.isLatest_of_stateBehind hstate
    refine ⟨earlier, start, later, hevents, hlatest, ?_⟩
    cases state with
    | running => exact Or.inl hlater
    | completed finish =>
      have hfinish := earliest_le_of_stateBehind htimely.left hstate
      exact Or.inr ⟨finish, hlater, (CallState.isKept_completed_iff hfinish).1 hkept⟩
  · intro hremembers
    rcases LogEvent.exists_stateBehind_of_remembers honce hremembers with
      hstate | ⟨finish, hstate, hrecent⟩
    · rw [hstate, Option.filter_some, CallState.isKept_running]
      rfl
    · have hfinish := earliest_le_of_stateBehind htimely.left hstate
      rw [hstate, Option.filter_some, (CallState.isKept_completed_iff hfinish).2 hrecent]
      rfl

/-- A call that takes longer than the retention time is remembered while it is under way, and then
for exactly the retention time; another call that arrives in between makes no difference. -/
theorem arrive_iff_remembers_boundary :
    let slow : CallKey := ⟨7, "host"⟩
    let at' (seconds : Int) : Time := .ofParts seconds 0
    let calls : List LogCall := [.arrive (at' 0) slow, .arrive (at' 100) ⟨8, "host"⟩,
      .complete (at' 100) slow]
    let log := empty 60000000000
    LogCall.Timely (calls ++ [.arrive (at' 160) slow]) ∧
      LogEvent.CompletesOnce slow (log.history calls) ∧
      LogEvent.Remembers 60000000000 (at' 160) slow (log.history calls) ∧
      ((log.after calls).arrive (at' 160) slow).1 = true := by
  intro slow at' calls log
  have htimely : LogCall.Timely (calls ++ [.arrive (at' 160) slow]) := by
    unfold LogCall.Timely
    decide
  have honce : LogEvent.CompletesOnce slow (log.history calls) := by
    intro earlier start middle later hevents _
    have hcount : (log.history calls).countP (LogEvent.completes slow) ≤ 1 := by decide
    rw [hevents] at hcount
    simp only [List.countP_append, List.countP_cons] at hcount
    omega
  have hremembers : LogEvent.Remembers 60000000000 (at' 160) slow (log.history calls) :=
    ⟨[], at' 0, [.first (at' 100) ⟨8, "host"⟩, .completed (at' 100) slow], by decide,
      by simp [slow], Or.inr ⟨at' 100, by simp, by decide⟩⟩
  have hiff := (arrive_iff_remembers 60000000000 calls (at' 160) slow htimely honce).1
  exact ⟨htimely, honce, hremembers, hiff.2 hremembers⟩

end CallLog

end Rpc

end NfsServer
