import NfsServer.Proofs.Rpc.Call

/-!
# Repeated calls

A call log forgets what has been completed for longer than the retention time, and it does so only
when a call arrives.  Two logs `Agree` from a point in time on when nothing that happens later can
tell them apart; in particular a log agrees with one that never forgets (`agree_journal`).  So a
call is dropped exactly when the run has executed the same call a short time ago, and dropping it
changes nothing that comes after (`silent_iff_and_invisible`).
-/

namespace NfsServer

namespace Time

theorem le_iff {s t : Time} : s ≤ t ↔ s.nanoseconds ≤ t.nanoseconds := Iff.rfl

theorem le_trans {r s t : Time} (h : r ≤ s) (h' : s ≤ t) : r ≤ t := Int.le_trans h h'

/-- The point that lies `duration` nanoseconds before a time, if it can be shown, is no earlier than
the one before an earlier time. -/
theorem before?_mono {s t cutoff : Time} {duration : Nat} (h : s ≤ t)
    (hs : s.before? duration = some cutoff) :
    ∃ cutoff', t.before? duration = some cutoff' ∧ cutoff ≤ cutoff' := by
  rw [le_iff] at h
  unfold before? at hs ⊢
  dsimp only at hs ⊢
  split at hs
  · cases hs
  · next hshown =>
    obtain rfl := Option.some.inj hs
    refine ⟨_, if_neg (by omega), ?_⟩
    rw [le_iff]
    dsimp only
    omega

end Time

namespace Rpc

namespace CallState

theorem isRecent_of_le {s t : Time} (h : s ≤ t) {state : CallState}
    (hrecent : state.isRecent t = true) : state.isRecent s = true := by
  cases state with
  | running => rfl
  | completed time =>
    rw [Time.le_iff] at h
    simp only [isRecent, decide_eq_true_eq] at hrecent ⊢
    omega

/-- Whether a call in the given state is remembered at a point in time. -/
def isKept (retention : Nat) (now : Time) (state : CallState) : Bool :=
  match now.before? retention with
  | none => true
  | some cutoff => state.isRecent cutoff

theorem isKept_running (retention : Nat) (now : Time) : running.isKept retention now = true := by
  unfold isKept
  split <;> rfl

/-- What would be forgotten early would be forgotten later as well. -/
theorem isKept_of_le {retention : Nat} {s t : Time} (h : s ≤ t) {state : CallState}
    (ht : state.isKept retention t = true) : state.isKept retention s = true := by
  unfold isKept at ht ⊢
  rcases hs : s.before? retention with _ | cutoff
  · rfl
  · obtain ⟨cutoff', hcutoff', hle⟩ := Time.before?_mono h hs
    rw [hcutoff'] at ht
    exact isRecent_of_le hle ht

/-- A completed call is remembered for exactly the retention time. -/
theorem isKept_completed_iff {retention : Nat} {now finish : Time} (h : Time.earliest ≤ finish) :
    (completed finish).isKept retention now = true ↔
      now.nanoseconds - retention ≤ finish.nanoseconds := by
  rw [Time.le_iff] at h
  unfold isKept
  rcases hnow : now.before? retention with _ | cutoff
  · -- The retention time reaches back behind all times that can be shown.
    have hbound : now.nanoseconds - retention < Time.earliest.nanoseconds := by
      simpa [Time.before?] using hnow
    exact iff_of_true rfl (by omega)
  · have hcutoff : cutoff.nanoseconds = now.nanoseconds - retention := by
      simp only [Time.before?] at hnow
      split at hnow
      · cases hnow
      · rw [← Option.some.inj hnow]
    simp only [isRecent, decide_eq_true_eq, hcutoff]

end CallState

namespace CallLog

/-! ## Forgetting -/

theorem expire_eq (log : CallLog) (now : Time) :
    log.expire now =
      ⟨log.retention, log.calls.filter fun c => c.2.isKept log.retention now⟩ := by
  unfold expire CallState.isKept
  cases now.before? log.retention with
  | none => exact congrArg (CallLog.mk log.retention) (List.filter_eq_self.2 fun _ _ => rfl).symm
  | some cutoff => rfl

theorem retention_expire (log : CallLog) (now : Time) :
    (log.expire now).retention = log.retention := by
  rw [expire_eq]

/-- What is forgotten early would be forgotten later as well. -/
theorem expire_expire (log : CallLog) {s t : Time} (h : s ≤ t) :
    (log.expire s).expire t = log.expire t := by
  simp only [expire_eq, List.filter_filter, CallLog.mk.injEq, true_and]
  apply List.filter_congr
  intro c _
  by_cases hc : c.2.isKept log.retention t = true
  · rw [hc, CallState.isKept_of_le h hc, Bool.and_self]
  · rw [Bool.eq_false_iff.2 hc, Bool.false_and]

/-- A further call in a log is forgotten by itself. -/
theorem expire_cons {retention : Nat} (call : CallKey × CallState)
    {calls calls' : List (CallKey × CallState)} {now : Time}
    (h : expire ⟨retention, calls⟩ now = expire ⟨retention, calls'⟩ now) :
    expire ⟨retention, call :: calls⟩ now = expire ⟨retention, call :: calls'⟩ now := by
  simp only [expire_eq, CallLog.mk.injEq, true_and] at h ⊢
  rw [List.filter_cons, List.filter_cons, h]

/-- From a point in time on, the two logs remember the same calls. -/
def Agree (start : Time) (log log' : CallLog) : Prop :=
  ∀ now, start ≤ now → log.expire now = log'.expire now

theorem Agree.later {s t : Time} {log log' : CallLog} (h : Agree s log log') (hst : s ≤ t) :
    Agree t log log' :=
  fun now hnow => h now (Time.le_trans hst hnow)

theorem agree_expire (log : CallLog) (t : Time) : Agree t (log.expire t) log :=
  fun _ hnow => log.expire_expire hnow

/-- What an arriving call is compared with is what is remembered at that time. -/
theorem Agree.arrive_eq {start now : Time} {log log' : CallLog} (h : Agree start log log')
    (hnow : start ≤ now) (key : CallKey) : log.arrive now key = log'.arrive now key := by
  unfold arrive
  rw [h now hnow]

/-! ## Arrival and completion -/

theorem state?_isSome_iff (log : CallLog) (key : CallKey) :
    (log.state? key).isSome ↔ ∃ state, (key, state) ∈ log.calls := by
  unfold state?
  induction log.calls with
  | nil => simp
  | cons call calls ih =>
    obtain ⟨k, state⟩ := call
    by_cases hk : key = k
    · subst hk
      simp
    · have hne : (key == k) = false := beq_false_of_ne hk
      simp only [List.lookup_cons, hne, ih, List.mem_cons, Prod.mk.injEq, hk, false_and, false_or]

theorem arrive_fst (log : CallLog) (now : Time) (key : CallKey) :
    (log.arrive now key).1 = ((log.expire now).state? key).isSome := by
  unfold arrive
  dsimp only
  split
  · next h => rw [h]; rfl
  · next h => rw [h]; rfl

theorem arrive_of_repeated {log : CallLog} {now : Time} {key : CallKey}
    (h : (log.arrive now key).1 = true) : (log.arrive now key).2 = log.expire now := by
  rw [arrive_fst] at h
  obtain ⟨state, hstate⟩ := Option.isSome_iff_exists.1 h
  unfold arrive
  dsimp only
  rw [hstate]

/-- A call that arrives for the first time and is completed stands alone in front of what was
remembered when it arrived. -/
theorem complete_arrive {log : CallLog} {now : Time} {key : CallKey}
    (h : (log.arrive now key).1 = false) (finish : Time) :
    (log.arrive now key).2.complete finish key =
      ⟨log.retention, (key, .completed finish) :: (log.expire now).calls⟩ := by
  rw [arrive_fst] at h
  have hnone : (log.expire now).state? key = none := by simpa using h
  have hkeys : ∀ call ∈ (log.expire now).calls, call.1 ≠ key := by
    rintro ⟨k, state⟩ hcall rfl
    have := (state?_isSome_iff (log.expire now) k).2 ⟨state, hcall⟩
    rw [hnone] at this
    cases this
  unfold arrive
  dsimp only
  rw [hnone]
  simp only [complete, retention_expire, List.map_cons, if_true, CallLog.mk.injEq, List.cons.injEq,
    true_and]
  refine (List.map_congr_left fun call hcall => ?_).trans (List.map_id _)
  rw [if_neg (hkeys call hcall)]
  rfl

theorem mem_of_mem_expire {log : CallLog} {now : Time} {call : CallKey × CallState}
    (h : call ∈ (log.expire now).calls) : call ∈ log.calls := by
  rw [expire_eq] at h
  exact (List.mem_filter.1 h).1

/-- What is remembered of completed calls: those that were completed no longer ago than the
retention time. -/
theorem mem_expire_completed_iff {log : CallLog} {now finish : Time} {key : CallKey}
    (h : Time.earliest ≤ finish) :
    (key, .completed finish) ∈ (log.expire now).calls ↔
      (key, .completed finish) ∈ log.calls ∧
        now.nanoseconds - log.retention ≤ finish.nanoseconds := by
  rw [expire_eq, List.mem_filter, CallState.isKept_completed_iff h]

end CallLog

end Rpc

/-! ## One message -/

namespace Server

open Rpc

variable {σ : Type} [Store σ]

/-- The key of a message, if it is a call that is let in. -/
def admitted? (policy : CredentialPolicy) (m : Incoming) : Option CallKey :=
  match Arrival.read policy m.input with
  | .call xid _ _ => some ⟨xid, m.client⟩
  | .closed _ => none
  | .denied _ _ => none

theorem exists_read_of_admitted? {policy : CredentialPolicy} {m : Incoming} {key : CallKey}
    (h : admitted? policy m = some key) :
    ∃ xid header arguments, Arrival.read policy m.input = .call xid header arguments ∧
      key = ⟨xid, m.client⟩ := by
  unfold admitted? at h
  cases hread : Arrival.read policy m.input with
  | closed e => rw [hread] at h; cases h
  | denied xid cause => rw [hread] at h; cases h
  | call xid header arguments =>
    rw [hread] at h
    exact ⟨xid, header, arguments, rfl, (Option.some.inj h).symm⟩

theorem answer_ne_silent (s : Server σ) (now : Time) (xid : UInt32) (header : CallHeader)
    (arguments : Bytes) : (s.answer now xid header arguments).1 ≠ .silent := by
  unfold answer
  split
  · exact CallOutcome.noConfusion
  · unfold execute
    split <;> exact CallOutcome.noConfusion

/-- A message that is no call, or is turned away, leaves the server as it was. -/
theorem take_of_not_admitted {s : Server σ} {m : Incoming}
    (h : admitted? s.config.policy m = none) : (s.take m).1 ≠ .silent ∧ (s.take m).2 = s := by
  cases hread : Arrival.read s.config.policy m.input with
  | closed e =>
    rw [take_of_read_closed hread]
    exact ⟨CallOutcome.noConfusion, rfl⟩
  | denied xid cause =>
    rw [take_of_read_denied hread]
    exact ⟨CallOutcome.noConfusion, rfl⟩
  | call xid header arguments =>
    unfold admitted? at h
    rw [hread] at h
    cases h

/-- A repetition is dropped, and nothing but the log notices it. -/
theorem take_of_repeated {s : Server σ} {m : Incoming} {key : CallKey}
    (h : admitted? s.config.policy m = some key)
    (hrepeated : (s.calls.arrive m.clock.arrived key).1 = true) :
    s.take m = (.silent, { s with calls := s.calls.expire m.clock.arrived }) := by
  obtain ⟨xid, header, arguments, hread, rfl⟩ := exists_read_of_admitted? h
  rw [take_of_read_repeated hread hrepeated, CallLog.arrive_of_repeated hrepeated]

/-- A call that is let in for the first time gets an answer and is logged, however it ends. -/
theorem take_of_first {s : Server σ} {m : Incoming} {key : CallKey}
    (h : admitted? s.config.policy m = some key)
    (hfirst : (s.calls.arrive m.clock.arrived key).1 = false) :
    (s.take m).1 ≠ .silent ∧
      (s.take m).2.calls = ⟨s.calls.retention,
        (key, .completed m.clock.completed) :: (s.calls.expire m.clock.arrived).calls⟩ := by
  obtain ⟨xid, header, arguments, hread, rfl⟩ := exists_read_of_admitted? h
  rw [take_of_read_first hread hfirst]
  exact ⟨s.answer_ne_silent _ _ _ _, CallLog.complete_arrive hfirst m.clock.completed⟩

/-! ## Two runs -/

/-- Two servers that nothing later than a point in time can tell apart. -/
structure Alike (start : Time) (s s' : Server σ) : Prop where
  config : s.config = s'.config
  backend : s.backend = s'.backend
  calls : CallLog.Agree start s.calls s'.calls

/-- Servers that are alike do the same with a message and stay alike. -/
theorem Alike.take {start : Time} {s s' : Server σ} (h : Alike start s s') {m : Incoming}
    (harrived : start ≤ m.clock.arrived) (hcompleted : m.clock.arrived ≤ m.clock.completed) :
    (s.take m).1 = (s'.take m).1 ∧ Alike m.clock.completed (s.take m).2 (s'.take m).2 := by
  obtain ⟨config, backend, calls⟩ := s
  obtain ⟨config', backend', calls'⟩ := s'
  obtain ⟨rfl, rfl, hcalls⟩ := h
  have hlater : CallLog.Agree m.clock.completed calls calls' :=
    hcalls.later (Time.le_trans harrived hcompleted)
  unfold Server.take callDuring
  cases hread : Arrival.read config.policy m.input with
  | closed e => exact ⟨rfl, rfl, rfl, hlater⟩
  | denied xid cause => exact ⟨rfl, rfl, rfl, hlater⟩
  | call xid header arguments =>
    dsimp only
    rw [hcalls.arrive_eq harrived]
    rcases calls'.arrive m.clock.arrived ⟨xid, m.client⟩ with ⟨_ | _, log⟩
    · exact ⟨rfl, rfl, rfl, fun _ _ => rfl⟩
    · exact ⟨rfl, rfl, rfl, fun _ _ => rfl⟩

/-- Servers that are alike do the same with all that comes later. -/
theorem Alike.run {start : Time} {s s' : Server σ} (h : Alike start s s') {ms : List Incoming}
    (htimely : Incoming.TimelyFrom start ms) :
    s.outcomes ms = s'.outcomes ms ∧ (s.after ms).backend = (s'.after ms).backend := by
  induction ms generalizing start s s' with
  | nil => exact ⟨rfl, h.backend⟩
  | cons m ms ih =>
    have harrived : start ≤ m.clock.arrived := htimely.le (by simp [Incoming.readings_cons])
    obtain ⟨hsame, halike⟩ := h.take harrived htimely.arrived_le_completed
    obtain ⟨houtcomes, hbackend⟩ := ih halike htimely.tail
    exact ⟨by rw [outcomes, outcomes, hsame, houtcomes], hbackend⟩

/-! ## The history of a run -/

/-- The message is a call with the given key that is let in and executed, whether that ends in a
reply or closes the connection. -/
def Executes (s : Server σ) (m : Incoming) (key : CallKey) : Prop :=
  admitted? s.config.policy m = some key ∧ (s.take m).1 ≠ .silent

/-- What a log that never forgets gets to know of a message. -/
def logged (s : Server σ) (m : Incoming) : List (CallKey × CallState) :=
  match admitted? s.config.policy m with
  | none => []
  | some key => if (s.take m).1 = .silent then [] else [(key, .completed m.clock.completed)]

/-- The log of a run in which nothing is forgotten, the last call first. -/
def journal (s : Server σ) : List Incoming → List (CallKey × CallState)
  | [] => []
  | m :: ms => (s.take m).2.journal ms ++ s.logged m

theorem mem_logged_iff {s : Server σ} {m : Incoming} {key : CallKey} {state : CallState} :
    (key, state) ∈ s.logged m ↔ s.Executes m key ∧ state = .completed m.clock.completed := by
  unfold logged Executes
  cases admitted? s.config.policy m with
  | none => simp
  | some k =>
    dsimp only
    split <;> simp_all [eq_comm]

/-- The journal of a run tells which calls were executed and when they were completed. -/
theorem mem_journal_iff {s : Server σ} {ms : List Incoming} {key : CallKey} {state : CallState} :
    (key, state) ∈ s.journal ms ↔ ∃ before m later, ms = before ++ m :: later ∧
      (s.after before).Executes m key ∧ state = .completed m.clock.completed := by
  induction ms generalizing s with
  | nil => simp [journal]
  | cons m ms ih =>
    rw [journal, List.mem_append, ih, mem_logged_iff]
    constructor
    · rintro (⟨before, e, later, rfl, hexec, hstate⟩ | h)
      · exact ⟨m :: before, e, later, rfl, hexec, hstate⟩
      · exact ⟨[], m, ms, rfl, h⟩
    · rintro ⟨_ | ⟨b, before⟩, e, later, heq, hexec, hstate⟩
      · obtain ⟨rfl, rfl⟩ := List.cons.inj heq
        exact Or.inr ⟨hexec, hstate⟩
      · obtain ⟨rfl, rfl⟩ := List.cons.inj heq
        exact Or.inl ⟨before, e, later, rfl, hexec, hstate⟩

/-- A message leaves a log that agrees with one in which nothing is forgotten. -/
theorem agree_logged {start : Time} {s : Server σ} {past : List (CallKey × CallState)}
    (h : CallLog.Agree start s.calls ⟨s.calls.retention, past⟩) {m : Incoming}
    (harrived : start ≤ m.clock.arrived) (hcompleted : m.clock.arrived ≤ m.clock.completed) :
    (s.take m).2.calls.retention = s.calls.retention ∧
      CallLog.Agree m.clock.completed (s.take m).2.calls
        ⟨s.calls.retention, s.logged m ++ past⟩ := by
  have hlater := h.later (Time.le_trans harrived hcompleted)
  unfold logged
  rcases hadmitted : admitted? s.config.policy m with _ | key
  · rw [(take_of_not_admitted hadmitted).2]
    exact ⟨rfl, hlater⟩
  · rcases hrepeated : (s.calls.arrive m.clock.arrived key).1 with _ | _
    · -- The log forgets before it writes down the call, and the journal writes it down only.
      obtain ⟨hne, hcalls⟩ := take_of_first hadmitted hrepeated
      have heta : CallLog.mk s.calls.retention (s.calls.expire m.clock.arrived).calls =
          s.calls.expire m.clock.arrived := by
        rw [← CallLog.retention_expire s.calls m.clock.arrived]
      rw [hcalls]
      refine ⟨rfl, fun now hnow => ?_⟩
      dsimp only
      rw [if_neg hne]
      apply CallLog.expire_cons
      rw [heta, CallLog.expire_expire _ (Time.le_trans hcompleted hnow)]
      exact hlater now hnow
    · rw [take_of_repeated hadmitted hrepeated]
      refine ⟨CallLog.retention_expire _ _, fun now hnow => ?_⟩
      dsimp only
      rw [if_pos rfl, List.nil_append, CallLog.expire_expire _ (Time.le_trans hcompleted hnow)]
      exact hlater now hnow

/-- The log behind a run agrees with the journal of the run. -/
theorem agree_journal {start : Time} {s : Server σ} {past : List (CallKey × CallState)}
    (h : CallLog.Agree start s.calls ⟨s.calls.retention, past⟩) {ms : List Incoming}
    (htimely : Incoming.TimelyFrom start ms) {now : Time} (hstart : start ≤ now)
    (hnow : ∀ t ∈ Incoming.readings ms, t ≤ now) :
    (s.after ms).calls.expire now =
      CallLog.expire ⟨s.calls.retention, s.journal ms ++ past⟩ now := by
  induction ms generalizing start s past with
  | nil => exact h now hstart
  | cons m ms ih =>
    have harrived : start ≤ m.clock.arrived := htimely.le (by simp [Incoming.readings_cons])
    obtain ⟨hretention, hagree⟩ := agree_logged h harrived htimely.arrived_le_completed
    rw [← hretention] at hagree ⊢
    rw [journal, List.append_assoc]
    exact ih hagree htimely.tail (hnow _ (by simp [Incoming.readings_cons]))
      fun t ht => hnow t (by simp [Incoming.readings_cons, ht])

/-- An earlier call of the run with the given key was executed, and it was completed no longer than
60 seconds before `now`. -/
def RecentlyExecuted (s : Server σ) (ms : List Incoming) (key : CallKey) (now : Time) : Prop :=
  ∃ before m later, ms = before ++ m :: later ∧ (s.after before).Executes m key ∧
    now.nanoseconds - 60 * 1000000000 ≤ m.clock.completed.nanoseconds

/-- What the journal of a run still remembers of a call. -/
theorem mem_expire_journal_iff {s : Server σ} {ms : List Incoming} {key : CallKey} {now : Time}
    (hearliest : ∀ t ∈ Incoming.readings ms, Time.earliest ≤ t) :
    (∃ state, (key, state) ∈ (CallLog.expire ⟨retention, s.journal ms⟩ now).calls) ↔
      s.RecentlyExecuted ms key now := by
  constructor
  · rintro ⟨state, hstate⟩
    obtain ⟨before, m, later, rfl, hexec, rfl⟩ :=
      mem_journal_iff.1 (CallLog.mem_of_mem_expire hstate)
    have hfinish : Time.earliest ≤ m.clock.completed :=
      hearliest _ (by simp [Incoming.readings_append, Incoming.readings_cons])
    exact ⟨before, m, later, rfl, hexec, ((CallLog.mem_expire_completed_iff hfinish).1 hstate).2⟩
  · rintro ⟨before, m, later, rfl, hexec, hrecent⟩
    have hfinish : Time.earliest ≤ m.clock.completed :=
      hearliest _ (by simp [Incoming.readings_append, Incoming.readings_cons])
    exact ⟨_, (CallLog.mem_expire_completed_iff hfinish).2
      ⟨mem_journal_iff.2 ⟨before, m, later, rfl, hexec, rfl⟩, hrecent⟩⟩

/-- A call is taken for a repetition exactly when the same call was executed a short time ago. -/
theorem take_silent_iff {config : ServerConfig} {backend : Backend σ} {before : List Incoming}
    {m : Incoming} {key : CallKey} (hadmitted : admitted? config.policy m = some key)
    (htimely : Incoming.Timely (before ++ [m])) :
    (((start config backend).after before).take m).1 = .silent ↔
      (start config backend).RecentlyExecuted before key m.clock.arrived := by
  have hpolicy : admitted? ((start config backend).after before).config.policy m = some key := by
    rwa [config_after]
  have harrived : m.clock.arrived ∈ Incoming.readings [m] := by simp [Incoming.readings_cons]
  have hlog : ((start config backend).after before).calls.expire m.clock.arrived =
      CallLog.expire ⟨retention, (start config backend).journal before ++ []⟩ m.clock.arrived :=
    agree_journal (fun _ _ => rfl) htimely.left (htimely.right.le harrived)
      fun t ht => htimely.le_of_mem_append ht harrived
  rw [← mem_expire_journal_iff fun t ht => htimely.left.le ht,
    ← List.append_nil ((start config backend).journal before), ← hlog,
    ← CallLog.state?_isSome_iff, ← CallLog.arrive_fst]
  rcases hrepeated : (((start config backend).after before).calls.arrive m.clock.arrived key).1
    with _ | _
  · exact iff_of_false (take_of_first hpolicy hrepeated).1 Bool.false_ne_true
  · rw [take_of_repeated hpolicy hrepeated]
    exact iff_of_true rfl rfl

/-- A call that is let in is dropped without a reply exactly when an earlier call with the same key
was executed and completed no more than 60 seconds before.  Such a repetition leaves store, handles
and mount events as they were, and every other message of the run has the same outcome as without
it. -/
theorem silent_iff_and_invisible (config : ServerConfig) (backend : Backend σ)
    (before later : List Incoming) (m : Incoming) (key : CallKey)
    (hadmitted : admitted? config.policy m = some key)
    (htimely : Incoming.Timely (before ++ m :: later)) :
    let s := start config backend
    (((s.after before).take m).1 = .silent ↔ s.RecentlyExecuted before key m.clock.arrived) ∧
      (s.RecentlyExecuted before key m.clock.arrived →
        ((s.after before).take m).2.backend = (s.after before).backend ∧
        s.outcomes (before ++ later) = s.outcomes before ++ (s.after before).outcomes later ∧
        s.outcomes (before ++ m :: later) =
          s.outcomes before ++ .silent :: (s.after before).outcomes later ∧
        (s.after (before ++ m :: later)).backend = (s.after (before ++ later)).backend) := by
  intro s
  have hsplit : before ++ m :: later = before ++ [m] ++ later := by simp
  have hprior : Incoming.Timely (before ++ [m]) := by
    rw [hsplit] at htimely
    exact htimely.left
  have hiff : ((s.after before).take m).1 = .silent ↔
      s.RecentlyExecuted before key m.clock.arrived := take_silent_iff hadmitted hprior
  refine ⟨hiff, fun hrecent => ?_⟩
  have hsilent := hiff.2 hrecent
  have hpolicy : admitted? (s.after before).config.policy m = some key := by rwa [config_after]
  have htake : (s.after before).take m = (.silent,
      { s.after before with calls := (s.after before).calls.expire m.clock.arrived }) := by
    rcases hrepeated : ((s.after before).calls.arrive m.clock.arrived key).1 with _ | _
    · exact absurd hsilent (take_of_first hpolicy hrepeated).1
    · exact take_of_repeated hpolicy hrepeated
  have halike : Alike m.clock.arrived ((s.after before).take m).2 (s.after before) := by
    rw [htake]
    exact ⟨rfl, rfl, CallLog.agree_expire _ _⟩
  obtain ⟨houtcomes, hbackend⟩ := halike.run htimely.right.tail_arrived
  refine ⟨halike.backend, s.outcomes_append before later, ?_, ?_⟩
  · rw [outcomes_append, outcomes, houtcomes, htake]
  · rw [after_append, after_append, after, hbackend]

/-- A call to the null procedure that is repeated after exactly 60 seconds is dropped, and another
call behind it gets the reply that it gets without the repetition. -/
theorem silent_iff_and_invisible_null :
    let call (seconds : Int) (xid : UInt32) :=
      Call.sentAt (.ofParts seconds 0) ⟨xid, .nfs .null, ()⟩
    let config : ServerConfig := ⟨.known, ['/'], Bytes.zeros 8⟩
    let backend : Backend Memory := ⟨.empty ⟨0⟩ false 100, .cached (.empty 4), []⟩
    let s := start config backend
    admitted? config.policy (call 60 7) = some ⟨7, "host"⟩ ∧
      Incoming.Timely ([call 0 7] ++ call 60 7 :: [call 61 8]) ∧
      ((s.after [call 0 7]).take (call 60 7)).1 = .silent ∧
      s.outcomes ([call 0 7] ++ call 60 7 :: [call 61 8]) =
        s.outcomes [call 0 7] ++ .silent :: (s.after [call 0 7]).outcomes [call 61 8] := by
  intro call config backend s
  have hadmitted : admitted? config.policy (call 60 7) = some ⟨7, "host"⟩ := by decide
  have htimely : Incoming.Timely ([call 0 7] ++ call 60 7 :: [call 61 8]) := by
    unfold Incoming.Timely Incoming.TimelyFrom
    decide
  have hrecent : s.RecentlyExecuted [call 0 7] ⟨7, "host"⟩ (call 60 7).clock.arrived :=
    ⟨[], call 0 7, [], rfl, ⟨by decide, by decide⟩, by decide⟩
  obtain ⟨hiff, hinvisible⟩ := silent_iff_and_invisible config backend [call 0 7] [call 61 8]
    (call 60 7) ⟨7, "host"⟩ hadmitted htimely
  exact ⟨hadmitted, htimely, hiff.2 hrecent, (hinvisible hrecent).2.2.1⟩

end Server

end NfsServer
