import Mathlib.Data.Set.Insert
import NfsServer.Proofs.Handle.Stable

/-!
# Interleaved programs

A `Pool` holds programs that work on one backend at the same time.  At each `Turn` one of them makes
its next request, so that a sequence of turns is one interleaving of their steps; `Pool.run` gives
the events of a run and what is left of the pool.

A run can take a bad turn in one way (`Raced`): a program sees an object, another program takes the
object away, and then the first one asks for the handle of the place.  In a run of programs that
keep to one of two disciplines nothing else makes a handle outlive its object
(`Pool.invariant_run`): either a program takes nothing away and asks for handles only where it has
seen objects (`Program.Looks`), or it asks for no handles and forgets those of the places that it
vacates (`Program.CleansUp`).
-/

namespace NfsServer

/-! ## Runs -/

/-- A program on its way: what is left of it. -/
structure Process where
  {Result : Type}
  rest : Program Result

/-- Whether nothing is left to do. -/
def Process.isDone (q : Process) : Bool :=
  match q.rest with
  | .done _ => true
  | .ask _ _ => false

/-- The path of which a request wants the handle. -/
def Request.issued? {α : Type} : Request α → Option Path
  | .issue p => some p
  | _ => none

/-- One step of a process. -/
structure Event where
  process : Nat
  before : Backend Memory
  after : Backend Memory
  /-- The path whose handle has been issued, if the step has issued one. -/
  issued : Option Path

/-- The process that goes on, and the time at which it does. -/
structure Turn where
  process : Nat
  now : Time
  deriving DecidableEq, Repr

/-- Programs that work on the same backend. -/
structure Pool where
  processes : List Process
  backend : Backend Memory

namespace Pool

/-- What happens when the process whose turn it is makes a request. -/
def event {α : Type} (s : Pool) (t : Turn) (r : Request α) : Event :=
  ⟨t.process, s.backend, (s.backend.perform t.now r).2, r.issued?⟩

/-- What is left when the process whose turn it is has made a request. -/
def advance {α β : Type} (s : Pool) (t : Turn) (r : Request α) (next : α → Program β) : Pool :=
  let (a, backend) := s.backend.perform t.now r
  ⟨s.processes.set t.process ⟨next a⟩, backend⟩

/-- The step of the process whose turn it is, unless there is nothing left for it to do. -/
def step (s : Pool) (t : Turn) : Option (Event × Pool) :=
  match s.processes[t.process]? with
  | some ⟨.ask r next⟩ => some (s.event t r, s.advance t r next)
  | _ => none

/-- The events of a run, and what is left. -/
def run (s : Pool) : List Turn → List Event × Pool
  | [] => ([], s)
  | t :: turns =>
    match s.step t with
    | none => s.run turns
    | some (e, s) =>
      let (events, s) := s.run turns
      (e :: events, s)

/-- Whether all programs have been completed. -/
def isDone (s : Pool) : Bool := s.processes.all Process.isDone

theorem step_eq_some {s s' : Pool} {t : Turn} {e : Event} (h : s.step t = some (e, s')) :
    ∃ (α β : Type) (r : Request α) (next : α → Program β),
      s.processes[t.process]? = some ⟨.ask r next⟩ ∧ e = s.event t r ∧ s' = s.advance t r next := by
  unfold step at h
  split at h
  · next α β r next hprocess =>
    obtain ⟨rfl, rfl⟩ := Prod.mk.inj (Option.some.inj h)
    exact ⟨_, _, r, next, hprocess, rfl, rfl⟩
  · cases h

/-- What every step keeps, a run keeps. -/
theorem run_induction {I : List Event → Pool → Prop}
    (hstep : ∀ {events s t e s'}, I events s → s.step t = some (e, s') → I (events ++ [e]) s')
    {events : List Event} {s : Pool} (h : I events s) (turns : List Turn) :
    I (events ++ (s.run turns).1) (s.run turns).2 := by
  induction turns generalizing events s with
  | nil =>
    rw [run, List.append_nil]
    exact h
  | cons t turns ih =>
    rw [run]
    split
    · exact ih h
    · next e s' hs =>
      rw [List.append_cons]
      exact ih (hstep h hs)

/-- A program that is on its own ends as it does without interruption. -/
theorem exists_run_alone {α : Type} (p : Program α) (now : Time) (b : Backend Memory) :
    ∃ n, (run ⟨[⟨p⟩], b⟩ (List.replicate n ⟨0, now⟩)).2 =
      ⟨[⟨.done (p.run now b).1⟩], (p.run now b).2⟩ := by
  induction p generalizing b with
  | done a => exact ⟨0, rfl⟩
  | ask r next ih =>
    obtain ⟨n, hn⟩ := ih (b.perform now r).1 (b.perform now r).2
    exact ⟨n + 1, hn⟩

end Pool

/-! ## Races -/

/-- The places at which there are objects. -/
def Memory.places (m : Memory) : Set Location := {l | ∃ f, m.idAt l = some f}

/-- An object that is at the place when one process makes a step is taken away by another one. -/
structure Loss (l : Location) (look vacate : Event) : Prop where
  seen : l ∈ look.after.store.places
  other : vacate.process ≠ look.process
  before : l ∈ vacate.before.store.places
  after : l ∉ vacate.after.store.places

/-- One process has made a step while there was an object at the place; then another one has taken
the object away; and then the first one has asked for the handle of the place, although there was
nothing. -/
def Raced (events : List Event) (l : Location) : Prop :=
  ∃ look vacate issue, [look, vacate, issue].Sublist events ∧ Loss l look vacate ∧
    issue.process = look.process ∧ l ∉ issue.before.store.places ∧
    issue.issued.map Path.location = some l

theorem Raced.exists_issue {events : List Event} {l : Location} (h : Raced events l) :
    ∃ e ∈ events, l ∉ e.before.store.places ∧ e.issued.map Path.location = some l := by
  obtain ⟨look, vacate, issue, hsublist, -, -, hgone, hissued⟩ := h
  exact ⟨issue, hsublist.subset (by simp), hgone, hissued⟩

theorem Raced.append {events : List Event} {l : Location} (h : Raced events l)
    (later : List Event) : Raced (events ++ later) l := by
  obtain ⟨look, vacate, issue, hsublist, h⟩ := h
  exact ⟨look, vacate, issue, hsublist.trans (List.sublist_append_left events later), h⟩

/-! ## Two disciplines -/

/-- The places from which a request may take objects away. -/
def Request.vacated {α : Type} : Request α → List Location
  | .store r => r.vacated
  | _ => []

/-- The request makes the handles of the place stale. -/
def Request.Forgets {α : Type} (r : Request α) (l : Location) : Prop :=
  match r with
  | .forgetPath p => p.location <+: l
  | _ => False

namespace Program

variable {α β : Type}

/-- Whatever its requests are answered, the program takes nothing away, and asks for handles only of
places where it has seen objects; it ends as `post` says of its value and of the places that it has
seen.  With each request the program sees all objects that there are then. -/
def Looks (post : α → Set Location → Prop) : Program α → Set Location → Prop
  | done a, seen => post a seen
  | ask r next, seen =>
    r.vacated = [] ∧ (∀ p, r.issued? = some p → p.location ∈ seen) ∧
      ∀ (now : Time) (b : Backend Memory),
        (next (b.perform now r).1).Looks post (seen ∪ (b.perform now r).2.store.places)

/-- Whatever its requests are answered, the program makes the handles of the place stale. -/
def WillForget (l : Location) : Program α → Prop
  | done _ => False
  | ask r next => r.Forgets l ∨ ∀ (now : Time) (b : Backend Memory),
      (next (b.perform now r).1).WillForget l

/-- Whatever its requests are answered, the program asks for no handles, and behind a request that
takes objects away it makes the handles of their places stale. -/
def CleansUp : Program α → Prop
  | done _ => True
  | ask r next => r.issued? = none ∧ ∀ (now : Time) (b : Backend Memory),
      (next (b.perform now r).1).CleansUp ∧
        ((b.perform now r).2.store ≠ b.store →
          ∀ l ∈ r.vacated, (next (b.perform now r).1).WillForget l)

/-- The program keeps to one of the two disciplines, having seen objects at certain places. -/
def IsOrderly (seen : Set Location) (p : Program α) : Prop :=
  p.Looks (fun _ _ => True) seen ∨ p.CleansUp

theorem Looks.mono {post post' : α → Set Location → Prop} {p : Program α}
    {seen seen' : Set Location} (h : p.Looks post seen) (hseen : seen ⊆ seen')
    (hpost : ∀ a s s', s ⊆ s' → post a s → post' a s') : p.Looks post' seen' := by
  induction p generalizing seen seen' with
  | done a => exact hpost a seen seen' hseen h
  | ask r next ih =>
    obtain ⟨hvacated, hissued, hnext⟩ := h
    refine ⟨hvacated, fun p hp => hseen (hissued p hp), fun now b => ?_⟩
    exact ih _ (hnext now b) (Set.union_subset_union_left _ hseen)

theorem IsOrderly.mono {p : Program α} {seen seen' : Set Location} (h : p.IsOrderly seen)
    (hseen : seen ⊆ seen') : p.IsOrderly seen' :=
  h.imp_left fun hlooks => hlooks.mono hseen fun _ _ _ _ _ => trivial

theorem WillForget.of_isPrefix {l l' : Location} {p : Program α} (h : p.WillForget l)
    (hl : l <+: l') : p.WillForget l' := by
  induction p with
  | done a => exact h
  | ask r next ih =>
    refine h.imp (fun hforgets => ?_) fun hnext now b => ih _ (hnext now b)
    cases r with
    | forgetPath p => exact List.IsPrefix.trans hforgets hl
    | store r => exact hforgets
    | issue p => exact hforgets
    | resolve h => exact hforgets
    | announce e => exact hforgets

end Program

/-! ## Steps -/

namespace Backend

variable {α : Type} {b : Backend Memory} {now : Time} {r : Request α}

/-- A binding that there is behind a request has been there before and has not been forgotten, or it
is one for which a handle was wanted. -/
theorem of_mem_bindings_perform (h : b.handles.WellFormed) {x : Binding}
    (hx : x ∈ (b.perform now r).2.handles.bindings) :
    (x ∈ b.handles.bindings ∧ ¬r.Forgets x.path.location) ∨ r.issued? = some x.path := by
  cases r with
  | store r => exact Or.inl ⟨hx, id⟩
  | announce e => exact Or.inl ⟨hx, id⟩
  | forgetPath p => exact Or.inl ((h.forgetPath p).2.2 x hx)
  | resolve handle => exact Or.inl ⟨((h.resolve handle).2.2 x).1 hx, id⟩
  | issue p =>
    refine ((h.issue p).2.2 x hx).imp (fun hmem => ⟨hmem, id⟩) fun hpath => ?_
    exact congrArg some hpath.symm

/-- An object keeps its place unless the request takes it away and changes the store. -/
theorem mem_places_perform {l : Location} (hl : l ∈ b.store.places)
    (hgone : l ∉ (b.perform now r).2.store.places) :
    (b.perform now r).2.store ≠ b.store ∧ ∃ k ∈ r.vacated, k <+: l := by
  constructor
  · intro heq
    rw [heq] at hgone
    exact hgone hl
  · cases r with
    | store r =>
      by_contra hoff
      obtain ⟨f, hf⟩ := hl
      exact hgone ⟨f, Memory.perform_keeps now r b.store l f
        (fun k hk hprefix => hoff ⟨k, hk, hprefix⟩) hf⟩
    | issue p => exact absurd hl hgone
    | resolve handle => exact absurd hl hgone
    | forgetPath p => exact absurd hl hgone
    | announce e => exact absurd hl hgone

theorem store_perform_of_issued {p : Path} (hp : r.issued? = some p) :
    (b.perform now r).2.store = b.store := by
  cases r with
  | issue p => rfl
  | store r => cases hp
  | resolve handle => cases hp
  | forgetPath p => cases hp
  | announce e => cases hp

theorem places_subset_perform (hvacated : r.vacated = []) :
    b.store.places ⊆ (b.perform now r).2.store.places := by
  intro l hl
  by_contra hgone
  obtain ⟨-, k, hk, -⟩ := mem_places_perform hl hgone
  rw [hvacated] at hk
  cases hk

end Backend

namespace Pool

theorem handles_step {s s' : Pool} {t : Turn} {e : Event} (h : s.backend.handles.WellFormed)
    (hs : s.step t = some (e, s')) :
    s'.backend.handles.WellFormed ∧ s.backend.handles.Later s'.backend.handles := by
  obtain ⟨α, β, r, next, -, -, rfl⟩ := step_eq_some hs
  exact Program.handles_perform t.now r h

/-- However the programs take turns, no handle comes to stand for something else. -/
theorem handles_run {s : Pool} (h : s.backend.handles.WellFormed) (turns : List Turn) :
    (s.run turns).2.backend.handles.WellFormed ∧
      s.backend.handles.Later (s.run turns).2.backend.handles := by
  induction turns generalizing s with
  | nil => exact ⟨h, .refl _⟩
  | cons t turns ih =>
    rw [run]
    split
    · exact ih h
    · next e s' hs =>
      obtain ⟨hwell, hlater⟩ := handles_step h hs
      obtain ⟨hwell', hlater'⟩ := ih hwell
      exact ⟨hwell', hlater.trans hlater'⟩

/-- The places where a process has seen objects that are still there or have been taken away by
other processes. -/
def seenBy (events : List Event) (b : Backend Memory) (i : Nat) : Set Location :=
  {l | ∃ look ∈ events, look.process = i ∧ l ∈ look.after.store.places ∧
    (l ∈ b.store.places ∨ ∃ vacate, [look, vacate].Sublist events ∧ Loss l look vacate)}

/-- A live handle of the place is accounted for: it has an object, or it will be forgotten, or there
has been a race. -/
def Accounts (s : Pool) (events : List Event) (l : Location) : Prop :=
  l ∈ s.backend.store.places ∨ (∃ q ∈ s.processes, q.rest.WillForget l) ∨ Raced events l

/-- What steps of orderly programs keep. -/
structure Invariant (events : List Event) (s : Pool) : Prop where
  wellFormed : s.backend.handles.WellFormed
  isOrderly : ∀ i (q : Process), s.processes[i]? = some q →
    q.rest.IsOrderly (seenBy events s.backend i)
  accounts : ∀ x ∈ s.backend.handles.bindings, s.Accounts events x.path.location
  /-- A handle is issued for an object, or there has been a race. -/
  issued : ∀ e ∈ events, ∀ p, e.issued = some p →
    p.location ∈ e.before.store.places ∨ Raced events p.location

variable {events : List Event} {s s' : Pool} {t : Turn} {e : Event}

/-- What a process has seen it goes on having seen, as long as its own steps take nothing away. -/
theorem seenBy_subset {i : Nat}
    (hown : e.process = i → e.before.store.places ⊆ e.after.store.places) :
    seenBy events e.before i ⊆ seenBy (events ++ [e]) e.after i := by
  rintro l ⟨look, hlook, hi, hl, hstill⟩
  refine ⟨look, List.mem_append_left _ hlook, hi, hl, ?_⟩
  rcases hstill with hthere | ⟨vacate, hsublist, hloss⟩
  · by_cases hgone : l ∈ e.after.store.places
    · exact Or.inl hgone
    · have hother : e.process ≠ look.process := fun heq => hgone (hown (heq.trans hi) hthere)
      have hsublist : [look, e].Sublist (events ++ [e]) :=
        (List.singleton_sublist.2 hlook).append (List.Sublist.refl [e])
      exact Or.inr ⟨e, hsublist, hl, hother, hthere, hgone⟩
  · exact Or.inr ⟨vacate, hsublist.trans (List.sublist_append_left events [e]), hloss⟩

/-- With a step a process sees all objects that there are then. -/
theorem places_subset_seenBy (events : List Event) (e : Event) :
    e.after.store.places ⊆ seenBy (events ++ [e]) e.after e.process :=
  fun _ hl => ⟨e, List.mem_append_right _ (List.mem_singleton.2 rfl), rfl, hl, Or.inl hl⟩

/-- A handle that is asked for without there being an object tells of a race. -/
theorem raced_of_seenBy {l : Location} (hseen : l ∈ seenBy events e.before e.process)
    (hgone : l ∉ e.before.store.places) (hissued : e.issued.map Path.location = some l) :
    Raced (events ++ [e]) l := by
  obtain ⟨look, -, hprocess, -, hthere | ⟨vacate, hsublist, hloss⟩⟩ := hseen
  · exact absurd hthere hgone
  · exact ⟨look, vacate, e, hsublist.append (List.Sublist.refl [e]), hloss, hprocess.symm, hgone,
      hissued⟩

section Step

variable {α β : Type} {r : Request α} {next : α → Program β}

theorem getElem?_advance {j : Nat} {q : Process}
    (h : (s.advance t r next).processes[j]? = some q) :
    (t.process = j ∧ q = ⟨next (s.backend.perform t.now r).1⟩) ∨
      (t.process ≠ j ∧ s.processes[j]? = some q) := by
  change (s.processes.set t.process ⟨next (s.backend.perform t.now r).1⟩)[j]? = some q at h
  by_cases hj : t.process = j
  · subst hj
    rw [List.getElem?_set_self'] at h
    obtain ⟨_, -, rfl⟩ := Option.map_eq_some_iff.1 h
    exact Or.inl ⟨rfl, rfl⟩
  · rw [List.getElem?_set_ne hj] at h
    exact Or.inr ⟨hj, h⟩

variable (hprocess : s.processes[t.process]? = some ⟨.ask r next⟩)

include hprocess

theorem mem_advance :
    ⟨next (s.backend.perform t.now r).1⟩ ∈ (s.advance t r next).processes :=
  List.mem_set (List.getElem?_eq_some_iff.1 hprocess).1 _

/-- What the request has not done, the process will still do, and so will all others. -/
theorem exists_willForget_advance {l : Location} (hforgets : ¬r.Forgets l)
    (h : ∃ q ∈ s.processes, q.rest.WillForget l) :
    ∃ q ∈ (s.advance t r next).processes, q.rest.WillForget l := by
  obtain ⟨q, hq, hwill⟩ := h
  obtain ⟨j, hj⟩ := List.mem_iff_getElem?.1 hq
  by_cases hne : t.process = j
  · subst hne
    obtain rfl := Option.some.inj (hj.symm.trans hprocess)
    exact ⟨_, mem_advance hprocess, (hwill.resolve_left hforgets) t.now s.backend⟩
  · exact ⟨q, List.mem_of_getElem? ((List.getElem?_set_ne hne).trans hj), hwill⟩

variable (h : Invariant events s)

include h

theorem Invariant.isOrderly_advance {j : Nat} {q : Process}
    (hq : (s.advance t r next).processes[j]? = some q) :
    q.rest.IsOrderly (seenBy (events ++ [s.event t r]) (s.advance t r next).backend j) := by
  rcases getElem?_advance hq with ⟨rfl, rfl⟩ | ⟨hne, hq⟩
  · refine (h.isOrderly _ _ hprocess).imp (fun hlooks => ?_) fun hclean =>
      (hclean.2 t.now s.backend).1
    obtain ⟨hvacated, -, hnext⟩ := hlooks
    refine (hnext t.now s.backend).mono (Set.union_subset ?_ ?_) fun _ _ _ _ _ => trivial
    · exact seenBy_subset (e := s.event t r) fun _ => Backend.places_subset_perform hvacated
    · exact places_subset_seenBy events (s.event t r)
  -- Another process keeps to its discipline whatever happens, since it keeps what it has seen.
  · refine (h.isOrderly j q hq).mono ?_
    exact seenBy_subset (e := s.event t r) fun heq => absurd heq hne

/-- A request for a handle finds an object, or there has been a race. -/
theorem Invariant.mem_places_of_issued {p : Path} (hp : r.issued? = some p) :
    p.location ∈ s.backend.store.places ∨ Raced (events ++ [s.event t r]) p.location := by
  by_cases hthere : p.location ∈ s.backend.store.places
  · exact Or.inl hthere
  · rcases h.isOrderly _ _ hprocess with hlooks | hclean
    · exact Or.inr (raced_of_seenBy (hlooks.2.1 p hp) hthere (congrArg (Option.map _) hp))
    · cases hclean.1.symm.trans hp

/-- A request that takes the object of a live handle away is one of a process that cleans up. -/
theorem Invariant.accounts_of_mem_places {l : Location} (hthere : l ∈ s.backend.store.places) :
    (s.advance t r next).Accounts (events ++ [s.event t r]) l := by
  by_cases hgone : l ∈ (s.advance t r next).backend.store.places
  · exact Or.inl hgone
  · obtain ⟨hchanged, k, hk, hprefix⟩ := Backend.mem_places_perform hthere hgone
    rcases h.isOrderly _ _ hprocess with hlooks | hclean
    · rw [hlooks.1] at hk
      cases hk
    · have hwill := ((hclean.2 t.now s.backend).2 hchanged k hk).of_isPrefix hprefix
      exact Or.inr (Or.inl ⟨_, mem_advance hprocess, hwill⟩)

theorem Invariant.accounts_advance {x : Binding}
    (hx : x ∈ (s.advance t r next).backend.handles.bindings) :
    (s.advance t r next).Accounts (events ++ [s.event t r]) x.path.location := by
  rcases Backend.of_mem_bindings_perform h.wellFormed hx with ⟨hmem, hforgets⟩ | hp
  · rcases h.accounts x hmem with hthere | hwill | hraced
    · exact h.accounts_of_mem_places hprocess hthere
    · exact Or.inr (Or.inl (exists_willForget_advance hprocess hforgets hwill))
    · exact Or.inr (Or.inr (hraced.append _))
  · refine (h.mem_places_of_issued hprocess hp).imp (fun hthere => ?_) Or.inr
    change _ ∈ (s.backend.perform t.now r).2.store.places
    rwa [Backend.store_perform_of_issued hp]

end Step

theorem Invariant.step (h : Invariant events s) (hs : s.step t = some (e, s')) :
    Invariant (events ++ [e]) s' := by
  obtain ⟨α, β, r, next, hprocess, rfl, rfl⟩ := step_eq_some hs
  refine ⟨(Program.handles_perform t.now r h.wellFormed).1, fun _ _ => h.isOrderly_advance hprocess,
    fun _ => h.accounts_advance hprocess, fun e he p hp => ?_⟩
  rcases List.mem_append.1 he with he | he
  · exact (h.issued e he p hp).imp_right fun hraced => hraced.append _
  · obtain rfl := List.mem_singleton.1 he
    exact h.mem_places_of_issued hprocess hp

theorem invariant_run (hb : s.backend.Sound) (horderly : ∀ q ∈ s.processes, q.rest.IsOrderly ∅)
    (turns : List Turn) : Invariant (s.run turns).1 (s.run turns).2 := by
  have hstart : Invariant [] s :=
    { wellFormed := hb.handles
      isOrderly := fun i q hq =>
        (horderly q (List.mem_of_getElem? hq)).mono (Set.empty_subset _)
      accounts := fun x hx => Or.inl (hb.idAt x hx)
      issued := fun e he => absurd he List.not_mem_nil }
  exact run_induction Invariant.step hstart turns

/-- When all programs have been completed, every live handle has an object, or there has been a
race. -/
theorem Invariant.bound_of_isDone (h : Invariant events s) (hdone : s.isDone = true) {x : Binding}
    (hx : x ∈ s.backend.handles.bindings) :
    x.path.location ∈ s.backend.store.places ∨ Raced events x.path.location := by
  rcases h.accounts x hx with hthere | ⟨q, hq, hwill⟩ | hraced
  · exact Or.inl hthere
  · obtain ⟨rest⟩ := q
    cases rest with
    | done a => exact hwill.elim
    | ask r next => cases List.all_eq_true.1 hdone _ hq
  · exact Or.inr hraced

theorem Invariant.sound (h : Invariant events s) (hdone : s.isDone = true)
    (hraced : ∀ x ∈ s.backend.handles.bindings, ¬Raced events x.path.location) :
    s.backend.Sound :=
  ⟨h.wellFormed, fun x hx => (h.bound_of_isDone hdone hx).resolve_right (hraced x hx)⟩

end Pool

end NfsServer
