import NfsServer.Nfs.Conversion
import NfsServer.Proofs.Handle.Stable

/-!
# What programs leave as it was

Two backends are the `Same` when nothing tells them apart but the order in which handles were last
used.  `Program.Ends` says with which value a program ends and what it leaves.  A program `Spares`
what it works on in certain cases: when it ends with a value of a certain kind, such as a failure,
it leaves the same backend.  The rules below follow a program up to its first change; if the change
fails nothing has happened yet, and if it succeeds so must the program.  Of the requests that
procedures share, those that only look leave no trace, and those that change objects at their places
keep the handles of all objects (`Nfs.stable_attempt`).
-/

namespace NfsServer

namespace Backend

variable {b b' b'' : Backend Memory}

/-- Store, mount events and live handles are as before. -/
structure Same (b b' : Backend Memory) : Prop where
  store : b'.store = b.store
  events : b'.events = b.events
  mem_bindings : ∀ x, x ∈ b'.handles.bindings ↔ x ∈ b.handles.bindings
  wellFormed : b.handles.WellFormed → b'.handles.WellFormed

theorem Same.refl (b : Backend Memory) : b.Same b := ⟨rfl, rfl, fun _ => Iff.rfl, id⟩

theorem Same.trans (h : b.Same b') (h' : b'.Same b'') : b.Same b'' where
  store := h'.store.trans h.store
  events := h'.events.trans h.events
  mem_bindings := fun x => (h'.mem_bindings x).trans (h.mem_bindings x)
  wellFormed := fun hb => h'.wellFormed (h.wellFormed hb)

/-- What is left when it has been asked what a handle stands for. -/
def resolved (b : Backend Memory) (h : FileHandle) : Backend Memory :=
  { b with handles := (b.handles.resolve h).2 }

theorem same_resolved (hb : b.handles.WellFormed) (h : FileHandle) : b.Same (b.resolved h) := by
  obtain ⟨hwell, -, hmem⟩ := hb.resolve h
  exact ⟨rfl, rfl, hmem, fun _ => hwell⟩

end Backend

namespace Program

variable {α β : Type} {now : Time} {b : Backend Memory}

/-- The program ends as `post` says. -/
def Ends (now : Time) (p : Program α) (b : Backend Memory)
    (post : α → Backend Memory → Prop) : Prop :=
  post (p.run now b).1 (p.run now b).2

theorem ends_pure {a : α} {post : α → Backend Memory → Prop} (h : post a b) :
    (pure a : Program α).Ends now b post := h

theorem Ends.mono {p : Program α} {post post' : α → Backend Memory → Prop}
    (h : p.Ends now b post) (himp : ∀ a b', post a b' → post' a b') : p.Ends now b post' :=
  himp _ _ h

theorem Ends.bind {p : Program α} {k : α → Program β} {mid : α → Backend Memory → Prop}
    {post : β → Backend Memory → Prop} (hp : p.Ends now b mid)
    (hk : ∀ a b', mid a b' → (k a).Ends now b' post) : (p >>= k).Ends now b post := by
  unfold Ends
  rw [run_bind]
  exact hk _ _ hp

/-- A program that begins with one of which nothing is known. -/
theorem ends_run_then {p : Program α} {k : α → Program β} {post : β → Backend Memory → Prop}
    (hk : ∀ a b', p.run now b = (a, b') → (k a).Ends now b' post) : (p >>= k).Ends now b post := by
  unfold Ends
  rw [run_bind]
  exact hk _ _ rfl

/-- Whatever else is known of the end, no handle comes to stand for something else. -/
theorem Ends.and_later {p : Program α} {post : α → Backend Memory → Prop} (h : p.Ends now b post)
    (hb : b.handles.WellFormed) :
    p.Ends now b fun a b' => post a b' ∧ b.handles.Later b'.handles :=
  ⟨h, (p.handles_run now b hb).2⟩

/-- A program that begins with a look at the store. -/
theorem ends_query_then {p : Program α} {k : α → Program β} {post : β → Backend Memory → Prop}
    (hp : p.Asks Request.IsQuery) (hk : ∀ a, a = (p.run now b).1 → (k a).Ends now b post) :
    (p >>= k).Ends now b post := by
  unfold Ends
  rw [run_bind_of_asks_isQuery hp]
  exact hk _ rfl

theorem Ends.responding {p : Program α} {post : Response α → Backend Memory → Prop}
    (h : p.Ends now b fun a => post (.results a)) : p.responding.Ends now b post := by
  unfold Ends
  rw [run_responding]
  exact h

/-- A program that only looks ends with the same backend. -/
theorem Asks.ends_same {p : Program α} (hp : p.Asks Request.IsLook) (hb : b.handles.WellFormed) :
    p.Ends now b fun _ b' => b.Same b' := by
  induction p generalizing b with
  | done a => exact .refl b
  | ask r next ih =>
    have hstep : b.Same (b.perform now r).2 := by
      cases r with
      | store r =>
        exact ⟨Memory.perform_of_isQuery hp.1, rfl, fun _ => Iff.rfl, id⟩
      | resolve h => exact Backend.same_resolved hb h
      | issue p => exact hp.1.elim
      | forgetPath p => exact hp.1.elim
      | announce e => exact hp.1.elim
    exact hstep.trans (ih (b.perform now r).1 (hp.2 _) (hstep.wellFormed hb))

/-- A program that begins with the path of a handle. -/
theorem ends_resolve_then (hb : b.handles.WellFormed) {h : FileHandle}
    {k : Except Nfs.NfsError Path → Program β} {post : β → Backend Memory → Prop}
    (hk : ∀ r b', r = (b.handles.resolve h).1 → b.Same b' → (k r).Ends now b' post) :
    (resolve h >>= k).Ends now b post := by
  unfold Ends
  rw [run_bind]
  exact hk _ _ rfl (Backend.same_resolved hb h)

/-- A program that begins with the handle of a path. -/
theorem ends_issue_then (hb : b.handles.WellFormed) {path : Path} {k : FileHandle → Program β}
    {post : β → Backend Memory → Prop}
    (hk : ∀ h b', b'.handles.WellFormed → b'.handles.HasIssued h → (k h).Ends now b' post) :
    (issue path >>= k).Ends now b post := by
  unfold Ends
  rw [run_bind]
  exact hk _ _ (hb.issue path).1 (hb.hasIssued_issue path)

/-! ## Sparing -/

variable {F : β → Prop}

/-- The program does not end with a value of which `F` holds. -/
def Avoids (F : β → Prop) (now : Time) (p : Program β) (b : Backend Memory) : Prop :=
  ¬F (p.run now b).1

theorem avoids_bind_pure {p : Program α} {k : α → β} (h : ∀ a, ¬F (k a)) :
    (p >>= fun a => pure (k a)).Avoids F now b := by
  unfold Avoids
  rw [run_bind]
  exact h _

/-- When the program ends with a value of which `F` holds, it leaves everything as it was. -/
def Spares (F : β → Prop) (now : Time) (p : Program β) (b : Backend Memory) : Prop :=
  p.Ends now b fun a b' => F a → b.Same b'

theorem spares_pure (a : β) : (pure a : Program β).Spares F now b := fun _ => .refl b

theorem Spares.mono {F' : β → Prop} {p : Program β} (h : p.Spares F now b)
    (himp : ∀ a, F' a → F a) : p.Spares F' now b :=
  fun hF => h (himp _ hF)

theorem Spares.responding {p : Program β} {F : Response β → Prop}
    (h : p.Spares (fun a => F (.results a)) now b) : p.responding.Spares F now b :=
  Ends.responding h

theorem Asks.spares {p : Program β} (hp : p.Asks Request.IsLook) (hb : b.handles.WellFormed) :
    p.Spares F now b :=
  (hp.ends_same hb).mono fun _ _ hsame _ => hsame

theorem spares_query_then {p : Program α} {k : α → Program β} (hp : p.Asks Request.IsQuery)
    (hk : ∀ a, (k a).Spares F now b) : (p >>= k).Spares F now b :=
  ends_query_then hp fun a _ => hk a

theorem spares_resolve_then (hb : b.handles.WellFormed) {h : FileHandle}
    {k : Except Nfs.NfsError Path → Program β}
    (hk : ∀ r b', b.Same b' → (k r).Spares F now b') : (resolve h >>= k).Spares F now b :=
  ends_resolve_then hb fun r b' _ hsame =>
    Ends.mono (hk r b' hsame) fun _ _ hspared hF => hsame.trans (hspared hF)

/-- A program whose first part fails without a trace, and that succeeds if the first part does. -/
theorem Spares.bind {G : α → Prop} {p : Program α} {k : α → Program β} (hp : p.Spares G now b)
    (hfailed : ∀ a b', G a → b.Same b' → (k a).Spares F now b')
    (hsucceeded : ∀ a b', ¬G a → (k a).Avoids F now b') :
    (p >>= k).Spares F now b := by
  unfold Spares Ends at hp ⊢
  rw [run_bind]
  intro hF
  by_cases hG : G (p.run now b).1
  · exact (hp hG).trans (hfailed _ _ hG (hp hG) hF)
  · exact absurd hF (hsucceeded _ _ hG)

theorem spares_attempt {r : StoreRequest (Except StoreError α)} (hr : r.IsAtomic) :
    (Nfs.attempt r).Spares (fun a => ∃ e, a = .error e) now b := by
  rintro ⟨e, herror⟩
  have hanswer : Nfs.report (Memory.perform now r b.store).1 = .error e := herror
  cases hfailed : (Memory.perform now r b.store).1 with
  | error e' => exact ⟨hr now b.store e' hfailed, rfl, fun _ => Iff.rfl, id⟩
  | ok a =>
    rw [hfailed] at hanswer
    cases hanswer

end Program

/-! ## Asking the store -/

namespace Nfs

variable {α : Type} {now : Time} {b : Backend Memory}

theorem report_eq_ok {x : Except StoreError α} {a : α} (h : report x = .ok a) : x = .ok a := by
  cases x with
  | error e => cases h
  | ok a' => rw [Except.ok.inj h]

theorem asks_attempt {P : ∀ {β : Type}, Request β → Prop}
    {r : StoreRequest (Except StoreError α)} (h : P (.store r)) : (attempt r).Asks P :=
  (Program.asks_request h).bind fun _ => Program.asks_pure _

theorem asks_isReadOnly : isReadOnly.Asks Request.IsQuery := ⟨trivial, fun _ => trivial⟩

theorem asks_attributesOf? (p : Path) : (attributesOf? p).Asks Request.IsQuery := by
  apply Program.Asks.bind (asks_attempt (by trivial))
  intro r
  cases r <;> exact Program.asks_pure _

theorem asks_wccOf? (p : Path) : (wccOf? p).Asks Request.IsQuery := by
  apply Program.Asks.bind (asks_attempt (by trivial))
  intro r
  cases r <;> exact Program.asks_pure _

/-- An object whose attributes can be had is there. -/
theorem stable_stat (hb : b.Sound) (p : Path) :
    (attempt (.stat p)).Stable now b fun a b' => b' = b ∧
      ∀ m, a = .ok m → b.store.stat p.location = .ok m :=
  (Program.stable_of_asks_isQuery hb (asks_attempt (by trivial))).mono
    fun _ _ h => ⟨h.1, fun _ hm => report_eq_ok (h.2.symm.trans hm)⟩

/-- A request that vacates no place keeps the handles of all objects. -/
theorem stable_attempt (hb : b.Sound) {r : StoreRequest (Except StoreError α)}
    (hr : r.vacated = []) :
    (attempt r).Stable now b fun a b' => a = report (Memory.perform now r b.store).1 ∧
      b'.store = (Memory.perform now r b.store).2 :=
  (Program.stable_store hb hr).bind hb fun _ _ hb' h =>
    Program.stable_pure hb' ⟨congrArg report h.1, h.2⟩

end Nfs

end NfsServer
