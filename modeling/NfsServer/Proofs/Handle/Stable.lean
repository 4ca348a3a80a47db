import NfsServer.Proofs.Program

/-!
# Handles follow objects

In a sound backend every live handle stands for an object (`Backend.Sound`), and one backend comes
later than another when the handles that are still alive stand for the same objects
(`Backend.Later`).  A program is `Stable` when it keeps both at its end and at each moment in
between at which it deals with a handle.  The rules below build the stability of a program from that
of its parts; what takes objects away from their places has to be seen together with the forgetting
of the handles there (`Backend.Sound.vacate`).
-/

namespace NfsServer

namespace Backend

variable {b b' b'' : Backend Memory}

/-- Every live handle stands for an object that there is. -/
structure Sound (b : Backend Memory) : Prop where
  handles : b.handles.WellFormed
  idAt : ∀ x ∈ b.handles.bindings, ∃ f, b.store.idAt x.path.location = some f

/-- Every handle that is still alive stands for the same object as before. -/
structure Later (b b' : Backend Memory) : Prop where
  handles : b.handles.Later b'.handles
  idAt_eq : ∀ x ∈ b.handles.bindings, x ∈ b'.handles.bindings →
    b'.store.idAt x.path.location = b.store.idAt x.path.location

theorem Later.refl (b : Backend Memory) : b.Later b := ⟨.refl _, fun _ _ _ => rfl⟩

theorem Later.trans (h : b.Later b') (h' : b'.Later b'') (hb : b.Sound) : b.Later b'' where
  handles := h.handles.trans h'.handles
  idAt_eq := fun x hx hx'' => by
    have hissued : b'.handles.HasIssued x.handle := (hb.handles.hasIssued hx).later h.handles
    have hx' : x ∈ b'.handles.bindings := h'.handles.mem_of_mem hx'' hissued
    rw [h'.idAt_eq x hx' hx'', h.idAt_eq x hx hx']

/-- What a change of store and handles must keep. -/
theorem Sound.step (hb : b.Sound) (hwell : b'.handles.WellFormed)
    (hlater : b.handles.Later b'.handles)
    (hkept : ∀ x ∈ b'.handles.bindings, x ∈ b.handles.bindings →
      b'.store.idAt x.path.location = b.store.idAt x.path.location)
    (hnew : ∀ x ∈ b'.handles.bindings, x ∉ b.handles.bindings →
      ∃ f, b'.store.idAt x.path.location = some f) : b'.Sound ∧ b.Later b' := by
  refine ⟨⟨hwell, fun x hx => ?_⟩, hlater, fun x hx hx' => hkept x hx' hx⟩
  by_cases hmem : x ∈ b.handles.bindings
  · rw [hkept x hx hmem]
    exact hb.idAt x hmem
  · exact hnew x hx hmem

/-- A request to the store together with the forgetting of all handles of the places that it
vacates. -/
theorem Sound.vacate (hb : b.Sound) {α : Type} (now : Time) (r : StoreRequest α)
    {handles : HandleTable} (hwell : handles.WellFormed) (hlater : b.handles.Later handles)
    (hmem : ∀ x ∈ handles.bindings, x ∈ b.handles.bindings ∧
      ∀ l ∈ r.vacated, ¬l <+: x.path.location) :
    let b' : Backend Memory := ⟨(Memory.perform now r b.store).2, handles, b.events⟩
    b'.Sound ∧ b.Later b' := by
  refine hb.step hwell hlater (fun x hx _ => ?_) fun x hx hnot => absurd (hmem x hx).1 hnot
  obtain ⟨f, hf⟩ := hb.idAt x (hmem x hx).1
  rw [hf]
  exact Memory.perform_keeps now r b.store x.path.location f (hmem x hx).2 hf

end Backend

namespace Program

variable {α β : Type} {now : Time} {b : Backend Memory}

/-- The program ends as `post` says, and handles follow objects all the way. -/
structure Stable (now : Time) (p : Program α) (b : Backend Memory)
    (post : α → Backend Memory → Prop) : Prop where
  sound : (p.run now b).2.Sound
  later : b.Later (p.run now b).2
  named : ∀ e ∈ p.namings now b, e.backend.Sound ∧ e.backend.Later (p.run now b).2
  post : post (p.run now b).1 (p.run now b).2

/-! ## Rules -/

theorem Stable.mono {p : Program α} {post post' : α → Backend Memory → Prop}
    (h : p.Stable now b post) (himp : ∀ a b', post a b' → post' a b') : p.Stable now b post' :=
  ⟨h.sound, h.later, h.named, himp _ _ h.post⟩

theorem stable_pure (hb : b.Sound) {a : α} {post : α → Backend Memory → Prop} (h : post a b) :
    (pure a : Program α).Stable now b post :=
  ⟨hb, .refl b, fun _ he => absurd he List.not_mem_nil, h⟩

theorem Stable.bind {p : Program α} {k : α → Program β} {mid : α → Backend Memory → Prop}
    {post : β → Backend Memory → Prop} (hb : b.Sound) (hp : p.Stable now b mid)
    (hk : ∀ a b', b'.Sound → mid a b' → (k a).Stable now b' post) :
    (p >>= k).Stable now b post := by
  have hnext := hk _ _ hp.sound hp.post
  constructor
  · rw [run_bind]
    exact hnext.sound
  · rw [run_bind]
    exact hp.later.trans hnext.later hb
  · intro e he
    rw [namings_bind, List.mem_append] at he
    rw [run_bind]
    rcases he with he | he
    · exact ⟨(hp.named e he).1, (hp.named e he).2.trans hnext.later (hp.named e he).1⟩
    · exact hnext.named e he
  · rw [run_bind]
    exact hnext.post

theorem stable_of_asks_isQuery (hb : b.Sound) {p : Program α} (hp : p.Asks Request.IsQuery) :
    p.Stable now b fun a b' => b' = b ∧ a = (p.run now b).1 := by
  obtain ⟨hrun, hnamings⟩ := run_of_asks_isQuery hp now b
  refine ⟨by rwa [hrun], ?_, fun e he => ?_, hrun, rfl⟩
  · rw [hrun]
    exact .refl b
  · rw [hnamings] at he
    cases he

theorem stable_resolve (hb : b.Sound) (h : FileHandle) :
    (resolve h).Stable now b fun _ b' => b'.store = b.store := by
  obtain ⟨hwell, hlater, hmem⟩ := hb.handles.resolve h
  let b' : Backend Memory := { b with handles := (b.handles.resolve h).2 }
  have hstep : b'.Sound ∧ b.Later b' := hb.step hwell hlater (fun _ _ _ => rfl)
    fun x hx hnot => absurd ((hmem x).1 hx) hnot
  refine ⟨hstep.1, hstep.2, fun e he => ?_, rfl⟩
  rw [(mem_namings_request he).2]
  exact ⟨hstep.1, .refl _⟩

theorem stable_issue (hb : b.Sound) {p : Path} {f : Nat}
    (hf : b.store.idAt p.location = some f) :
    (issue p).Stable now b fun _ b' => b'.store = b.store := by
  obtain ⟨hwell, hlater, hmem⟩ := hb.handles.issue p
  let b' : Backend Memory := { b with handles := (b.handles.issue p).2 }
  have hstep : b'.Sound ∧ b.Later b' := hb.step hwell hlater (fun _ _ _ => rfl)
    fun x hx hnot => ⟨f, by rwa [(hmem x hx).resolve_left hnot]⟩
  refine ⟨hstep.1, hstep.2, fun e he => ?_, rfl⟩
  rw [(mem_namings_request he).2]
  exact ⟨hstep.1, .refl _⟩

theorem stable_store (hb : b.Sound) {r : StoreRequest α} (hr : r.vacated = []) :
    (store r).Stable now b fun a b' => a = (Memory.perform now r b.store).1 ∧
      b'.store = (Memory.perform now r b.store).2 := by
  have hstep := hb.vacate now r hb.handles (.refl _) fun x hx =>
    ⟨hx, fun l hl => by rw [hr] at hl; cases hl⟩
  exact ⟨hstep.1, hstep.2, fun e he => (List.not_mem_nil he).elim, rfl, rfl⟩

/-- A program that only looks. -/
theorem Asks.stable {p : Program α} (hp : p.Asks Request.IsLook) (hb : b.Sound) :
    p.Stable now b fun _ _ => True := by
  induction p generalizing b with
  | done a => exact stable_pure hb trivial
  | ask r next ih =>
    have hrequest : (request r).Stable now b fun _ _ => True := by
      cases r with
      | store r =>
        have hquery : (request (.store r)).Asks Request.IsQuery := asks_request hp.1
        exact (stable_of_asks_isQuery hb hquery).mono fun _ _ _ => trivial
      | resolve h => exact (stable_resolve hb h).mono fun _ _ _ => trivial
      | issue p => exact hp.1.elim
      | forgetPath p => exact hp.1.elim
      | announce e => exact hp.1.elim
    exact hrequest.bind hb fun a b' hb' _ => ih a (hp.2 a) hb'

theorem stable_announce (hb : b.Sound) (e : MountEvent) :
    (announce e).Stable now b fun _ _ => True :=
  ⟨⟨hb.handles, hb.idAt⟩, ⟨.refl _, fun _ _ _ => rfl⟩, fun _ he => (List.not_mem_nil he).elim,
    trivial⟩

end Program

end NfsServer
