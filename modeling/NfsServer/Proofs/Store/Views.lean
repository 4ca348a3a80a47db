import NfsServer.Proofs.Store.Names
import NfsServer.Store.Faulty

/-!
# What stores show of a memory

Whoever asks only for attributes and for the entries of directories sees a store in memory, be it
asked itself or through a layer without faults; the layer may hide the numbers of objects
(`Mirrors`).  Such a layer passes everything on, so that the store behind it keeps what it keeps
without the layer (`Faulty.keeps_of_keeps`).
-/

namespace NfsServer

/-- Attributes, without the number of the object if numbers are hidden. -/
def Metadata.shown (hidden : Bool) (m : Metadata) : Metadata :=
  if hidden then { m with fileId := none } else m

@[simp] theorem Metadata.isDirectory_shown (hidden : Bool) (m : Metadata) :
    (m.shown hidden).isDirectory = m.isDirectory := by
  cases hidden <;> rfl

/-- An entry, without the number of its object if numbers are hidden. -/
def Child.shown (hidden : Bool) (c : Child) : Child :=
  { c with metadata := c.metadata.shown hidden }

/-- The store answers as `m` does when it is asked for attributes or for the entries of a directory,
with the numbers of objects hidden or not. -/
structure Mirrors {σ : Type} [Store σ] (hidden : Bool) (s : σ) (m : Memory) : Prop where
  stat : ∀ now p, Store.perform now (.stat p) s =
    ((m.stat p.location).map (Metadata.shown hidden), s)
  readDirectory : ∀ now p, Store.perform now (.readDirectory p) s =
    ((m.readDirectory p.location).map (List.map (Child.shown hidden)), s)

theorem Memory.mirrors_self (m : Memory) : Mirrors false m m where
  stat now p := by
    show (m.stat p.location, m) = _
    cases m.stat p.location <;> rfl
  readDirectory now p := by
    have hchild : Child.shown false = id := rfl
    show (m.readDirectory p.location, m) = _
    rw [hchild, List.map_id_fun]
    cases m.readDirectory p.location <;> rfl

namespace Faulty

variable {σ : Type} {s : Faulty σ} {hidden : Bool}

/-- The layer has no faults and adds nothing. -/
structure IsClear (hidden : Bool) (s : Faulty σ) : Prop where
  faults_eq : s.faults = []
  extraNames_eq : s.extraNames = []
  hidesFileIds_eq : s.hidesFileIds = hidden

theorem IsClear.fault?_eq_none (h : s.IsClear hidden) {α : Type} (r : StoreRequest α) :
    s.fault? r = none := by
  unfold fault?
  cases r.subject? with
  | none => rfl
  | some subject =>
    rw [h.faults_eq]
    rfl

section Memory

variable {s : Faulty Memory} {α : Type} (now : Time)

theorem IsClear.forwardMetadata_eq (h : s.IsClear hidden)
    (r : StoreRequest (Except StoreError Metadata)) :
    s.forwardMetadata now r = (s.filterAnswer (s.forward now r).1, (s.forward now r).2) := by
  unfold forwardMetadata
  rw [h.fault?_eq_none]
  rfl

theorem IsClear.forwardFallible_eq (h : s.IsClear hidden)
    (r : StoreRequest (Except StoreError α)) : s.forwardFallible now r = s.forward now r := by
  unfold forwardFallible
  rw [h.fault?_eq_none]

theorem IsClear.perform_readDirectory (h : s.IsClear hidden) (p : Path) :
    perform now (.readDirectory p) s =
      ((s.store.readDirectory p.location).map (s.filterChildren (s.store.stat p.location)), s) := by
  rw [perform, h.fault?_eq_none]
  rfl

/-- Without faults, everything is passed on. -/
theorem IsClear.perform_snd (h : s.IsClear hidden) (r : StoreRequest α) :
    (perform now r s).2 = { s with store := (Memory.perform now r s.store).2 } := by
  cases r with
  | isReadOnly => rfl
  | maxFileSize =>
    show (if s.hidesLimits then (largestFileSize, s) else s.forward now .maxFileSize).2 = s
    split <;> rfl
  | space =>
    rw [perform, h.fault?_eq_none]
    dsimp only
    split <;> rfl
  | readDirectory p => exact congrArg Prod.snd (h.perform_readDirectory now p)
  | stat | create | write | makeDirectory | setAttributes | symlink =>
    exact congrArg Prod.snd (h.forwardMetadata_eq now _)
  | read | removeFile | removeDirectory | rename | readLink =>
    exact congrArg Prod.snd (h.forwardFallible_eq now _)

/-- What a store keeps, it keeps behind a layer without faults. -/
theorem keeps_of_keeps {Q : Memory → Prop} (hQ : Store.Keeps Q) :
    Store.Keeps fun s : Faulty Memory => s.IsClear hidden ∧ Q s.store := by
  intro α now r s hr hs
  show IsClear hidden (perform now r s).2 ∧ Q (perform now r s).2.store
  rw [hs.1.perform_snd]
  exact ⟨⟨hs.1.faults_eq, hs.1.extraNames_eq, hs.1.hidesFileIds_eq⟩, hQ now hr hs.2⟩

theorem IsClear.mirrors (h : s.IsClear hidden) : Mirrors hidden s s.store := by
  have hfilter : s.filter = Metadata.shown hidden := by
    unfold filter
    rw [h.hidesFileIds_eq]
    rfl
  have hchildren : ∀ directory, s.filterChildren directory = List.map (Child.shown hidden) := by
    intro directory
    funext children
    unfold filterChildren
    rw [h.extraNames_eq, hfilter]
    cases directory <;> exact congrArg (List.map (Child.shown hidden)) (List.append_nil children)
  constructor
  · intro now p
    refine (h.forwardMetadata_eq now (.stat p)).trans ?_
    rw [filterAnswer, hfilter]
    rfl
  · intro now p
    refine (h.perform_readDirectory now p).trans ?_
    rw [hchildren]

end Memory

end Faulty

end NfsServer
