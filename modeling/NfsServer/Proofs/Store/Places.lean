import NfsServer.Proofs.Store.Names
import NfsServer.Proofs.Store.Soundness
import NfsServer.Proofs.Text.Utf8

/-!
# Normal places

A place is normal when the root directory and then nothing but names of entries lead to it
(`Location.IsNormal`).  A name that a client sends is either refused or leads from a normal place to
an entry right below it (`Path.entry_isEntryOf`), and different names lead to different entries
(`Path.eq_of_entry_samePlace`).  Therefore a store whose objects all lie at normal places keeps to
them, whatever admitted requests it gets (`Memory.keeps_hasNormalPlaces`).
-/

namespace NfsServer

namespace Location

/-- The root directory and then names of entries lead to the place. -/
structure IsNormal (l : Location) : Prop where
  isPlain : l.IsPlain
  isEntryName : ∀ name, Component.name name ∈ l → Path.IsEntryName name

theorem isNormal_root : root.IsNormal where
  isPlain := isPlain_root
  isEntryName := by simp [root]

variable {l : Location}

theorem IsNormal.append_name (h : l.IsNormal) {name : Bytes} (hname : Path.IsEntryName name) :
    Location.IsNormal (l ++ [.name name]) where
  isPlain := h.isPlain.append (by simp)
  isEntryName := by
    intro other hother
    rcases List.mem_append.1 hother with hother | hother
    · exact h.isEntryName other hother
    · obtain rfl := Component.name.inj (List.mem_singleton.1 hother)
      exact hname

/-- What lies below a place goes on to lie at normal places when the place is moved to another
one. -/
theorem IsNormal.relocate {source target : Location} (hl : l.IsNormal) (hsource : source.IsNormal)
    (htarget : target.IsNormal) : (Memory.relocate source target l).IsNormal where
  isPlain := hsource.isPlain.relocate htarget.isPlain hl.isPlain
  isEntryName := fun name hname =>
    (Memory.mem_of_mem_relocate hname).elim (htarget.isEntryName name) (hl.isEntryName name)

/-- Each component of a normal place is the root or a name. -/
theorem IsNormal.eq_root_or_name (h : l.IsNormal) {c : Component} (hc : c ∈ l) :
    c = .root ∨ ∃ name, c = .name name := by
  obtain ⟨rest, rfl, hrest⟩ := h.isPlain
  rcases List.mem_append.1 hc with hc | hc
  · exact Or.inl (List.mem_singleton.1 hc)
  · exact Or.inr (hrest c hc)

theorem IsNormal.here_not_mem (h : l.IsNormal) : Component.here ∉ l := fun hmem => by
  rcases h.eq_root_or_name hmem with heq | ⟨name, heq⟩ <;> cases heq

theorem IsNormal.up_not_mem (h : l.IsNormal) : Component.up ∉ l := fun hmem => by
  rcases h.eq_root_or_name hmem with heq | ⟨name, heq⟩ <;> cases heq

end Location

/-! ## Names that clients send -/

namespace Path

variable {directory p : Path} {name : Bytes}

/-- The path leads to the entry of that name in the directory, and over no dot entries. -/
structure IsEntryOf (p directory : Path) (name : Bytes) : Prop where
  parent_samePlace : p.parent.SamePlace directory
  fileName?_eq : p.fileName? = some name
  here_not_mem : Component.here ∉ p.location
  up_not_mem : Component.up ∉ p.location

/-- The names that are accepted are the spellings of texts that are one component, and no dots. -/
theorem exists_entry_iff :
    (∃ p, directory.entry name = .ok p) ↔
      name ≠ [] ∧ (∃ text, Utf8.encode text = name) ∧ name ≠ [dot] ∧ name ≠ [dot, dot] ∧
        slash ∉ name := by
  constructor
  · rintro ⟨p, hp⟩
    obtain ⟨⟨hnil, hdot, hdots, hslash⟩, htext, -⟩ := entry_eq_ok_iff.1 hp
    exact ⟨hnil, ⟨Utf8.lossy name, Utf8.encode_lossy htext⟩, hdot, hdots, hslash⟩
  · rintro ⟨hnil, ⟨text, rfl⟩, hdot, hdots, hslash⟩
    exact ⟨_, entry_eq_ok_iff.2 ⟨⟨hnil, hdot, hdots, hslash⟩, Utf8.isValid_encode text, rfl⟩⟩

theorem entry_isNormal (hdirectory : directory.location.IsNormal)
    (hp : directory.entry name = .ok p) : p.location.IsNormal := by
  rw [location_entry hp]
  exact hdirectory.append_name (entry_eq_ok_iff.1 hp).1

/-- The directory above an entry is the one in which it was named. -/
theorem parent_entry (hdirectory : directory.location.IsNormal)
    (hp : directory.entry name = .ok p) : p.parent.SamePlace directory := by
  obtain ⟨rest, hrest, -⟩ := (entry_isNormal hdirectory hp).isPlain
  have hparent : p.parent.location = p.location.parent?.getD p.location := location_parent hrest
  rw [location_entry hp, Location.parent?_append_singleton _ Component.noConfusion] at hparent
  exact hparent

theorem entry_isEntryOf (hdirectory : directory.location.IsNormal)
    (hp : directory.entry name = .ok p) : p.IsEntryOf directory name where
  parent_samePlace := parent_entry hdirectory hp
  fileName?_eq := by
    rw [fileName?, location_entry hp]
    exact Location.fileName?_append_name directory.location name
  here_not_mem := (entry_isNormal hdirectory hp).here_not_mem
  up_not_mem := (entry_isNormal hdirectory hp).up_not_mem

/-- The place of an entry tells its directory and its name. -/
theorem eq_of_entry_samePlace {directory' p' : Path} {name' : Bytes}
    (hp : directory.entry name = .ok p) (hp' : directory'.entry name' = .ok p')
    (hsame : p.SamePlace p') : directory.SamePlace directory' ∧ name = name' := by
  have hlocation : directory.location ++ [.name name] = directory'.location ++ [.name name'] := by
    rw [← location_entry hp, ← location_entry hp']
    exact hsame
  obtain ⟨hdirectory, hname⟩ := List.append_inj' hlocation rfl
  exact ⟨hdirectory, Component.name.inj (List.singleton_inj.1 hname)⟩

end Path

/-! ## Stores -/

namespace Memory

variable {m m' : Memory} {now : Time} {l : Location}

/-- All objects lie at normal places. -/
def HasNormalPlaces (m : Memory) : Prop := m.Each fun l _ => l.IsNormal

theorem hasNormalPlaces_empty (now : Time) (isReadOnly : Bool) (maxFileSize : Nat) :
    (empty now isReadOnly maxFileSize).HasNormalPlaces := by
  intro e he
  obtain rfl := List.mem_singleton.1 he
  exact Location.isNormal_root

theorem HasNormalPlaces.isNormal_of_find? (h : m.HasNormalPlaces) {o : Object}
    (ho : m.find? l = some o) : l.IsNormal :=
  h _ (mem_of_find? ho)

/-- An accepted name in an existing directory leads to a normal place. -/
theorem HasNormalPlaces.isNormal_of_checkParent (h : m.HasNormalPlaces)
    (hparent : m.checkParent l = .ok ())
    (hl : ∃ above name, Nfs.IsAccepted name ∧ l = above ++ [.name name]) : l.IsNormal := by
  obtain ⟨above, name, hname, rfl⟩ := hl
  obtain ⟨d, hd, -⟩ := IsTree.mem_of_checkParent hparent
  exact (h _ hd).append_name hname.isEntryName

/-- A change puts objects only into directories that are there. -/
theorem Change.checkParent_eq_ok {vacated occupied : List Location}
    (h : Change now m vacated occupied m') (hl : l ∈ occupied) : m.checkParent l = .ok () := by
  cases h with
  | add hparent | move _ hparent =>
    obtain rfl := List.mem_singleton.1 hl
    exact hparent
  | alter | remove => cases hl

theorem Change.hasNormalPlaces {vacated occupied : List Location}
    (h : Change now m vacated occupied m') (hm : m.HasNormalPlaces)
    (hoccupied : ∀ l ∈ occupied, ∃ above name, Nfs.IsAccepted name ∧ l = above ++ [.name name]) :
    m'.HasNormalPlaces := by
  have hnormal : ∀ l ∈ occupied, l.IsNormal := fun l hl =>
    hm.isNormal_of_checkParent (h.checkParent_eq_ok hl) (hoccupied l hl)
  refine h.each hm (fun _ _ hl => hl) (fun l hl _ _ _ => hnormal l hl) (fun _ _ _ hl _ => hl) ?_
  -- What is moved has been at a normal place, and so has all that lies below it.
  intro source target o ho htarget l _ hl
  exact hl.relocate (hm.isNormal_of_find? ho) (hnormal target htarget)

theorem keeps_hasNormalPlaces : Store.Keeps HasNormalPlaces := by
  intro α now r m hr hm
  rcases perform_change now r m with heq | hchange
  · show (perform now r m).2.HasNormalPlaces
    rwa [heq]
  · exact hchange.hasNormalPlaces hm fun l hl => hr.exists_of_occupied hl

end Memory

end NfsServer
