import NfsServer.Proofs.Store.Limits
import NfsServer.Proofs.Store.Tree

/-!
# The names in a store

Clients reach a store only through requests that put objects where clients may name entries
(`StoreRequest.IsAdmitted`).  A store that is asked for nothing else is a tree in which every name
is one that clients may send (`Memory.keeps_isNamed`), and so every object in it can be named.
-/

namespace NfsServer

/-! ## Names that are accepted -/

namespace Nfs

/-- The names that are accepted for entries. -/
structure IsAccepted (name : Bytes) : Prop where
  length_le : name.length ≤ maxNameLength
  isEntryName : Path.IsEntryName name
  isText : Utf8.isValid name = true

theorem IsAccepted.entry_eq_ok {name : Bytes} (h : IsAccepted name) (directory : Path) :
    directory.entry name = .ok (directory.child name) :=
  Path.entry_eq_ok_iff.2 ⟨h.isEntryName, h.isText, rfl⟩

theorem entryPath_eq_ok_iff {directory path : Path} {name : Bytes} :
    entryPath directory name = .ok path ↔ IsAccepted name ∧ path = directory.child name := by
  unfold entryPath checkName
  constructor
  · intro h
    split at h
    · cases h
    · next hname =>
      split at hname
      · cases hname
      · next hshort =>
        split at h
        · cases h
        · next entry hentry =>
          obtain rfl := Except.ok.inj h
          obtain ⟨hentryName, htext, rfl⟩ := Path.entry_eq_ok_iff.1 hentry
          exact ⟨⟨Nat.not_lt.1 hshort, hentryName, htext⟩, rfl⟩
  · rintro ⟨hname, rfl⟩
    rw [if_neg (Nat.not_lt.2 hname.length_le), hname.entry_eq_ok]

/-- The path leads to an entry that a client may name. -/
def IsEntryPath (path : Path) : Prop := ∃ directory name, entryPath directory name = .ok path

/-- The place of an entry that a client may name. -/
theorem IsEntryPath.exists_location {path : Path} (h : IsEntryPath path) :
    ∃ above name, IsAccepted name ∧ path.location = above ++ [.name name] := by
  obtain ⟨directory, name, h⟩ := h
  obtain ⟨hname, rfl⟩ := entryPath_eq_ok_iff.1 h
  exact ⟨directory.location, name, hname, directory.location_child hname.isEntryName⟩

theorem IsEntryPath.hasShortName {path : Path} (h : IsEntryPath path) :
    path.location.HasShortName := by
  obtain ⟨above, name, hname, hlocation⟩ := h.exists_location
  rw [hlocation]
  exact Location.hasShortName_append_name above hname.length_le

end Nfs

/-! ## Requests that are admitted -/

/-- A request puts objects only where clients may name entries, and its link targets have come in
records. -/
def StoreRequest.IsAdmitted {α : Type} : StoreRequest α → Prop
  | .create p _ _ | .makeDirectory p _ => Nfs.IsEntryPath p
  | .symlink p target => Nfs.IsEntryPath p ∧ target.length ≤ maxRecordLength
  | .rename _ target => Nfs.IsEntryPath target
  | _ => True

/-- Admitted requests keep a property of stores. -/
def Store.Keeps {σ : Type} [Store σ] (Q : σ → Prop) : Prop :=
  ∀ {α : Type} (now : Time) {r : StoreRequest α} {s : σ}, r.IsAdmitted → Q s →
    Q (Store.perform now r s).2

namespace StoreRequest

variable {α : Type} {r : StoreRequest α}

theorem IsQuery.isAdmitted (h : r.IsQuery) : r.IsAdmitted := by
  cases r <;> trivial

theorem IsAdmitted.withinLimits (h : r.IsAdmitted) : r.WithinLimits := by
  cases r with
  | create | makeDirectory | rename => exact Nfs.IsEntryPath.hasShortName h
  | symlink => exact ⟨Nfs.IsEntryPath.hasShortName h.1, h.2⟩
  | isReadOnly | maxFileSize | stat | read | write | readDirectory | removeFile | removeDirectory
  | setAttributes | readLink | space => trivial

/-- An admitted request puts objects only behind accepted names. -/
theorem IsAdmitted.exists_of_occupied (h : r.IsAdmitted) {l : Location} (hl : l ∈ r.occupied) :
    ∃ above name, Nfs.IsAccepted name ∧ l = above ++ [.name name] := by
  cases r with
  | create | makeDirectory | rename =>
    obtain rfl := List.mem_singleton.1 hl
    exact Nfs.IsEntryPath.exists_location h
  | symlink =>
    obtain rfl := List.mem_singleton.1 hl
    exact Nfs.IsEntryPath.exists_location h.1
  | isReadOnly | maxFileSize | stat | read | write | readDirectory | removeFile | removeDirectory
  | setAttributes | readLink | space => cases hl

end StoreRequest

/-! ## Places behind accepted names -/

/-- All names on the way to the place are accepted ones. -/
def Location.HasAcceptedNames (l : Location) : Prop :=
  ∀ name, Component.name name ∈ l → Nfs.IsAccepted name

theorem Location.HasAcceptedNames.relocate {source target l : Location} (h : l.HasAcceptedNames)
    (htarget : target.HasAcceptedNames) :
    (Memory.relocate source target l).HasAcceptedNames :=
  fun name hname => (Memory.mem_of_mem_relocate hname).elim (htarget name) (h name)

namespace Memory

variable {m m' : Memory} {now : Time} {l : Location}

/-- The objects form a tree, and clients may name each of them. -/
structure IsNamed (m : Memory) : Prop where
  isTree : m.IsTree
  names : m.Each fun l _ => l.HasAcceptedNames

theorem isNamed_empty (now : Time) (isReadOnly : Bool) (maxFileSize : Nat) :
    (empty now isReadOnly maxFileSize).IsNamed where
  isTree := isTree_empty now isReadOnly maxFileSize
  names := by
    intro e he name hname
    obtain rfl := List.mem_singleton.1 he
    cases List.mem_singleton.1 hname

/-- An accepted name in an existing directory leads to a place behind accepted names. -/
theorem IsNamed.hasAcceptedNames_of_checkParent (h : m.IsNamed) (hparent : m.checkParent l = .ok ())
    (hl : ∃ above name, Nfs.IsAccepted name ∧ l = above ++ [.name name]) :
    l.HasAcceptedNames := by
  obtain ⟨above, last, hlast, rfl⟩ := hl
  obtain ⟨d, hd, -⟩ := IsTree.mem_of_checkParent hparent
  intro name hname
  rcases List.mem_append.1 hname with hname | hname
  · exact h.names _ hd name hname
  · obtain rfl := Component.name.inj (List.mem_singleton.1 hname)
    exact hlast

/-- A change that brings only accepted names keeps the names of all objects accepted ones. -/
theorem Change.isNamed {vacated occupied : List Location}
    (h : Change now m vacated occupied m') (hm : m.IsNamed)
    (hoccupied : ∀ l ∈ occupied, ∃ above name, Nfs.IsAccepted name ∧ l = above ++ [.name name]) :
    m'.IsNamed := by
  refine ⟨h.isTree hm.isTree, ?_⟩
  cases h with
  | add hparent hfree hempty =>
    exact hm.names.insert (fun _ _ => id)
      (hm.hasAcceptedNames_of_checkParent hparent (hoccupied _ (by simp)))
  | alter ho halters => exact hm.names.modify fun _ => id
  | remove ho hempty => exact hm.names.erase.touchParent fun _ _ => id
  | @move source target o ho hparent hne houtside hreplace =>
    have htarget : target.HasAcceptedNames :=
      hm.hasAcceptedNames_of_checkParent hparent (hoccupied _ (by simp))
    have hmoved : ((m.erase target).move source target).Each fun l _ => l.HasAcceptedNames :=
      hm.names.erase.move fun _ _ hl => hl.relocate htarget
    exact (hmoved.touchParent fun _ _ => id).touchParent fun _ _ => id

theorem keeps_isNamed : Store.Keeps IsNamed := by
  intro α now r m hr hm
  rcases perform_change now r m with heq | hchange
  · show (perform now r m).2.IsNamed
    rwa [heq]
  · exact hchange.isNamed hm fun l hl => hr.exists_of_occupied hl

theorem keeps_withinLimits : Store.Keeps WithinLimits :=
  fun now _ _ hr h => h.perform now hr.withinLimits

end Memory

end NfsServer
