import NfsServer.Proofs.Store.Data
import NfsServer.Proofs.Store.Renaming

/-!
# Entries that come and go

What it means that a store has one object more (`Memory.Gains`) or one object less
(`Memory.Loses`): the object comes to or goes from one place, its directory bears the time of that,
and every other object is as it was.  A new object may be changed in place right after it has been
made (`Memory.Applied`), and what comes out is still one object more (`Memory.Gains.applied`).
-/

namespace NfsServer.Memory

variable {m m' m'' : Memory} {now : Time} {place : Location} {o o' : Object}

/-! ## One entry -/

/-- An object, when the directory that holds a place is marked as changed. -/
def touchHolder (now : Time) (place l : Location) (o : Object) : Object :=
  if place.parent? = some l then o.touch now else o

theorem touchHolder_of_parent {l : Location} (h : place.parent? = some l) :
    touchHolder now place l o = o.touch now :=
  if_pos h

/-- There is a new object at a place that was free, in a directory.  Its number is a new one, and
nothing else has changed but the times of the directory. -/
structure Gains (now : Time) (m : Memory) (place : Location) (o : Object) (m' : Memory) : Prop where
  vacant : m.find? place = none
  holder : ∃ k d, place.parent? = some k ∧ m.find? k = some d ∧ d.isDirectory = true
  here : m'.find? place = some o
  elsewhere : ∀ l, l ≠ place → m'.find? l = (m.find? l).map (touchHolder now place l)
  fileId_eq : o.fileId = m.nextId
  nextId_eq : m'.nextId = m.nextId + 1
  isReadOnly_eq : m'.isReadOnly = m.isReadOnly
  maxFileSize_eq : m'.maxFileSize = m.maxFileSize

/-- An object is gone from a place, and nothing else has changed but the times of its directory. -/
structure Loses (now : Time) (m : Memory) (place : Location) (o : Object) (m' : Memory) : Prop where
  there : m.find? place = some o
  gone : m'.find? place = none
  elsewhere : ∀ l, l ≠ place → m'.find? l = (m.find? l).map (touchHolder now place l)
  nextId_eq : m'.nextId = m.nextId
  isReadOnly_eq : m'.isReadOnly = m.isReadOnly
  maxFileSize_eq : m'.maxFileSize = m.maxFileSize

theorem find?_insert {above : Location} (habove : place.parent? = some above) (mode : UInt32)
    (contents : Contents) (l : Location) :
    (m.insert now place mode contents).find? l =
      if l = place then some (m.newObject now mode contents)
      else (m.find? l).map (touchHolder now place l) := by
  rw [insert, find?_touchParent _ now habove]
  by_cases hl : l = place
  · subst hl
    rw [if_pos rfl, find?, List.lookup_cons_self, Option.map_some,
      if_neg (Location.parent?_ne_self l)]
  · rw [if_neg hl, find?, List.lookup_cons, beq_false_of_ne hl]
    rfl

theorem gains_insert (hparent : m.checkParent place = .ok ()) (hvacant : m.find? place = none)
    (mode : UInt32) (contents : Contents) :
    Gains now m place (m.newObject now mode contents) (m.insert now place mode contents) := by
  obtain ⟨above, -, habove, -⟩ := checkParent_eq_ok_iff.1 hparent
  have hfind : ∀ l, (m.insert now place mode contents).find? l = _ :=
    find?_insert habove mode contents
  exact ⟨hvacant, checkParent_eq_ok_iff.1 hparent, by rw [hfind, if_pos rfl],
    fun l hl => by rw [hfind, if_neg hl], rfl, rfl, rfl, rfl⟩

theorem loses_erase {above : Location} (ho : m.find? place = some o)
    (habove : place.parent? = some above) :
    Loses now m place o ((m.erase place).touchParent now place) := by
  have hfind := find?_touchParent (m.erase place) now habove
  refine ⟨ho, ?_, fun l hl => ?_, rfl, rfl, rfl⟩
  · rw [hfind, find?_erase, if_pos rfl, Option.map_none]
  · rw [hfind, find?_erase, if_neg hl]
    rfl

/-- An object that has a place above it lies in a directory. -/
theorem IsTree.exists_holder (hm : m.IsTree) {above : Location} (ho : m.find? place = some o)
    (habove : place.parent? = some above) :
    ∃ d, m.find? above = some d ∧ d.isDirectory = true := by
  rcases hm.parent_mem _ (mem_of_find? ho) with hroot | ⟨k, d, hk, hd, hdirectory⟩
  · dsimp only at hroot
    rw [hroot] at habove
    cases habove
  · obtain rfl := Option.some.inj (hk.symm.trans habove)
    exact ⟨d, hm.find?_eq_some_iff.2 hd, hdirectory⟩

/-- Nothing lies in what has just been made. -/
theorem Gains.isEmptyAt (h : Gains now m place o m') (hm : m.IsTree) : m'.IsEmptyAt place := by
  intro l x hx hparent
  have hne : l ≠ place := by
    rintro rfl
    exact Location.parent?_ne_self l hparent
  rw [h.elsewhere l hne, Option.map_eq_some_iff] at hx
  obtain ⟨x, hx, -⟩ := hx
  -- It would have lain at a free place.
  obtain ⟨d, hd, -⟩ := hm.exists_holder hx hparent
  rw [h.vacant] at hd
  cases hd

theorem Gains.stat (h : Gains now m place o m') : m'.stat place = .ok o.metadata :=
  stat_eq_ok_iff.2 ⟨o, h.here, rfl⟩

/-! ## Requests that make or remove one entry -/

section Requests

variable {mode : UInt32} {a : Metadata}

theorem gains_of_create {exclusive : Bool} (h : m.create now place mode exclusive = .ok (a, m'))
    (hvacant : m.find? place = none) :
    let o := m.newObject now mode (.file [])
    a = o.metadata ∧ m.Gains now place o m' := by
  obtain ⟨hparent, ⟨-, ha, rfl⟩ | ⟨-, ⟨o, ho, -⟩, -⟩⟩ := create_ok h
  · exact ⟨ha, gains_insert hparent hvacant mode _⟩
  · rw [hvacant] at ho
    cases ho

theorem gains_of_addNew {contents : Contents} (h : m.addNew now place mode contents = .ok (a, m')) :
    let o := m.newObject now mode contents
    a = o.metadata ∧ m.Gains now place o m' := by
  obtain ⟨hparent, hvacant, ha, rfl⟩ := addNew_ok h
  exact ⟨ha, gains_insert hparent hvacant mode contents⟩

/-- The attributes that a creation answers with are those of the object at the place, be it new or
not. -/
theorem stat_of_create {exclusive : Bool} (h : m.create now place mode exclusive = .ok (a, m')) :
    m'.stat place = .ok a := by
  cases hfind : m.find? place with
  | none =>
    obtain ⟨rfl, hgains⟩ := gains_of_create h hfind
    exact hgains.stat
  | some o =>
    obtain ⟨-, ⟨hvacant, -⟩ | ⟨-, ⟨o, ho, -, rfl⟩, rfl⟩⟩ := create_ok h
    · rw [hfind] at hvacant
      cases hvacant
    · exact stat_eq_ok_iff.2 ⟨o, ho, rfl⟩

theorem loses_of_removeFile {above : Location} (h : m.removeFile now place = .ok m')
    (habove : place.parent? = some above) :
    ∃ o, m.Loses now place o m' ∧ o.isDirectory = false := by
  obtain ⟨o, ho, hfile, rfl⟩ := removeFile_ok h
  exact ⟨o, loses_erase ho habove, hfile⟩

theorem loses_of_removeDirectory (hm : m.IsTree) (h : m.removeDirectory now place = .ok m') :
    ∃ o, m.Loses now place o m' ∧ o.isDirectory = true ∧ m.IsEmptyAt place := by
  obtain ⟨o, ho, hdirectory, hparent, hempty, rfl⟩ := removeDirectory_ok h
  obtain ⟨above, habove⟩ := Option.ne_none_iff_exists'.1 hparent
  exact ⟨o, loses_erase ho habove, hdirectory, (hasChildren_eq_false_iff hm).1 hempty⟩

end Requests

/-! ## Numbers that are given once -/

theorem IsTree.idAt_lt (hm : m.IsTree) {l : Location} {f : Nat} (h : m.idAt l = some f) :
    f < m.nextId := by
  obtain ⟨x, hx, rfl⟩ := idAt_eq_some_iff.1 h
  exact hm.ids_lt _ (mem_of_find? hx)

theorem Change.nextId_le {vacated occupied : List Location}
    (h : Change now m vacated occupied m') : m.nextId ≤ m'.nextId := by
  cases h with
  | add => exact Nat.le_succ m.nextId
  | alter | remove | move => exact Nat.le_refl m.nextId

/-- Numbers are given in ascending order. -/
theorem kept_le_nextId (n : Nat) : Kept fun m => n ≤ m.nextId := by
  intro α now r m h
  rcases perform_change now r m with heq | hchange
  · rwa [heq]
  · exact Nat.le_trans h hchange.nextId_le

/-! ## Changes right behind the making -/

theorem Resizes.eq_replicate {n : Nat} {data : Bytes} (h : Resizes [] n data) :
    data = List.replicate n 0 := by
  refine List.eq_replicate_iff.2 ⟨h.length_eq, fun x hx => ?_⟩
  obtain ⟨i, hi, rfl⟩ := List.getElem_of_mem hx
  have hzero := h.getD_eq i (h.length_eq ▸ hi)
  rwa [List.getD_eq_getElem?_getD, List.getElem?_eq_getElem hi] at hzero

/-- What becomes of an object and its store when changes are applied that may change nothing at
all. -/
inductive Applied (now : Time) (changes : AttributeChanges) (m : Memory) (place : Location)
    (o : Object) : Object → Memory → Prop
  | nothing (hempty : changes.isEmpty = true) : Applied now changes m place o o m
  | taken {o' : Object} (hsome : changes.isEmpty = false)
      (htakes : TakesChanges now changes o o') :
      Applied now changes m place o o' (m.modify place fun _ => o')

namespace Applied

variable {changes : AttributeChanges}

theorem size_of_isEmpty (h : changes.isEmpty = true) : changes.size = none := by
  rw [of_decide_eq_true h]

theorem eq_of_isEmpty (h : Applied now changes m place o o' m')
    (hempty : changes.isEmpty = true) : m' = m := by
  cases h with
  | nothing => rfl
  | taken hsome => exact absurd hempty (Bool.eq_false_iff.1 hsome)

theorem replaced (h : Applied now changes m place o o' m') (ho : m.find? place = some o) :
    Replaced m place o' m' := by
  cases h with
  | nothing => exact ⟨ho, fun _ _ => rfl, rfl, rfl, rfl⟩
  | taken => exact replaced_modify ho o'

theorem fileId_eq (h : Applied now changes m place o o' m') : o'.fileId = o.fileId := by
  cases h with
  | nothing => rfl
  | taken _ htakes => exact htakes.fileId_eq

theorem kind_eq (h : Applied now changes m place o o' m') : o'.kind = o.kind := by
  cases h with
  | nothing => rfl
  | taken _ htakes => exact htakes.kind_eq

/-- Only files get a size. -/
theorem contents_eq (h : Applied now changes m place o o' m')
    (hfile : ∀ data, o.contents ≠ .file data) : o'.contents = o.contents := by
  cases h with
  | nothing => rfl
  | taken _ htakes =>
    cases hsize : changes.size with
    | none => exact htakes.kept hsize
    | some n =>
      obtain ⟨data, -, hdata, -⟩ := htakes.resized n hsize
      exact absurd hdata (hfile data)

/-- An empty file is filled up with zeros. -/
theorem contents_of_nil (h : Applied now changes m place o o' m') (hnil : o.contents = .file []) :
    o'.contents = .file (List.replicate (changes.size.getD 0) 0) := by
  cases h with
  | nothing hempty =>
    rw [size_of_isEmpty hempty]
    exact hnil
  | taken _ htakes =>
    cases hsize : changes.size with
    | none => exact (htakes.kept hsize).trans hnil
    | some n =>
      obtain ⟨data, data', hdata, hdata', hresizes⟩ := htakes.resized n hsize
      obtain rfl := Contents.file.inj (hnil.symm.trans hdata)
      rw [hdata', hresizes.eq_replicate]
      rfl

end Applied

/-- A new object that is changed in place is still one object more. -/
theorem Gains.applied {changes : AttributeChanges} (h : Gains now m place o m')
    (happlied : Applied now changes m' place o o' m'') : Gains now m place o' m'' := by
  have hreplaced := happlied.replaced h.here
  exact
    { vacant := h.vacant
      holder := h.holder
      here := hreplaced.here
      elsewhere := fun l hl => (hreplaced.elsewhere l hl).trans (h.elsewhere l hl)
      fileId_eq := happlied.fileId_eq.trans h.fileId_eq
      nextId_eq := hreplaced.nextId_eq.trans h.nextId_eq
      isReadOnly_eq := hreplaced.isReadOnly_eq.trans h.isReadOnly_eq
      maxFileSize_eq := hreplaced.maxFileSize_eq.trans h.maxFileSize_eq }

end NfsServer.Memory
