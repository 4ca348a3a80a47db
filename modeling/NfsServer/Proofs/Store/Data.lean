import NfsServer.Proofs.Store.Soundness

/-!
# Data and attributes of one object

What a write, a read and a change of attributes do with one object, byte by byte and attribute by
attribute (`Memory.Overwrites`, `Memory.Resizes`, `Memory.TakesChanges`), and that they do nothing
to any other (`Memory.Replaced`).  A byte behind the end of data counts as zero, so that data grows
by zeros.
-/

namespace NfsServer.Memory

variable {m m' : Memory} {now : Time} {l : Location} {o : Object} {data : Bytes}

/-! ## Bytes -/

/-- The data has a certain length now.  As far as that goes it is what it was, with zeros where it
has grown. -/
structure Resizes (data : Bytes) (size : Nat) (resized : Bytes) : Prop where
  length_eq : resized.length = size
  getD_eq : ∀ i < size, resized.getD i 0 = data.getD i 0

/-- The data has grown as far as it had to and holds new bytes from `offset` on.  Elsewhere it is
what it was, with zeros where it has grown. -/
structure Overwrites (data : Bytes) (offset : Nat) (new written : Bytes) : Prop where
  length_eq : written.length = max data.length (offset + new.length)
  inside : ∀ i < new.length, written[offset + i]? = new[i]?
  outside : ∀ i, i < offset ∨ offset + new.length ≤ i → written.getD i 0 = data.getD i 0

theorem resizes_resize (data : Bytes) (n : Nat) : Resizes data n (resize data n) := by
  refine ⟨length_resize data n, fun i hi => ?_⟩
  have htaken : (data.take n).length = min n data.length := List.length_take
  rw [resize, List.getD_eq_getElem?_getD, List.getD_eq_getElem?_getD]
  by_cases hdata : i < data.length
  · rw [List.getElem?_append_left (by omega), List.getElem?_take_of_lt hi]
  · rw [List.getElem?_append_right (by omega), List.getElem?_eq_none (Nat.le_of_not_lt hdata),
      List.getElem?_replicate]
    split <;> rfl

theorem overwrites_overwrite (data : Bytes) (offset : Nat) (new : Bytes) :
    Overwrites data offset new (overwrite data offset new) := by
  have hfront := resizes_resize data offset
  have hlength := hfront.length_eq
  refine ⟨length_overwrite data offset new, fun i hi => ?_, fun i hi => ?_⟩
  · rw [overwrite, List.append_assoc, List.getElem?_append_right (by omega), hlength,
      Nat.add_sub_cancel_left, List.getElem?_append_left hi]
  · rcases hi with hi | hi
    · rw [← hfront.getD_eq i hi, overwrite, List.append_assoc, List.getD_eq_getElem?_getD,
        List.getElem?_append_left (by omega), ← List.getD_eq_getElem?_getD]
    · have hbefore : (resize data offset ++ new).length = offset + new.length := by
        rw [List.length_append, hlength]
      rw [overwrite, List.getD_eq_getElem?_getD, List.getElem?_append_right (by omega), hbefore,
        List.getElem?_drop, Nat.add_sub_cancel' hi, ← List.getD_eq_getElem?_getD]

/-! ## One object among all -/

/-- Another object is at one place, and nothing else has changed. -/
structure Replaced (m : Memory) (l : Location) (o' : Object) (m' : Memory) : Prop where
  here : m'.find? l = some o'
  elsewhere : ∀ k, k ≠ l → m'.find? k = m.find? k
  nextId_eq : m'.nextId = m.nextId
  isReadOnly_eq : m'.isReadOnly = m.isReadOnly
  maxFileSize_eq : m'.maxFileSize = m.maxFileSize

theorem replaced_modify (ho : m.find? l = some o) (o' : Object) :
    Replaced m l o' (m.modify l fun _ => o') where
  here := by rw [find?_modify, if_pos rfl, ho, Option.map_some]
  elsewhere := fun k hk => by rw [find?_modify, if_neg hk]
  nextId_eq := rfl
  isReadOnly_eq := rfl
  maxFileSize_eq := rfl

/-! ## Reads and writes -/

theorem take_drop_eq_extract (data : Bytes) (offset count : Nat) :
    let first := min offset data.length
    (data.drop offset).take count = data.extract first (min (first + count) data.length) := by
  intro first
  rw [List.extract_eq_take_drop]
  by_cases hle : offset ≤ data.length
  · have hfirst : first = offset := Nat.min_eq_left hle
    rw [hfirst, List.take_eq_take_iff, List.length_drop]
    omega
  · have hfirst : first = data.length := Nat.min_eq_right (by omega)
    rw [hfirst, List.drop_eq_nil_of_le (by omega), List.drop_length, List.take_nil, List.take_nil]

/-- Data is read from where it is asked for or else from its end. -/
theorem read_of_file (ho : m.find? l = some o) (hdata : o.contents = .file data)
    (offset count : Nat) :
    let first := min offset data.length
    m.read l offset count = .ok ⟨data.extract first (min (first + count) data.length),
      decide (data.length ≤ first + count)⟩ := by
  obtain ⟨contents, kind, mode, size, accessed, modified, changed, fileId⟩ := o
  obtain rfl : contents = .file data := hdata
  dsimp only
  rw [read, get_eq_ok_iff.2 ho, ← take_drop_eq_extract]
  rfl

theorem write_of_lt {offset : Nat} {new : Bytes} (h : m.maxFileSize < offset + new.length) :
    m.write now l offset new = .error .fileTooLarge := by
  rw [write, if_pos h]
  rfl

/-- A write within the limit succeeds. -/
theorem write_of_le {offset : Nat} {new : Bytes} (ho : m.find? l = some o)
    (hdata : o.contents = .file data) (hsize : offset + new.length ≤ m.maxFileSize)
    (hroom : m.maxFileSize < allocationLimit) :
    let written := overwrite data offset new
    let o' := { o with contents := .file written, size := written.length }.touch now
    m.write now l offset new = .ok (o'.metadata, m.modify l fun _ => o') := by
  have hcheck : checkRoom data (offset + new.length) = .ok () := if_neg (by omega)
  obtain ⟨contents, kind, mode, size, accessed, modified, changed, fileId⟩ := o
  obtain rfl : contents = .file data := hdata
  rw [write, if_neg (Nat.not_lt.2 hsize), get_eq_ok_iff.2 ho]
  show (checkRoom data (offset + new.length) >>= fun _ => _) = _
  rw [hcheck]
  rfl

/-! ## Changes of attributes -/

/-- The object has taken changes.  A new size is a change of the data, unless the time of that is
given. -/
structure TakesChanges (now : Time) (changes : AttributeChanges) (o o' : Object) : Prop where
  kind_eq : o'.kind = o.kind
  fileId_eq : o'.fileId = o.fileId
  mode_eq : o'.mode = (changes.mode.map permissions).getD o.mode
  accessed_eq : o'.accessed = changes.accessed.getD o.accessed
  modified_eq : o'.modified =
    changes.modified.getD (if changes.size.isSome then now else o.modified)
  changed_eq : o'.changed = now
  size_eq : o'.size = changes.size.getD o.size
  kept : changes.size = none → o'.contents = o.contents
  resized : ∀ size, changes.size = some size → ∃ data data', o.contents = .file data ∧
    o'.contents = .file data' ∧ Resizes data size data'

theorem takesChanges_of_setAttributes {changes : AttributeChanges} {a : Metadata}
    (h : m.setAttributes now l changes = .ok (a, m')) :
    ∃ o o', m.find? l = some o ∧ TakesChanges now changes o o' ∧ a = o'.metadata ∧
      m' = m.modify l fun _ => o' := by
  unfold setAttributes at h
  obtain ⟨-, h⟩ := Except.check_eq_ok h
  obtain ⟨o, ho, h⟩ := Except.bind_eq_ok h
  dsimp only at h
  split at h
  · next hnone =>
    cases h
    refine ⟨o, _, get_eq_ok_iff.1 ho, ?_, rfl, rfl⟩
    constructor <;> simp [hnone]
  · next size data hsome hdata =>
    obtain ⟨⟨⟩, -, h⟩ := Except.bind_eq_ok h
    cases h
    refine ⟨o, _, get_eq_ok_iff.1 ho, ?_, rfl, rfl⟩
    constructor <;> simp [hsome, hdata, resizes_resize]
  · cases h

/-- A new size above the limit is refused. -/
theorem setAttributes_of_lt {changes : AttributeChanges} {size : Nat}
    (hsize : changes.size = some size) (h : m.maxFileSize < size) :
    m.setAttributes now l changes = .error .fileTooLarge := by
  rw [setAttributes, hsize, if_pos (by simpa using h)]
  rfl

/-- Only files have a size that can be set. -/
theorem setAttributes_of_not_file {changes : AttributeChanges} {size : Nat}
    (hsize : changes.size = some size) (h : size ≤ m.maxFileSize) (ho : m.find? l = some o)
    (hfile : ∀ data, o.contents ≠ .file data) :
    m.setAttributes now l changes = .error .isADirectory := by
  obtain ⟨contents, kind, mode, objectSize, accessed, modified, changed, fileId⟩ := o
  have hlimit : ¬(some size).any (m.maxFileSize < ·) := by simpa using h
  rw [setAttributes, hsize, if_neg hlimit, get_eq_ok_iff.2 ho]
  cases contents with
  | file data => exact absurd rfl (hfile data)
  | directory => rfl
  | symlink target => rfl

end NfsServer.Memory
