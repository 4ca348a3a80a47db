import NfsServer.Proofs.Rpc.Reassembly

/-!
# Records as they are written

However long a record is, it is written as the fragments of one record, of which the last one and no
other is marked, and nothing else is written (`frame_makes_one_record`).  The mark and the length of
a payload share the word in a header; they do not touch because no payload is longer than the bits
below the mark can say (`Fragment.word`).
-/

namespace NfsServer.Rpc.Record

/-! ## Headers as words -/

namespace Fragment

variable {f : Fragment}

/-- The word in the header of a fragment: the top bit marks the last one, and the bits below it are
the length of the payload. -/
def word (f : Fragment) : UInt32 :=
  UInt32.ofNat f.payload.length ||| if f.isLast then 0x80000000 else 0

theorem toNat_word (h : f.payload.length ≤ maxFragment) :
    f.word.toNat = if f.isLast then lastMark + f.payload.length else f.payload.length := by
  unfold maxFragment at h
  have hlength : (UInt32.ofNat f.payload.length).toNat = f.payload.length :=
    UInt32.toNat_ofNat_of_lt' (show _ < 0x100000000 by omega)
  rw [word, UInt32.toNat_or, hlength]
  split
  · have hbelow : f.payload.length < 2 ^ 31 := by omega
    rw [Nat.or_comm]
    exact (Nat.two_pow_add_eq_or_of_lt hbelow 1).symm
  · exact Nat.or_zero _

/-- A fragment travels as its word and its payload. -/
theorem spelling_eq_word (h : f.payload.length ≤ maxFragment) :
    f.spelling = Bytes.bigEndian 4 f.word.toNat ++ f.payload := by
  rw [toNat_word h, spelling, header]

theorem word_lengthBits (h : f.payload.length ≤ maxFragment) :
    (f.word &&& 0x7FFFFFFF).toNat = f.payload.length := by
  unfold maxFragment at h
  have hbits : (f.word &&& 0x7FFFFFFF).toNat = f.word.toNat % 2 ^ 31 :=
    (UInt32.toNat_and _ _).trans (Nat.and_two_pow_sub_one_eq_mod _ 31)
  rw [hbits, toNat_word h, lastMark]
  split <;> omega

theorem word_topBit (h : f.payload.length ≤ maxFragment) :
    f.word >>> 31 = 1 ↔ f.isLast = true := by
  unfold maxFragment at h
  have hbit : (f.word >>> 31).toNat = f.word.toNat / 2 ^ 31 :=
    (UInt32.toNat_shiftRight _ _).trans (Nat.shiftRight_eq_div_pow _ 31)
  rw [← UInt32.toNat_inj, hbit, toNat_word h, lastMark]
  show _ = 1 ↔ _
  cases f.isLast with
  | true => simp; omega
  | false => simp; omega

end Fragment

/-! ## Fragments of a record -/

/-- The fragments make up the record: the last one and no other is marked, and the payloads are the
record from its beginning to its end. -/
structure MakeUp (fs : List Fragment) (record : Bytes) : Prop where
  short : ∀ f ∈ fs, f.payload.length ≤ maxFragment
  marks : ∃ front last, fs = front ++ [last] ∧ last.isLast = true ∧ ∀ f ∈ front, f.isLast = false
  payloads : fs.flatMap Fragment.payload = record

theorem makeUp_single {record : Bytes} (h : record.length ≤ maxFragment) :
    MakeUp [⟨true, record⟩] record where
  short := List.forall_mem_singleton.2 h
  marks := ⟨[], ⟨true, record⟩, rfl, rfl, List.forall_mem_nil _⟩
  payloads := List.append_nil record

/-- A fragment in front that is not marked adds its payload to the record. -/
theorem MakeUp.cons {fs : List Fragment} {record piece : Bytes} (h : MakeUp fs record)
    (hpiece : piece.length ≤ maxFragment) : MakeUp (.more piece :: fs) (piece ++ record) where
  short := List.forall_mem_cons.2 ⟨hpiece, h.short⟩
  marks := by
    obtain ⟨front, last, rfl, hlast, hfront⟩ := h.marks
    exact ⟨.more piece :: front, last, rfl, hlast, List.forall_mem_cons.2 ⟨rfl, hfront⟩⟩
  payloads := congrArg (piece ++ ·) h.payloads

/-- How many fragments a record takes: one for each full payload before the last byte, and one for
the rest. -/
def fragmentCount (record : Bytes) : Nat := (record.length - 1) / maxFragment + 1

/-- What is written are fragments that make up the record. -/
theorem exists_makeUp (record : Bytes) :
    ∃ fs, frame record = fs.flatMap Fragment.spelling ∧ MakeUp fs record ∧
      fs.length = fragmentCount record := by
  fun_induction frame record with
  | case1 record h =>
    refine ⟨[⟨true, record⟩], (List.append_nil _).symm, makeUp_single h, ?_⟩
    unfold fragmentCount maxFragment at *
    rw [List.length_singleton]
    omega
  | case2 record h ih =>
    obtain ⟨fs, hspelling, hmakeUp, hcount⟩ := ih
    have htake : (record.take maxFragment).length = maxFragment :=
      List.length_take_of_le (by omega)
    refine ⟨.more (record.take maxFragment) :: fs, ?_, ?_, ?_⟩
    · rw [List.flatMap_cons, ← hspelling, Fragment.spelling, Fragment.more, htake]
    · have hcons := hmakeUp.cons htake.le
      rwa [List.take_append_drop] at hcons
    · unfold fragmentCount at *
      rw [List.length_cons, hcount, List.length_drop]
      unfold maxFragment at *
      omega

/-- A record of any length is written as the fragments of one record and nothing else: cutting
what is written, whatever follows on the stream, gives fragments that make up the record, each of
which is its word and its payload; the word holds the length of the payload below the top bit, and
the mark in the top bit. -/
theorem frame_makes_one_record (record : Bytes) :
    let fs := Fragment.cut (frame record)
    frame record = fs.flatMap Fragment.spelling ∧ MakeUp fs record ∧
      fs.length = fragmentCount record ∧
      (∀ f ∈ fs, f.spelling = Bytes.bigEndian 4 f.word.toNat ++ f.payload ∧
        (f.word &&& 0x7FFFFFFF).toNat = f.payload.length ∧
        (f.word >>> 31 = 1 ↔ f.isLast = true)) ∧
      ∀ rest, Fragment.cut (frame record ++ rest) = fs ++ Fragment.cut rest := by
  intro fs
  obtain ⟨written, hspelling, hmakeUp, hcount⟩ := exists_makeUp record
  have hpayload : ∀ f ∈ written, f.payload.length < lastMark :=
    fun f hf => Nat.lt_succ_of_le (hmakeUp.short f hf)
  have hfs : fs = written :=
    (congrArg Fragment.cut hspelling).trans (Fragment.cut_spellings hpayload)
  have hcut : ∀ rest, Fragment.cut (frame record ++ rest) = written ++ Fragment.cut rest := by
    rw [hspelling]
    exact Fragment.cut_spellings_append hpayload
  rw [hfs]
  refine ⟨hspelling, hmakeUp, hcount, fun f hf => ?_, hcut⟩
  have hshort := hmakeUp.short f hf
  exact ⟨Fragment.spelling_eq_word hshort, Fragment.word_lengthBits hshort,
    Fragment.word_topBit hshort⟩

/-- Three bytes travel in one fragment, behind a word with the mark and the number three. -/
theorem frame_makes_one_record_short :
    let f : Fragment := ⟨true, [1, 2, 3]⟩
    Fragment.cut (frame f.payload) = [f] ∧ MakeUp [f] f.payload ∧
      f.spelling = Bytes.bigEndian 4 f.word.toNat ++ f.payload ∧
      (f.word &&& 0x7FFFFFFF).toNat = 3 ∧ f.word >>> 31 = 1 := by
  intro f
  have hcut : Fragment.cut (frame f.payload) = [f] := by decide +kernel
  obtain ⟨-, hmakeUp, -, hwords, -⟩ := frame_makes_one_record f.payload
  rw [hcut] at hmakeUp hwords
  obtain ⟨hspelling, hlength, hmark⟩ := hwords f List.mem_cons_self
  exact ⟨hcut, hmakeUp, hspelling, hlength, hmark.2 rfl⟩

/-- The empty record is one marked fragment without a payload, and not nothing. -/
example : frame [] = [0x80, 0, 0, 0] := by cbv

end NfsServer.Rpc.Record
