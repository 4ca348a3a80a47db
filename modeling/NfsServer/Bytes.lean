/-!
# Byte strings

`Bytes` is the type of everything that travels or is stored uninterpreted.  This file gives
big-endian and little-endian numbers (`Bytes.bigEndian`, `Bytes.toNat`, `Bytes.littleEndian`), the
cut of a byte string after a given number of bytes (`Bytes.split?`), and strings of a fixed length
(`FixedBytes`).
-/

namespace NfsServer

/-- A string of bytes. -/
abbrev Bytes := List UInt8

/-- A string of exactly `n` bytes. -/
abbrev FixedBytes (n : Nat) := { bs : Bytes // bs.length = n }

namespace Bytes

/-- The `width` low bytes of `n`, the least significant first. -/
def littleEndian : (width n : Nat) → Bytes
  | 0, _ => []
  | width + 1, n => UInt8.ofNat n :: littleEndian width (n / 256)

/-- The `width` low bytes of `n`, the most significant first. -/
def bigEndian (width n : Nat) : Bytes := (littleEndian width n).reverse

/-- The number that a big-endian byte string spells. -/
def toNat (bs : Bytes) : Nat :=
  bs.foldl (fun n b => n * 256 + b.toNat) 0

theorem length_littleEndian (width n : Nat) : (littleEndian width n).length = width := by
  induction width generalizing n with
  | zero => rfl
  | succ width ih => simp [littleEndian, ih]

theorem length_bigEndian (width n : Nat) : (bigEndian width n).length = width := by
  rw [bigEndian, List.length_reverse, length_littleEndian]

/-- A 64-bit number as eight big-endian bytes. -/
def ofHyper (w : UInt64) : FixedBytes 8 :=
  ⟨bigEndian 8 w.toNat, length_bigEndian 8 w.toNat⟩

/-- The string of `n` zero bytes. -/
def zeros (n : Nat) : FixedBytes n :=
  ⟨List.replicate n 0, List.length_replicate⟩

/-- The first `n` bytes and the rest, or nothing when there are fewer than `n`. -/
def split? (n : Nat) (bs : Bytes) : Option (Bytes × Bytes) :=
  let (front, rest) := bs.splitAt n
  if front.length = n then some (front, rest) else none

theorem split?_eq_some_iff {n : Nat} {bs front rest : Bytes} :
    split? n bs = some (front, rest) ↔ bs = front ++ rest ∧ front.length = n := by
  unfold split?
  rw [List.splitAt_eq]
  constructor
  · intro h
    dsimp only at h
    split at h
    · next hn =>
      obtain ⟨rfl, rfl⟩ := Prod.mk.inj (Option.some.inj h)
      exact ⟨(List.take_append_drop n bs).symm, hn⟩
    · exact absurd h (by simp)
  · rintro ⟨rfl, rfl⟩
    simp

theorem split?_eq_none_iff {n : Nat} {bs : Bytes} : split? n bs = none ↔ bs.length < n := by
  have hlen : (bs.take n).length = n ↔ n ≤ bs.length := by rw [List.length_take]; omega
  rw [← Nat.not_le, ← hlen]
  unfold split?
  rw [List.splitAt_eq]
  show (if (bs.take n).length = n then some (bs.take n, bs.drop n) else none) = none ↔ _
  constructor
  · intro h hn
    rw [if_pos hn] at h
    cases h
  · intro h
    exact if_neg h

end Bytes

end NfsServer
