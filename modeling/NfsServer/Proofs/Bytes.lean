import Mathlib.Tactic.Ring
import NfsServer.Bytes

/-!
# Numbers spelled in bytes

A big-endian spelling of a number that fits into its width reads back as that number
(`Bytes.toNat_bigEndian`), and no other byte string of that width does (`Bytes.bigEndian_toNat`).
-/

namespace NfsServer.Bytes

theorem foldr_littleEndian (width n : Nat) :
    (littleEndian width n).foldr (fun b m => m * 256 + b.toNat) 0 = n % 256 ^ width := by
  induction width generalizing n with
  | zero => simp [littleEndian, Nat.mod_one]
  | succ width ih =>
    have hbyte : (UInt8.ofNat n).toNat = n % 256 := rfl
    rw [littleEndian, List.foldr_cons, ih, hbyte, Nat.pow_succ', Nat.mod_mul]
    ring

theorem toNat_bigEndian_eq_mod (width n : Nat) : toNat (bigEndian width n) = n % 256 ^ width := by
  rw [toNat, bigEndian, List.foldl_reverse]
  exact foldr_littleEndian width n

theorem toNat_bigEndian {width n : Nat} (h : n < 256 ^ width) : toNat (bigEndian width n) = n := by
  rw [toNat_bigEndian_eq_mod, Nat.mod_eq_of_lt h]

theorem littleEndian_foldr (bs : Bytes) :
    littleEndian bs.length (bs.foldr (fun b m => m * 256 + b.toNat) 0) = bs := by
  induction bs with
  | nil => rfl
  | cons b bs ih =>
    have hdiv (n : Nat) : (n * 256 + b.toNat) / 256 = n := by
      have := b.toNat_lt
      omega
    have hmod (n : Nat) : UInt8.ofNat (n * 256 + b.toNat) = b := by
      refine UInt8.toNat_inj.1 ?_
      have := b.toNat_lt
      rw [UInt8.toNat_ofNat']
      omega
    rw [List.length_cons, List.foldr_cons, littleEndian, hdiv, hmod, ih]

/-- A byte string is the spelling of the number that it spells. -/
theorem bigEndian_toNat (bs : Bytes) : bigEndian bs.length (toNat bs) = bs := by
  rw [bigEndian, toNat, ← List.foldr_reverse, ← List.length_reverse, littleEndian_foldr,
    List.reverse_reverse]

theorem toNat_lt (bs : Bytes) : toNat bs < 256 ^ bs.length := by
  have h : toNat bs = toNat bs % 256 ^ bs.length := by
    rw [← toNat_bigEndian_eq_mod, bigEndian_toNat]
  rw [h]
  exact Nat.mod_lt _ (Nat.pow_pos (by decide))

end NfsServer.Bytes
