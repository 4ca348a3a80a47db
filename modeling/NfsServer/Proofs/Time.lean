import Mathlib.Data.UInt
import NfsServer.Time

/-!
# Times as clients see them

Clients tell apart all times from the epoch on whose seconds fit into 32 bits
(`Time.ofNfs_toNfs`), and a time that they ask for is shown as they gave it, but for nanoseconds
that make a second or more (`Time.toNfs_ofNfs`).
-/

namespace NfsServer.Time

/-- Clients can be shown the time as it is. -/
def IsShown (t : Time) : Prop := 0 ≤ t.seconds ∧ t.seconds < 0x100000000

instance (t : Time) : Decidable t.IsShown := inferInstanceAs (Decidable (_ ∧ _))

/-- A time of a client, with no more nanoseconds than there are in a second. -/
def clamped (t : Nfs.NfsTime) : Nfs.NfsTime := ⟨t.seconds, min t.nanoseconds 999999999⟩

theorem eq_of_parts (t : Time) : t.nanoseconds = t.seconds * second + t.subsecond := by
  rw [seconds, subsecond, Int.mul_comm]
  exact (Int.mul_ediv_add_emod _ _).symm

theorem subsecond_nonneg (t : Time) : 0 ≤ t.subsecond := Int.emod_nonneg _ (by decide)

theorem subsecond_lt (t : Time) : t.subsecond < 1000000000 := Int.emod_lt_of_pos _ (by decide)

/-- The parts of a time that is not before the epoch, as clients see them. -/
theorem toNat_toNfs {t : Time} (h : 0 ≤ t.nanoseconds) :
    t.toNfs.seconds.toNat = min t.seconds.toNat 0xFFFFFFFF ∧
      t.toNfs.nanoseconds.toNat = t.subsecond.toNat := by
  have hsubsecond := t.subsecond_lt
  rw [toNfs, if_neg (by omega)]
  constructor
  · exact UInt32.toNat_ofNat_of_lt' (show _ < 0x100000000 by omega)
  · exact UInt32.toNat_ofNat_of_lt' (show _ < 0x100000000 by omega)

/-- A time is what clients are shown. -/
theorem ofNfs_toNfs {t : Time} (h : t.IsShown) : ofNfs t.toNfs = t := by
  obtain ⟨hpos, hlt⟩ := h
  have hparts := t.eq_of_parts
  have hnonneg := t.subsecond_nonneg
  have hsubsecond := t.subsecond_lt
  unfold second at hparts
  obtain ⟨hs, hn⟩ := toNat_toNfs (t := t) (by omega)
  unfold ofNfs ofParts second
  rw [hs, hn]
  obtain ⟨n⟩ := t
  congr 1
  dsimp only at *
  omega

/-- What clients ask for they are shown. -/
theorem toNfs_ofNfs (t : Nfs.NfsTime) : (ofNfs t).toNfs = clamped t := by
  have hlt := t.seconds.toNat_lt
  have hnanoseconds : (ofNfs t).nanoseconds =
      t.seconds.toNat * 1000000000 + min (t.nanoseconds.toNat : Int) 999999999 := rfl
  have hseconds : (ofNfs t).seconds = t.seconds.toNat := by
    unfold seconds second
    omega
  have hsubsecond : (ofNfs t).subsecond = min (t.nanoseconds.toNat : Int) 999999999 := by
    unfold subsecond second
    omega
  obtain ⟨hs, hn⟩ := toNat_toNfs (t := ofNfs t) (by omega)
  have hsame : (ofNfs t).toNfs.seconds = t.seconds := by
    apply UInt32.toNat.inj
    omega
  have hmin : (ofNfs t).toNfs.nanoseconds = min t.nanoseconds 999999999 := by
    apply UInt32.toNat.inj
    have hbound : (999999999 : UInt32).toNat = 999999999 := rfl
    rw [UInt32.toNat_min, hn, hsubsecond]
    omega
  rw [clamped, ← hsame, ← hmin]

end NfsServer.Time
