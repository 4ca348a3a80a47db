import NfsServer.Nfs.Conversion
import NfsServer.Proofs.Time

/-!
# The order in which clients see times

Times before the epoch are shown as the epoch, and times behind the last second that clients can be
shown are shown in this second.  They keep their nanoseconds there, though, so that a later time may
be shown before an earlier one.  This happens exactly if the earlier time is not before the last
second and has the greater fraction of a second (`Time.toNfs_le_toNfs_iff`); what replies say about
an object is in the order of its changes under the same condition (`Time.shown_in_order_iff`).
-/

namespace NfsServer

/-! ## Comparing times of clients -/

namespace Nfs.NfsTime

variable {s t : NfsTime}

/-- Times are compared by their seconds, and by their nanoseconds where these are the same. -/
instance : LE NfsTime :=
  ⟨fun s t => s.seconds < t.seconds ∨ s.seconds = t.seconds ∧ s.nanoseconds ≤ t.nanoseconds⟩

instance (s t : NfsTime) : Decidable (s ≤ t) := inferInstanceAs (Decidable (_ ∨ _))

theorem le_iff_toNat : s ≤ t ↔ s.seconds.toNat < t.seconds.toNat ∨
    s.seconds.toNat = t.seconds.toNat ∧ s.nanoseconds.toNat ≤ t.nanoseconds.toNat := by
  rw [UInt32.toNat_inj]
  exact Iff.rfl

theorem zero_le (t : NfsTime) : ⟨0, 0⟩ ≤ t := by
  rw [le_iff_toNat]
  rcases Nat.eq_zero_or_pos t.seconds.toNat with hzero | hpos
  · exact Or.inr ⟨hzero.symm, Nat.zero_le _⟩
  · exact Or.inl hpos

end Nfs.NfsTime

namespace Time

variable {s t : Time}

/-! ## Times as they are shown -/

/-- The last second that clients can be shown. -/
def lastSecond : Int := 0xFFFFFFFF

/-- What keeps the later time `t` from being shown before `s`: either `s` lies before the last
second that clients can be shown, or it has no greater fraction of a second. -/
def KeepsBehind (t s : Time) : Prop := s.seconds < lastSecond ∨ s.subsecond ≤ t.subsecond

instance (t s : Time) : Decidable (t.KeepsBehind s) := inferInstanceAs (Decidable (_ ∨ _))

theorem toNfs_of_neg (h : t.nanoseconds < 0) : t.toNfs = ⟨0, 0⟩ := by
  rw [toNfs, if_pos h]

theorem seconds_le_of_le (h : s ≤ t) : s.seconds ≤ t.seconds :=
  Int.ediv_le_ediv (by decide) h

/-- Of two times in the same second the later one has the greater fraction of it. -/
theorem subsecond_le_of_le (h : s ≤ t) (hseconds : s.seconds = t.seconds) :
    s.subsecond ≤ t.subsecond := by
  have hs := s.eq_of_parts
  have ht := t.eq_of_parts
  have hle : s.nanoseconds ≤ t.nanoseconds := h
  rw [hseconds] at hs
  omega

/-- A later time is shown behind an earlier one, or both are shown in the last second. -/
theorem toNfs_le_toNfs_iff (h : s ≤ t) : s.toNfs ≤ t.toNfs ↔ t.KeepsBehind s := by
  by_cases hneg : s.nanoseconds < 0
  · -- Before the epoch nothing can go wrong.
    have hseconds : s.seconds < 0 := Int.ediv_neg_of_neg_of_pos hneg (by decide)
    have hbehind : t.KeepsBehind s := Or.inl (hseconds.trans (by decide))
    rw [toNfs_of_neg hneg]
    exact iff_of_true (Nfs.NfsTime.zero_le _) hbehind
  · have hle : s.nanoseconds ≤ t.nanoseconds := h
    obtain ⟨hs, hns⟩ := toNat_toNfs (t := s) (by omega)
    obtain ⟨ht, hnt⟩ := toNat_toNfs (t := t) (by omega)
    have hseconds := seconds_le_of_le h
    have hsame := subsecond_le_of_le h
    have hfirst : 0 ≤ s.seconds := Int.ediv_nonneg (by omega) (by decide)
    have hnonneg := s.subsecond_nonneg
    have hnonneg' := t.subsecond_nonneg
    rw [Nfs.NfsTime.le_iff_toNat, hs, ht, hns, hnt, KeepsBehind, lastSecond]
    omega

/-- A later time is shown before an earlier one exactly under the condition above, and this is how
replies show when an object was modified and changed; every time that fits is got back from what is
shown, and a time of a client is shown as it is but for its nanoseconds, which are less than a
second. -/
theorem shown_in_order_iff (s t : Time) (hle : s ≤ t) (n : Nfs.NfsTime) :
    (s.toNfs ≤ t.toNfs ↔ t.KeepsBehind s) ∧
      (∀ (m m' : Metadata) (p p' : Path),
        (m.modified = s → m'.modified = t →
          ((m.attributesAt p).modified ≤ (m'.attributesAt p').modified ↔ t.KeepsBehind s) ∧
            (m.toWcc.modified ≤ m'.toWcc.modified ↔ t.KeepsBehind s)) ∧
        (m.changed = s → m'.changed = t →
          ((m.attributesAt p).changed ≤ (m'.attributesAt p').changed ↔ t.KeepsBehind s) ∧
            (m.toWcc.changed ≤ m'.toWcc.changed ↔ t.KeepsBehind s))) ∧
      (t.IsShown → ofNfs t.toNfs = t) ∧
      (ofNfs n).toNfs = clamped n := by
  have hiff := toNfs_le_toNfs_iff hle
  refine ⟨hiff, fun m m' p p' => ⟨?_, ?_⟩, ofNfs_toNfs, toNfs_ofNfs n⟩
  · rintro rfl rfl
    exact ⟨hiff, hiff⟩
  · rintro rfl rfl
    exact ⟨hiff, hiff⟩

/-- A time before the epoch, the last time that fits, and a time of a client with too many
nanoseconds. -/
theorem shown_in_order_iff_clamped :
    let s : Time := .ofParts (-1) 5
    let t : Time := .ofParts 0xFFFFFFFF 999999999
    s ≤ t ∧ s.toNfs ≤ t.toNfs ∧ ofNfs t.toNfs = t ∧
      (ofNfs ⟨7, 4000000000⟩).toNfs = ⟨7, 999999999⟩ := by
  intro s t
  have hle : s ≤ t := by decide
  have hbehind : t.KeepsBehind s := by decide
  have hshown : t.IsShown := by decide
  obtain ⟨hiff, -, hback, hclient⟩ := shown_in_order_iff s t hle ⟨7, 4000000000⟩
  exact ⟨hle, hiff.2 hbehind, hback hshown, hclient⟩

/-- The time behind the last one that fits is shown almost a second before it. -/
theorem later_time_shown_before :
    let s : Time := .ofParts 0xFFFFFFFF 999999999
    let t : Time := .ofParts 0x100000000 0
    s ≤ t ∧ t.toNfs ≤ s.toNfs ∧ ¬s.toNfs ≤ t.toNfs := by
  decide

end Time

end NfsServer
