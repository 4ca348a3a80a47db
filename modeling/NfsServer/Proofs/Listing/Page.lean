import NfsServer.Listing.Page
import NfsServer.Proofs.Bytes

/-!
# Pages are parts of listings

A page holds consecutive entries of a listing, each with its index and one more as its cookie
(`Page.of_ok`).  It holds none only where none are left, and it is marked as the end exactly when it
reaches it.
-/

namespace NfsServer

namespace Page

variable {ε : Type} [Wire ε]

/-- The entries that are taken are the first ones, with the cookies that follow. -/
theorem cutFrom_eq (budget : PageBudget) (make : ListedEntry → UInt64 → ε)
    (used directoryUsed cookie : Nat) (entries : List ListedEntry) :
    let cut := cutFrom budget make used directoryUsed cookie entries
    cut.entries.length ≤ entries.length ∧
      cut.entries = ((entries.zipIdx cookie).take cut.entries.length).map
        fun e => make e.1 (UInt64.ofNat (e.2 + 1)) := by
  induction entries generalizing used directoryUsed cookie with
  | nil => exact ⟨Nat.le_refl _, rfl⟩
  | cons e entries ih =>
    unfold cutFrom
    dsimp only
    split
    · exact ⟨Nat.zero_le _, rfl⟩
    · split
      · exact ⟨Nat.zero_le _, rfl⟩
      · obtain ⟨hlength, heq⟩ := ih (used + entryBytes budget (make e (UInt64.ofNat (cookie + 1))))
          (directoryUsed + directoryBytes e) (cookie + 1)
        refine ⟨Nat.succ_le_succ hlength, ?_⟩
        rw [List.zipIdx_cons, List.length_cons, List.take_succ_cons, List.map_cons, ← heq]

/-- What a page consists of. -/
theorem of_ok {l : Listing} {start : Nat} {budget : PageBudget}
    {make : ListedEntry → UInt64 → ε} {page : Page ε} (h : of l start budget make = .ok page) :
    page.entries = (((l.entries.drop start).zipIdx start).take page.entries.length).map
        (fun e => make e.1 (UInt64.ofNat (e.2 + 1))) ∧
      page.entries.length ≤ l.entries.length - start ∧
      (page.endOfList = true ↔ page.entries.length = l.entries.length - start) ∧
      (page.entries = [] → l.entries.length ≤ start) := by
  unfold of at h
  dsimp only at h
  split at h
  · cases h
  · next hsmall =>
    obtain rfl := Except.ok.inj h
    obtain ⟨hlength, heq⟩ := cutFrom_eq budget make overhead 0 start (l.entries.drop start)
    rw [List.length_drop] at hlength hsmall
    refine ⟨heq, hlength, ?_, fun hnil => ?_⟩
    · dsimp only
      rw [decide_eq_true_eq, List.length_drop]
    · rw [not_and, Classical.not_not] at hsmall
      exact Nat.le_of_sub_eq_zero (hsmall hnil)

end Page

namespace Listing

theorem ofHyper_ne_zeros {w : UInt64} (h : w ≠ 0) : Bytes.ofHyper w ≠ Bytes.zeros 8 := by
  intro heq
  have hbytes : Bytes.toNat (Bytes.bigEndian 8 w.toNat) = Bytes.toNat (List.replicate 8 0) :=
    congrArg (fun bs : FixedBytes 8 => Bytes.toNat bs.val) heq
  rw [Bytes.toNat_bigEndian w.toNat_lt] at hbytes
  exact h (UInt64.toNat_inj.1 hbytes)

/-- The verifier of a listing is never the one that goes with every listing. -/
theorem verifierOf_ne_zeros (directory : Location) (names : List Bytes) :
    verifierOf directory names ≠ Bytes.zeros 8 := by
  unfold verifierOf
  apply ofHyper_ne_zeros
  split
  · decide
  · assumption

/-- Where a client goes on: at the first entry, or behind the entry whose cookie it has, if its
verifier is good. -/
theorem resume_ok {l : Listing} {cookie : UInt64} {verifier : FixedBytes 8} {start : Nat}
    (h : l.resume cookie verifier = .ok start) :
    start = cookie.toNat ∧ start ≤ l.entries.length ∧
      (cookie ≠ 0 → verifier = Bytes.zeros 8 ∨ verifier = l.verifier) := by
  unfold resume at h
  split at h
  · next hzero =>
    cases h
    rw [hzero]
    exact ⟨rfl, Nat.zero_le _, fun hne => absurd rfl hne⟩
  · split at h
    · cases h
    · next hverifier =>
      split at h
      · next hle =>
        cases h
        rw [not_and_or, Classical.not_not, Classical.not_not] at hverifier
        exact ⟨rfl, hle, fun _ => hverifier⟩
      · cases h

end Listing

end NfsServer
