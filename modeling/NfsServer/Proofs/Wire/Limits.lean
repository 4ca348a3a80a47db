import NfsServer.Proofs.Wire.RoundTrip

/-!
# What is within the limits

A reader refuses data and arrays that are longer than a record can hold, so that every value that
it gives could also be written and read back (`Format.fits_of_decode`).  Values of a format without
such data are always within the limits (`Format.fits_of_isFixed`).
-/

namespace NfsServer.Format

variable {α β : Type}

theorem andThen_eq_ok {read : Bytes → Decoded α} {next : α → Bytes → Decoded β} {bs rest : Bytes}
    {b : β} (h : andThen read next bs = .ok (b, rest)) :
    ∃ a between, read bs = .ok (a, between) ∧ next a between = .ok (b, rest) := by
  unfold andThen at h
  split at h
  · cases h
  · next a between hread => exact ⟨a, between, hread, h⟩

theorem length_of_decodeExact {n : Nat} {bs front rest : Bytes}
    (h : decodeExact n bs = .ok (front, rest)) : front.length = n := by
  unfold decodeExact at h
  split at h
  · next cut hcut =>
    cases h
    exact (Bytes.split?_eq_some_iff.1 hcut).2
  · cases h

theorem length_of_decodePadded {n : Nat} {bs front rest : Bytes}
    (h : decodePadded n bs = .ok (front, rest)) : front.length = n := by
  rw [decodePadded_eq] at h
  obtain ⟨front', between, hfront, h⟩ := andThen_eq_ok h
  obtain ⟨zeros, between', -, h⟩ := andThen_eq_ok h
  cases h
  exact length_of_decodeExact hfront

theorem length_of_decodeWords {n : Nat} {seen ws : List UInt32} {bs rest : Bytes}
    (h : decodeWords n seen bs = .ok (ws, rest)) : ws.length = seen.length + n := by
  induction n generalizing seen bs with
  | zero =>
    cases h
    exact List.length_reverse
  | succ n ih =>
    rw [decodeWords_succ] at h
    obtain ⟨w, between, -, h⟩ := andThen_eq_ok h
    rw [ih h, List.length_cons, Nat.add_assoc, Nat.add_comm 1]

theorem forall_of_decodeChain {P : α → Prop} {element : Bytes → Decoded α}
    (helement : ∀ {bs a rest}, element bs = .ok (a, rest) → P a) {rounds : Nat} {seen vs : List α}
    (hseen : ∀ a ∈ seen, P a) {bs rest : Bytes}
    (h : decodeChain element rounds seen bs = .ok (vs, rest)) : ∀ a ∈ vs, P a := by
  induction rounds generalizing seen bs with
  | zero => cases h
  | succ rounds ih =>
    rw [decodeChain_succ] at h
    obtain ⟨more, between, -, h⟩ := andThen_eq_ok h
    cases more with
    | false =>
      cases h
      exact fun a ha => hseen a (List.mem_reverse.1 ha)
    | true =>
      obtain ⟨a, between', ha, h⟩ := andThen_eq_ok h
      exact ih (List.forall_mem_cons.2 ⟨helement ha, hseen⟩) h

/-- Every value that is read is within the limits. -/
theorem fits_of_decode (f : Format α) {a : α} {bs rest : Bytes}
    (h : f.decode bs = .ok (a, rest)) : f.Fits a := by
  induction f generalizing bs rest with
  | void | word | hyper | boolean | member | fixedData => trivial
  | varData =>
    rw [decode_varData_eq] at h
    obtain ⟨n, between, -, h⟩ := andThen_eq_ok h
    split at h
    · cases h
    · next hlimit =>
      rw [Fits, length_of_decodePadded h]
      exact Nat.not_lt.1 hlimit
  | words =>
    rw [decode_words_eq] at h
    obtain ⟨n, between, -, h⟩ := andThen_eq_ok h
    split at h
    · cases h
    · next hlimit =>
      rw [Fits, length_of_decodeWords h, List.length_nil, Nat.zero_add]
      exact Nat.not_lt.1 hlimit
  | optional f ih =>
    rw [decode_optional_eq] at h
    obtain ⟨present, between, -, h⟩ := andThen_eq_ok h
    cases present with
    | false =>
      cases h
      exact fun _ ha => absurd ha (Option.not_mem_none _)
    | true =>
      obtain ⟨a', between', ha', h⟩ := andThen_eq_ok h
      cases h
      rintro _ ⟨⟩
      exact ih ha'
  | chain f ih => exact forall_of_decodeChain ih (fun _ ha => absurd ha List.not_mem_nil) h
  | pair f g ihf ihg =>
    rw [decode_pair_eq] at h
    obtain ⟨a', between, ha', h⟩ := andThen_eq_ok h
    obtain ⟨b', between', hb', h⟩ := andThen_eq_ok h
    cases h
    exact ⟨ihf ha', ihg hb'⟩
  | tagged tag arms ihtag iharms =>
    rw [decode_tagged_eq] at h
    obtain ⟨t, between, ht, h⟩ := andThen_eq_ok h
    obtain ⟨b', between', hb', h⟩ := andThen_eq_ok h
    cases h
    exact ⟨ihtag ht, iharms t hb'⟩
  | via f g right left inner ih =>
    rw [decode_via_eq] at h
    obtain ⟨a', between, ha', h⟩ := andThen_eq_ok h
    cases h
    rw [Fits, left]
    exact ih ha'

/-- Whether a format has no data and no arrays of variable length; a union counts as if it had. -/
def isFixed : {α : Type} → Format α → Bool
  | _, void => true
  | _, word => true
  | _, hyper => true
  | _, boolean => true
  | _, member _ _ => true
  | _, fixedData _ => true
  | _, varData => false
  | _, words => false
  | _, optional f => f.isFixed
  | _, chain f => f.isFixed
  | _, pair f g => f.isFixed && g.isFixed
  | _, tagged _ _ => false
  | _, via _ _ _ _ f => f.isFixed

theorem fits_of_isFixed {f : Format α} (h : f.isFixed = true) (a : α) : f.Fits a := by
  induction f with
  | void | word | hyper | boolean | member | fixedData => trivial
  | varData | words | tagged => cases h
  | optional f ih => exact fun a _ => ih h a
  | chain f ih => exact fun a _ => ih h a
  | pair f g ihf ihg =>
    obtain ⟨hf, hg⟩ := (Bool.and_eq_true _ _).mp h
    exact ⟨ihf hf a.1, ihg hg a.2⟩
  | via f g right left inner ih => exact ih h (g a)

end NfsServer.Format
