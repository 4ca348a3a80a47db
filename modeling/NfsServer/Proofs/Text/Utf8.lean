import Mathlib.Algebra.Group.Nat.Defs
import Mathlib.Tactic.SplitIfs
import NfsServer.Text.Utf8

/-!
# Spelling and reading

Reading undoes spelling (`Utf8.lossy_encode`), and what can be read without an ill-formed part is
the spelling of the text that is read (`Utf8.encode_lossy`).  A sequence that has begun leaves open
which character it stands for: `Sequence.Covers` says which ones are still possible, and each
further byte settles six bits of their number.
-/

namespace NfsServer.Utf8

/-! ## Spelling -/

theorem encode_append (cs ds : Text) : encode (cs ++ ds) = encode cs ++ encode ds :=
  List.flatMap_append

theorem encode_cons (c : Char) (cs : Text) :
    encode (c :: cs) = String.utf8EncodeChar c ++ encode cs :=
  List.flatMap_cons

/-- The last bytes of the spelling of a character, each of which holds six bits of its number. -/
def tail : Nat → Nat → Bytes
  | 0, _ => []
  | n + 1, v => UInt8.ofNat (v / 64 ^ n % 64 + 128) :: tail n v

theorem toNat_six_bits (v : Nat) : (UInt8.ofNat (v % 64 + 128)).toNat = v % 64 + 128 := by
  rw [UInt8.toNat_ofNat']
  omega

theorem le_toNat_of_mem_tail {n v : Nat} {b : UInt8} (h : b ∈ tail n v) : 128 ≤ b.toNat := by
  induction n with
  | zero => cases h
  | succ n ih =>
    rcases List.mem_cons.1 h with rfl | h
    · rw [toNat_six_bits]
      exact Nat.le_add_left _ _
    · exact ih h

/-- The bytes of a character, by the size of its number. -/
theorem utf8EncodeChar_eq (c : Char) :
    String.utf8EncodeChar c =
      if c.toNat ≤ 0x7F then [UInt8.ofNat c.toNat]
      else if c.toNat ≤ 0x7FF then UInt8.ofNat (c.toNat / 64 % 32 + 0xC0) :: tail 1 c.toNat
      else if c.toNat ≤ 0xFFFF then UInt8.ofNat (c.toNat / 4096 % 16 + 0xE0) :: tail 2 c.toNat
      else UInt8.ofNat (c.toNat / 262144 % 8 + 0xF0) :: tail 3 c.toNat := by
  simp only [tail, Nat.reducePow, Nat.div_one]
  rfl

/-- Only characters of ASCII have bytes of ASCII. -/
theorem toNat_of_mem_utf8EncodeChar {c : Char} {b : UInt8} (h : b ∈ String.utf8EncodeChar c)
    (hb : b.toNat < 128) : c.toNat = b.toNat := by
  rw [utf8EncodeChar_eq] at h
  split_ifs at h with hone htwo hthree
  · rw [List.mem_singleton.1 h, UInt8.toNat_ofNat']
    omega
  all_goals
    rcases List.mem_cons.1 h with rfl | h
    · rw [UInt8.toNat_ofNat'] at hb
      omega
    · exact absurd (le_toNat_of_mem_tail h) (by omega)

theorem utf8EncodeChar_ne_nil (c : Char) : String.utf8EncodeChar c ≠ [] := by
  rw [utf8EncodeChar_eq]
  split_ifs <;> exact List.cons_ne_nil _ _

/-! ## Reading -/

/-- The parts of a byte string before which some sequence may have begun. -/
def scanFrom (pending : Option Sequence) (bs : Bytes) : List (Option Char) :=
  (bs.foldl Progress.step ⟨[], pending⟩).finish

theorem begin_eq (parts : List (Option Char)) (b : UInt8) :
    Progress.begin parts b =
      ⟨(Progress.begin [] b).parts ++ parts, (Progress.begin [] b).pending⟩ := by
  unfold Progress.begin
  split <;> rfl

/-- What a byte does does not depend on the parts behind. -/
theorem step_eq (parts : List (Option Char)) (pending : Option Sequence) (b : UInt8) :
    Progress.step ⟨parts, pending⟩ b =
      ⟨(Progress.step ⟨[], pending⟩ b).parts ++ parts,
        (Progress.step ⟨[], pending⟩ b).pending⟩ := by
  cases pending with
  | none => exact begin_eq parts b
  | some s =>
    unfold Progress.step
    dsimp only
    split_ifs
    · rfl
    · rfl
    · rw [begin_eq, begin_eq [none]]
      exact congrArg (Progress.mk · _) (by rw [List.append_assoc, List.singleton_append])

theorem finish_foldl (parts : List (Option Char)) (pending : Option Sequence) (bs : Bytes) :
    (bs.foldl Progress.step ⟨parts, pending⟩).finish = parts.reverse ++ scanFrom pending bs := by
  induction bs generalizing parts pending with
  | nil => cases pending <;> simp [scanFrom, Progress.finish]
  | cons b bs ih =>
    have hscan : scanFrom pending (b :: bs) =
        (Progress.step ⟨[], pending⟩ b).parts.reverse ++
          scanFrom (Progress.step ⟨[], pending⟩ b).pending bs := ih _ _
    rw [List.foldl_cons, step_eq, ih, hscan, List.reverse_append, List.append_assoc]

theorem scanFrom_cons (pending : Option Sequence) (b : UInt8) (bs : Bytes) :
    scanFrom pending (b :: bs) =
      (Progress.step ⟨[], pending⟩ b).parts.reverse ++
        scanFrom (Progress.step ⟨[], pending⟩ b).pending bs :=
  finish_foldl _ _ bs

theorem scanFrom_single {b : UInt8} (h : lead b = .single) (bs : Bytes) :
    scanFrom none (b :: bs) = some (Char.ofNat b.toNat) :: scanFrom none bs := by
  have hstep : Progress.step ⟨[], none⟩ b = ⟨[some (Char.ofNat b.toNat)], none⟩ := by
    show Progress.begin [] b = _
    unfold Progress.begin
    rw [h]
  rw [scanFrom_cons, hstep]
  rfl

theorem scanFrom_start {b : UInt8} {s : Sequence} (h : lead b = .start s) (bs : Bytes) :
    scanFrom none (b :: bs) = scanFrom (some s) bs := by
  have hstep : Progress.step ⟨[], none⟩ b = ⟨[], some s⟩ := by
    show Progress.begin [] b = _
    unfold Progress.begin
    rw [h]
  rw [scanFrom_cons, hstep]
  rfl

theorem scanFrom_stray {b : UInt8} (h : lead b = .stray) (bs : Bytes) :
    scanFrom none (b :: bs) = none :: scanFrom none bs := by
  have hstep : Progress.step ⟨[], none⟩ b = ⟨[none], none⟩ := by
    show Progress.begin [] b = _
    unfold Progress.begin
    rw [h]
  rw [scanFrom_cons, hstep]
  rfl

/-- The bits of a sequence behind a further byte. -/
def Sequence.push (s : Sequence) (b : UInt8) : Nat := s.bits * 64 + (b.toNat - 0x80)

theorem scanFrom_last {s : Sequence} {b : UInt8} (hb : s.low ≤ b ∧ b ≤ s.high)
    (hlast : s.missing ≤ 1) (bs : Bytes) :
    scanFrom (some s) (b :: bs) = some (Char.ofNat (s.push b)) :: scanFrom none bs := by
  rw [scanFrom_cons]
  unfold Progress.step
  dsimp only
  rw [if_pos hb, if_pos hlast]
  rfl

theorem scanFrom_more {s : Sequence} {b : UInt8} (hb : s.low ≤ b ∧ b ≤ s.high)
    (hmore : ¬s.missing ≤ 1) (bs : Bytes) :
    scanFrom (some s) (b :: bs) = scanFrom (some ⟨s.missing - 1, 0x80, 0xBF, s.push b⟩) bs := by
  rw [scanFrom_cons]
  unfold Progress.step
  dsimp only
  rw [if_pos hb, if_neg hmore]
  rfl

theorem scanFrom_broken {s : Sequence} {b : UInt8} (hb : ¬(s.low ≤ b ∧ b ≤ s.high)) (bs : Bytes) :
    scanFrom (some s) (b :: bs) = none :: scanFrom none (b :: bs) := by
  rw [scanFrom_cons, scanFrom_cons]
  unfold Progress.step
  dsimp only
  rw [if_neg hb, begin_eq]
  simp

/-! ## Sequences that have begun -/

/-- The character with this number is one that the sequence can become: its first bits have been
read, and its next byte is in the range. -/
structure Sequence.Covers (s : Sequence) (v : Nat) : Prop where
  bits : v / 64 ^ s.missing = s.bits
  low : s.low.toNat ≤ v / 64 ^ (s.missing - 1) % 64 + 0x80
  high : v / 64 ^ (s.missing - 1) % 64 + 0x80 ≤ s.high.toNat

/-- The sequence lacks at least one byte, and the next one cannot begin a spelling. -/
structure Sequence.IsOpen (s : Sequence) : Prop where
  missing : 0 < s.missing
  low : 0x80 ≤ s.low.toNat
  high : s.high.toNat ≤ 0xBF

theorem lead_ofNat {n : Nat} (h : n < 256) :
    lead (UInt8.ofNat n) =
      if n < 0x80 then .single
      else if n < 0xC2 then .stray
      else if n < 0xE0 then .start ⟨1, 0x80, 0xBF, n - 0xC0⟩
      else if n = 0xE0 then .start ⟨2, 0xA0, 0xBF, 0⟩
      else if n = 0xED then .start ⟨2, 0x80, 0x9F, 0xD⟩
      else if n < 0xF0 then .start ⟨2, 0x80, 0xBF, n - 0xE0⟩
      else if n = 0xF0 then .start ⟨3, 0x90, 0xBF, 0⟩
      else if n < 0xF4 then .start ⟨3, 0x80, 0xBF, n - 0xF0⟩
      else if n = 0xF4 then .start ⟨3, 0x80, 0x8F, 4⟩
      else .stray := by
  have hn : (UInt8.ofNat n).toNat = n := by
    rw [UInt8.toNat_ofNat']
    omega
  simp only [lead, UInt8.lt_iff_toNat_lt, ← UInt8.toNat_inj, hn]
  rfl

theorem isOpen_of_lead {b : UInt8} {s : Sequence} (h : lead b = .start s) : s.IsOpen := by
  unfold lead at h
  split_ifs at h <;> cases h <;> constructor <;> simp

theorem toNat_ofNat_of_isValidChar {v : Nat} (h : v.isValidChar) : (Char.ofNat v).toNat = v := by
  rw [Char.ofNat, dif_pos h]
  rfl

theorem utf8EncodeChar_of_lead {b : UInt8} (h : lead b = .single) :
    String.utf8EncodeChar (Char.ofNat b.toNat) = [b] := by
  have hb : b.toNat ≤ 0x7F := by
    rw [← UInt8.ofNat_toNat (x := b), lead_ofNat b.toNat_lt] at h
    split_ifs at h with hsingle
    exact Nat.lt_succ_iff.1 hsingle
  have hc : (Char.ofNat b.toNat).toNat = b.toNat := toNat_ofNat_of_isValidChar (Or.inl (by omega))
  rw [utf8EncodeChar_eq, hc, if_pos hb, UInt8.ofNat_toNat]

/-- A first byte begins the spelling of every character that it leaves possible. -/
theorem utf8EncodeChar_of_covers {b : UInt8} {s : Sequence} {v : Nat} (h : lead b = .start s)
    (hcovers : s.Covers v) :
    String.utf8EncodeChar (Char.ofNat v) = b :: tail s.missing v := by
  obtain ⟨hbits, hlow, hhigh⟩ := hcovers
  have hb : b.toNat < 256 := b.toNat_lt
  rw [← UInt8.ofNat_toNat (x := b)] at h ⊢
  generalize b.toNat = n at h hb ⊢
  rw [lead_ofNat hb] at h
  -- One case for each kind of first byte that others follow.
  split_ifs at h <;> cases h <;>
    simp only [Nat.reducePow, Nat.reduceSub, UInt8.reduceToNat, Nat.div_one] at hbits hlow hhigh
  all_goals
    have hvalid : v.isValidChar := by unfold Nat.isValidChar; omega
    rw [utf8EncodeChar_eq, toNat_ofNat_of_isValidChar hvalid]
    split_ifs <;> first | omega | exact congrArg (fun n => UInt8.ofNat n :: _) (by omega)

theorem lead_two_bytes : ∀ k < 32, 2 ≤ k →
    lead (UInt8.ofNat (k + 0xC0)) = .start ⟨1, 0x80, 0xBF, k⟩ := by
  decide

theorem lead_three_bytes : ∀ k < 16, lead (UInt8.ofNat (k + 0xE0)) =
    .start ⟨2, if k = 0 then 0xA0 else 0x80, if k = 0xD then 0x9F else 0xBF, k⟩ := by
  decide

theorem lead_four_bytes : ∀ k < 5, lead (UInt8.ofNat (k + 0xF0)) =
    .start ⟨3, if k = 0 then 0x90 else 0x80, if k = 4 then 0x8F else 0xBF, k⟩ := by
  decide

/-- The first byte of a character of several bytes leaves the character possible. -/
theorem exists_covers {c : Char} (h : ¬c.toNat ≤ 0x7F) :
    ∃ b s, lead b = .start s ∧ s.Covers c.toNat ∧
      String.utf8EncodeChar c = b :: tail s.missing c.toNat := by
  have hvalid : c.toNat < 0xD800 ∨ 0xDFFF < c.toNat ∧ c.toNat < 0x110000 := c.valid
  rw [utf8EncodeChar_eq, if_neg h]
  split_ifs with htwo hthree
  · refine ⟨_, _, lead_two_bytes (c.toNat / 64 % 32) (by omega) (by omega), ⟨?_, ?_, ?_⟩, rfl⟩ <;>
      simp only [Nat.reducePow, Nat.reduceSub, UInt8.reduceToNat, Nat.div_one] <;> omega
  · refine ⟨_, _, lead_three_bytes (c.toNat / 4096 % 16) (by omega), ⟨?_, ?_, ?_⟩, rfl⟩
    · simp only [Nat.reducePow]
      omega
    all_goals
      dsimp only
      split_ifs <;> simp only [Nat.reducePow, Nat.reduceSub, UInt8.reduceToNat] <;> omega
  · refine ⟨_, _, lead_four_bytes (c.toNat / 262144 % 8) (by omega), ⟨?_, ?_, ?_⟩, rfl⟩
    · simp only [Nat.reducePow]
      omega
    all_goals
      dsimp only
      split_ifs <;> simp only [Nat.reducePow, Nat.reduceSub, UInt8.reduceToNat] <;> omega

/-! ## Reading what was spelled -/

/-- The next byte of a character that is still possible is in the range, and the character remains
possible behind it. -/
theorem Sequence.Covers.next {s : Sequence} {v n : Nat} (h : s.Covers v) (hs : s.missing = n + 1) :
    let b := UInt8.ofNat (v / 64 ^ n % 64 + 128)
    (s.low ≤ b ∧ b ≤ s.high) ∧ s.push b = v / 64 ^ n := by
  obtain ⟨hbits, hlow, hhigh⟩ := h
  rw [hs] at hbits hlow hhigh
  rw [Nat.pow_succ, ← Nat.div_div_eq_div_mul] at hbits
  have hb : (UInt8.ofNat (v / 64 ^ n % 64 + 128)).toNat = v / 64 ^ n % 64 + 128 :=
    toNat_six_bits _
  refine ⟨⟨?_, ?_⟩, ?_⟩
  · rwa [UInt8.le_iff_toNat_le, hb]
  · rwa [UInt8.le_iff_toNat_le, hb]
  · unfold Sequence.push
    rw [hb]
    omega

theorem covers_push {s : Sequence} {v n : Nat} {b : UInt8} (hpush : s.push b = v / 64 ^ (n + 1)) :
    (⟨n + 1, 0x80, 0xBF, s.push b⟩ : Sequence).Covers v := by
  refine ⟨hpush.symm, ?_, ?_⟩
  · exact Nat.le_add_left _ _
  · show v / 64 ^ n % 64 + 0x80 ≤ 0xBF
    omega

/-- A character that is still possible is read when the rest of its spelling follows. -/
theorem scanFrom_tail {s : Sequence} {v : Nat} (hs : 0 < s.missing) (h : s.Covers v) (bs : Bytes) :
    scanFrom (some s) (tail s.missing v ++ bs) = some (Char.ofNat v) :: scanFrom none bs := by
  obtain ⟨n, hn⟩ := Nat.exists_eq_add_one.2 hs
  rw [hn]
  -- By induction on the bytes that are missing: each one is in the range, and leaves a sequence
  -- that still covers the character.
  induction n generalizing s with
  | zero =>
    obtain ⟨hrange, hpush⟩ := h.next hn
    have hv : s.push (UInt8.ofNat (v / 64 ^ 0 % 64 + 128)) = v := by
      rw [hpush, Nat.pow_zero, Nat.div_one]
    exact (scanFrom_last hrange (by omega) bs).trans (by rw [hv])
  | succ n ih =>
    obtain ⟨hrange, hpush⟩ := h.next hn
    refine (scanFrom_more hrange (by omega) _).trans ?_
    have hcovers := covers_push hpush
    rw [hn]
    exact ih (Nat.succ_pos n) hcovers rfl

/-- A character that is spelled is read. -/
theorem scanFrom_utf8EncodeChar (c : Char) (bs : Bytes) :
    scanFrom none (String.utf8EncodeChar c ++ bs) = some c :: scanFrom none bs := by
  by_cases h : c.toNat ≤ 0x7F
  · have hlead : lead (UInt8.ofNat c.toNat) = .single := by
      rw [lead_ofNat (by omega), if_pos (by omega)]
    have hc : (UInt8.ofNat c.toNat).toNat = c.toNat := by
      rw [UInt8.toNat_ofNat']
      omega
    rw [utf8EncodeChar_eq, if_pos h, List.singleton_append, scanFrom_single hlead, hc,
      Char.ofNat_toNat]
  · obtain ⟨b, s, hlead, hcovers, hspelling⟩ := exists_covers h
    rw [hspelling, List.cons_append, scanFrom_start hlead,
      scanFrom_tail (isOpen_of_lead hlead).missing hcovers, Char.ofNat_toNat]

theorem scan_encode (cs : Text) : scan (encode cs) = cs.map some := by
  induction cs with
  | nil => rfl
  | cons c cs ih =>
    rw [encode_cons, List.map_cons, ← ih]
    exact scanFrom_utf8EncodeChar c (encode cs)

/-- Reading undoes spelling. -/
theorem lossy_encode (cs : Text) : lossy (encode cs) = cs := by
  rw [lossy, scan_encode, List.map_map]
  exact List.map_id cs

theorem isValid_encode (cs : Text) : isValid (encode cs) = true := by
  rw [isValid, scan_encode, List.all_map]
  exact List.all_eq_true.2 fun _ _ => rfl

/-! ## Spelling what was read -/

/-- The sequence stands for the bytes read of it: they begin the spelling of every character that
it leaves possible. -/
structure Sequence.Opens (s : Sequence) (bs : Bytes) : Prop extends s.IsOpen where
  spells : ∀ v, s.Covers v → String.utf8EncodeChar (Char.ofNat v) = bs ++ tail s.missing v

theorem opens_of_lead {b : UInt8} {s : Sequence} (h : lead b = .start s) : s.Opens [b] where
  toIsOpen := isOpen_of_lead h
  spells _ := utf8EncodeChar_of_covers h

/-- A byte in the range is the next one of every character whose bits it goes on with. -/
theorem Sequence.IsOpen.covers_of_push {s : Sequence} (h : s.IsOpen) {b : UInt8}
    (hb : s.low ≤ b ∧ b ≤ s.high) {n v : Nat} (hn : s.missing = n + 1)
    (hv : v / 64 ^ n = s.push b) :
    s.Covers v ∧ UInt8.ofNat (v / 64 ^ n % 64 + 128) = b := by
  obtain ⟨-, hlow, hhigh⟩ := h
  rw [UInt8.le_iff_toNat_le, UInt8.le_iff_toNat_le] at hb
  unfold Sequence.push at hv
  have hsix : v / 64 ^ n % 64 + 0x80 = b.toNat := by omega
  refine ⟨⟨?_, ?_, ?_⟩, ?_⟩
  · rw [hn, Nat.pow_succ, ← Nat.div_div_eq_div_mul]
    omega
  · rw [hn, Nat.add_sub_cancel, hsix]
    exact hb.1
  · rw [hn, Nat.add_sub_cancel, hsix]
    exact hb.2
  · rw [hsix, UInt8.ofNat_toNat]

theorem Sequence.Opens.last {s : Sequence} {bs : Bytes} (h : s.Opens bs) {b : UInt8}
    (hb : s.low ≤ b ∧ b ≤ s.high) (hlast : s.missing ≤ 1) :
    String.utf8EncodeChar (Char.ofNat (s.push b)) = bs ++ [b] := by
  have hn : s.missing = 0 + 1 := Nat.le_antisymm hlast h.missing
  have hv : s.push b / 64 ^ 0 = s.push b := by rw [Nat.pow_zero, Nat.div_one]
  obtain ⟨hcovers, hbyte⟩ := h.covers_of_push hb hn hv
  rw [h.spells _ hcovers, hn, tail, hbyte, tail]

theorem Sequence.Opens.more {s : Sequence} {bs : Bytes} (h : s.Opens bs) {b : UInt8}
    (hb : s.low ≤ b ∧ b ≤ s.high) (hmore : ¬s.missing ≤ 1) :
    (⟨s.missing - 1, 0x80, 0xBF, s.push b⟩ : Sequence).Opens (bs ++ [b]) := by
  refine ⟨⟨Nat.sub_pos_of_lt (by omega), Nat.le_refl _, Nat.le_refl _⟩, fun v hv => ?_⟩
  have hn : s.missing = s.missing - 1 + 1 := by omega
  obtain ⟨hcovers, hbyte⟩ := h.covers_of_push hb hn hv.bits
  rw [h.spells v hcovers, hn, tail, hbyte, List.append_cons]
  rfl

theorem encode_of_cons {bs before : Bytes} {c : Char} {cs : Text} {parts : List (Option Char)}
    (hc : String.utf8EncodeChar c = before) (hparts : ∀ cs, parts = cs.map some → encode cs = bs)
    (h : some c :: parts = cs.map some) : encode cs = before ++ bs := by
  cases cs with
  | nil => cases h
  | cons c' cs =>
    obtain ⟨hhead, htail⟩ := List.cons.inj h
    rw [encode_cons, ← Option.some.inj hhead, hc, hparts cs htail]

/-- What is read without an ill-formed part spells what is read, with the bytes before it of which
a sequence has begun. -/
theorem encode_of_scanFrom (bs : Bytes) :
    (∀ cs, scanFrom none bs = cs.map some → encode cs = bs) ∧
      ∀ s before cs, s.Opens before → scanFrom (some s) bs = cs.map some →
        encode cs = before ++ bs := by
  induction bs with
  | nil =>
    refine ⟨fun cs h => ?_, fun s before cs _ h => ?_⟩
    · rw [List.map_eq_nil_iff.1 h.symm]
      rfl
    · cases cs <;> cases h
  | cons b bs ih =>
    obtain ⟨ihnone, ihsome⟩ := ih
    refine ⟨fun cs h => ?_, fun s before cs hs h => ?_⟩
    · cases hlead : lead b with
      | single =>
        rw [scanFrom_single hlead] at h
        exact encode_of_cons (utf8EncodeChar_of_lead hlead) ihnone h
      | start s =>
        rw [scanFrom_start hlead] at h
        exact ihsome s [b] cs (opens_of_lead hlead) h
      | stray =>
        rw [scanFrom_stray hlead] at h
        cases cs <;> cases h
    · by_cases hb : s.low ≤ b ∧ b ≤ s.high
      · by_cases hlast : s.missing ≤ 1
        · rw [scanFrom_last hb hlast] at h
          rw [encode_of_cons (hs.last hb hlast) ihnone h, List.append_assoc, List.singleton_append]
        · rw [scanFrom_more hb hlast] at h
          rw [ihsome _ _ cs (hs.more hb hlast) h, List.append_assoc, List.singleton_append]
      · -- A sequence that is broken off leaves an ill-formed part.
        rw [scanFrom_broken hb] at h
        cases cs <;> cases h

/-- A byte string without an ill-formed part is the spelling of the text that is read. -/
theorem encode_lossy {bs : Bytes} (h : isValid bs = true) : encode (lossy bs) = bs := by
  have hscan : scan bs = (lossy bs).map some := by
    rw [lossy, List.map_map]
    refine (List.map_id _).symm.trans (List.map_congr_left fun part hpart => ?_)
    obtain ⟨c, rfl⟩ := Option.isSome_iff_exists.1 (List.all_eq_true.1 h part hpart)
    rfl
  exact (encode_of_scanFrom bs).1 _ hscan

end NfsServer.Utf8
