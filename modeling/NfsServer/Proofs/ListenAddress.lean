import Mathlib.Data.List.TakeDrop
import Mathlib.Data.List.TakeWhile
import NfsServer.ListenAddress

/-!
# Which texts are addresses

The addresses are the texts of a host without a colon, a colon, and a port (`parse_eq_ok_iff`).  A
port is a decimal number that is not too large; zeros and a plus sign before it do not count
(`IsNumeral`).  So an address is read back from its host and its port as one writes them
(`parse_text`), and each of the two refusals is given for its own reason.  The loopback hosts, which
are tried one after the other, are all different (`hostAddress_injective`).
-/

namespace NfsServer.ListenAddress

/-! ## Ports -/

/-- The text is a number: decimal digits, and at least one of them. -/
def IsDecimal (digits : Text) (n : Nat) : Prop :=
  digits ≠ [] ∧ (∀ c ∈ digits, c.isDigit = true) ∧ Nat.ofDigitChars 10 digits 0 = n

/-- The text is a number, which a plus sign may precede. -/
def IsNumeral (text : Text) (n : Nat) : Prop :=
  ∃ digits, (text = digits ∨ text = '+' :: digits) ∧ IsDecimal digits n

theorem isDecimal_repr (n : Nat) : IsDecimal n.repr.toList n := by
  rw [Nat.toList_repr]
  exact ⟨Nat.toDigits_ne_nil,
    fun _ hc => Nat.isDigit_of_mem_toDigits (by decide) (by decide) hc,
    Nat.ofDigitChars_ten_toDigits⟩

theorem IsDecimal.not_mem {digits : Text} {n : Nat} (h : IsDecimal digits n) {c : Char}
    (hc : c.isDigit = false) : c ∉ digits := fun hmem => by
  rw [h.2.1 c hmem] at hc
  cases hc

theorem isDigit_iff {c : Char} : c.isDigit = true ↔ '0' ≤ c ∧ c ≤ '9' := by
  rw [Char.isDigit, Bool.and_eq_true, decide_eq_true_eq, decide_eq_true_eq]
  exact Iff.rfl

theorem digitsValue_eq_some_iff {digits : Text} {n : Nat} :
    digitsValue digits = some n ↔
      (∀ c ∈ digits, c.isDigit = true) ∧ Nat.ofDigitChars 10 digits 0 = n := by
  unfold digitsValue
  generalize 0 = k
  induction digits generalizing k with
  | nil => simp
  | cons c digits ih =>
    rw [List.foldl_cons, List.forall_mem_cons, Nat.ofDigitChars_cons, Option.bind_some, isDigit_iff]
    by_cases hdigit : '0' ≤ c ∧ c ≤ '9'
    · rw [if_pos hdigit, ih, Nat.mul_comm]
      exact and_congr_left' (iff_and_self.2 fun _ => hdigit)
    · have hnone : ∀ cs : Text, cs.foldl (fun n c => n.bind fun n =>
          if '0' ≤ c ∧ c ≤ '9' then some (n * 10 + (c.toNat - '0'.toNat)) else none) none =
            none := by
        intro cs
        induction cs with
        | nil => rfl
        | cons c cs ih => exact ih
      rw [if_neg hdigit, hnone]
      exact iff_of_false nofun fun h => hdigit h.1.1

theorem port?_eq_some_iff {text : Text} {n : Nat} :
    port? text = some n ↔ IsNumeral text n ∧ n ≤ maxPort := by
  have hread : ∀ digits : Text, (if digits = [] then none
      else (digitsValue digits).filter (· ≤ maxPort)) = some n ↔
        IsDecimal digits n ∧ n ≤ maxPort := by
    intro digits
    unfold IsDecimal
    split
    · next hnil => exact iff_of_false nofun fun h => h.1.1 hnil
    · next hne =>
      rw [Option.filter_eq_some_iff, digitsValue_eq_some_iff, decide_eq_true_eq]
      simp only [ne_eq, hne, not_false_eq_true, true_and]
  unfold port?
  dsimp only
  split
  · next rest =>
    rw [hread]
    refine ⟨fun h => ⟨⟨rest, Or.inr rfl, h.1⟩, h.2⟩, ?_⟩
    rintro ⟨⟨digits, rfl | heq, hdecimal⟩, hle⟩
    · exact absurd List.mem_cons_self (hdecimal.not_mem (by decide : Char.isDigit '+' = false))
    · obtain rfl := (List.cons.inj heq).2
      exact ⟨hdecimal, hle⟩
  · next hsign =>
    rw [hread]
    refine ⟨fun h => ⟨⟨text, Or.inl rfl, h.1⟩, h.2⟩, ?_⟩
    rintro ⟨⟨digits, rfl | heq, hdecimal⟩, hle⟩
    · exact ⟨hdecimal, hle⟩
    · exact absurd heq (hsign digits)

/-! ## Addresses -/

/-- A text is cut before the first of the characters that divide it. -/
theorem span_append {separator : Char} {front rest : Text} (hfront : separator ∉ front) :
    (front ++ separator :: rest).span (· ≠ separator) = (front, separator :: rest) := by
  have hpass : ∀ c ∈ front, decide (c ≠ separator) = true := fun c hc =>
    decide_eq_true fun heq => hfront (heq ▸ hc)
  rw [List.span_eq_takeWhile_dropWhile, List.takeWhile_append_of_pos hpass,
    List.dropWhile_append_of_pos hpass]
  simp

/-- A text has no colon, or else the first one divides it. -/
theorem colon_cases (text : Text) :
    ':' ∉ text ∨ ∃ host port, text = host ++ ':' :: port ∧ ':' ∉ host := by
  by_cases h : ':' ∈ text
  · exact Or.inr (List.eq_append_cons_of_mem h)
  · exact Or.inl h

theorem parse_of_not_mem {text : Text} (h : ':' ∉ text) : parse text = .error .missingColon := by
  have hpass : ∀ c ∈ text, decide (c ≠ ':') = true := fun c hc =>
    decide_eq_true fun heq => h (heq ▸ hc)
  have hall : text.span (· ≠ ':') = (text, []) := by
    rw [List.span_eq_takeWhile_dropWhile]
    exact Prod.ext (List.takeWhile_eq_self_iff.2 hpass) (List.dropWhile_eq_nil_iff.2 hpass)
  unfold parse
  rw [hall]

theorem parse_append {host port : Text} (hhost : ':' ∉ host) :
    parse (host ++ ':' :: port) =
      (port? port).elim (.error .badPort) fun n => .ok ⟨host, n⟩ := by
  unfold parse
  rw [span_append hhost]
  dsimp only
  cases port? port <;> rfl

/-- What is read as an address is the text of a host, a colon and a port. -/
theorem parse_eq_ok_iff {text : Text} {a : ListenAddress} :
    parse text = .ok a ↔ ∃ port, text = a.host ++ ':' :: port ∧ ':' ∉ a.host ∧
      IsNumeral port a.port ∧ a.port ≤ maxPort := by
  constructor
  · intro h
    rcases colon_cases text with hmissing | ⟨host, port, rfl, hhost⟩
    · rw [parse_of_not_mem hmissing] at h
      cases h
    · rw [parse_append hhost] at h
      cases hport : port? port with
      | none =>
        rw [hport] at h
        cases h
      | some n =>
        rw [hport] at h
        obtain rfl := Except.ok.inj h
        exact ⟨port, rfl, hhost, port?_eq_some_iff.1 hport⟩
  · rintro ⟨port, rfl, hhost, hport⟩
    rw [parse_append hhost, port?_eq_some_iff.2 hport, Option.elim_some]

theorem parse_eq_missingColon_iff {text : Text} :
    parse text = .error .missingColon ↔ ':' ∉ text := by
  refine ⟨fun h => ?_, parse_of_not_mem⟩
  rcases colon_cases text with hmissing | ⟨host, port, rfl, hhost⟩
  · exact hmissing
  · rw [parse_append hhost] at h
    cases hport : port? port <;> rw [hport] at h <;> cases h

/-- A port is refused if it is no number or too large. -/
theorem parse_eq_badPort_iff {text : Text} :
    parse text = .error .badPort ↔ ∃ host port, text = host ++ ':' :: port ∧ ':' ∉ host ∧
      ∀ n ≤ maxPort, ¬IsNumeral port n := by
  constructor
  · intro h
    rcases colon_cases text with hmissing | ⟨host, port, rfl, hhost⟩
    · rw [parse_of_not_mem hmissing] at h
      cases h
    · refine ⟨host, port, rfl, hhost, fun n hn hnumeral => ?_⟩
      rw [parse_append hhost, port?_eq_some_iff.2 ⟨hnumeral, hn⟩] at h
      cases h
  · rintro ⟨host, port, rfl, hhost, hport⟩
    have hnone : port? port = none := Option.eq_none_iff_forall_ne_some.2 fun n hn =>
      hport n (port?_eq_some_iff.1 hn).2 (port?_eq_some_iff.1 hn).1
    rw [parse_append hhost, hnone, Option.elim_none]

/-- An address is read back from its text. -/
theorem parse_text {a : ListenAddress} (hhost : ':' ∉ a.host) (hport : a.port ≤ maxPort) :
    parse (a.host ++ ':' :: a.port.repr.toList) = .ok a :=
  parse_eq_ok_iff.2 ⟨_, rfl, hhost, ⟨_, Or.inl rfl, isDecimal_repr a.port⟩, hport⟩

/-- Leading zeros and a sign do not count. -/
example : parse "::+00111".toList = .error .badPort ∧
    parse "h:+00111".toList = .ok ⟨['h'], 111⟩ := by decide

/-! ## Loopback hosts -/

theorem repr_injective {m n : Nat} (h : m.repr.toList = n.repr.toList) : m = n := by
  rw [← (isDecimal_repr m).2.2, h, (isDecimal_repr n).2.2]

/-- No loopback host is tried twice. -/
theorem hostAddress_injective {m n : UInt16} (h : hostAddress m = hostAddress n) : m = n := by
  have htext : ∀ k : UInt16, (hostAddress k).toList = "127.88.".toList ++
      ((k.toNat / 256).repr.toList ++ '.' :: (k.toNat % 256).repr.toList) := by
    intro k
    unfold hostAddress
    simp only [String.toList_append, List.append_assoc]
    rfl
  have hdots : ∀ k : Nat, '.' ∉ k.repr.toList := fun k => (isDecimal_repr k).not_mem (by decide)
  have htail := List.append_cancel_left ((htext m).symm.trans ((congrArg _ h).trans (htext n)))
  have hparts := congrArg (fun cs : Text => cs.span (· ≠ '.')) htail
  rw [span_append (hdots _), span_append (hdots _)] at hparts
  obtain ⟨hhigh, hlow⟩ := Prod.mk.inj hparts
  have hhigh' := repr_injective hhigh
  have hlow' := repr_injective (List.cons.inj hlow).2
  rw [← UInt16.toNat_inj]
  omega

end NfsServer.ListenAddress
