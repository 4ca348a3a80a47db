import NfsServer.Proofs.Bytes
import NfsServer.Nfs.Results

/-!
# Reading undoes writing

A value whose data is within the limits of records (`Format.Fits`) is read back from its spelling,
whatever follows it, and from a strict beginning of its spelling nothing is read: the reader finds
the input truncated.  `Format.decode_encode` says this for every format.

A reader is a function from bytes to `Decoded`.  Its behaviour on a spelling is cut into two
properties, `ReadsBack` and `StopsInside`, which both survive the sequencing of readers.
-/

namespace NfsServer.Format

/-- A value whose data is no longer than a record and whose arrays hold no more words than a record
can. -/
def Fits : {α : Type} → Format α → α → Prop
  | _, void, _ => True
  | _, word, _ => True
  | _, hyper, _ => True
  | _, boolean, _ => True
  | _, member _ _, _ => True
  | _, fixedData _, _ => True
  | _, varData, bs => bs.length ≤ 4 * 2 ^ 20
  | _, words, ws => ws.length ≤ 2 ^ 20
  | _, optional f, v => ∀ a ∈ v, f.Fits a
  | _, chain f, vs => ∀ a ∈ vs, f.Fits a
  | _, pair f g, v => f.Fits v.1 ∧ g.Fits v.2
  | _, tagged tag arms, v => tag.Fits v.1 ∧ (arms v.1).Fits v.2
  | _, via _ g _ _ f, b => f.Fits (g b)

instance instDecidableFits : {α : Type} → (f : Format α) → (a : α) → Decidable (f.Fits a)
  | _, void, _ | _, word, _ | _, hyper, _ | _, boolean, _ | _, member _ _, _ | _, fixedData _, _ =>
    inferInstanceAs (Decidable True)
  | _, varData, bs => inferInstanceAs (Decidable (bs.length ≤ 4 * 2 ^ 20))
  | _, words, ws => inferInstanceAs (Decidable (ws.length ≤ 2 ^ 20))
  | _, optional f, v =>
    have := instDecidableFits f
    inferInstanceAs (Decidable (∀ a ∈ v, f.Fits a))
  | _, chain f, vs =>
    have := instDecidableFits f
    inferInstanceAs (Decidable (∀ a ∈ vs, f.Fits a))
  | _, pair f g, v =>
    have := instDecidableFits f v.1
    have := instDecidableFits g v.2
    inferInstanceAs (Decidable (f.Fits v.1 ∧ g.Fits v.2))
  | _, tagged tag arms, v =>
    have := instDecidableFits tag v.1
    have := instDecidableFits (arms v.1) v.2
    inferInstanceAs (Decidable (tag.Fits v.1 ∧ (arms v.1).Fits v.2))
  | _, via _ g _ _ f, b => instDecidableFits f (g b)

/-! ## Readers and spellings -/

section Readers

variable {α β γ : Type}

/-- The reader takes the spelling for the value and hands back what follows it. -/
def ReadsBack (read : Bytes → Decoded α) (spelling : Bytes) (a : α) : Prop :=
  ∀ rest, read (spelling ++ rest) = .ok (a, rest)

/-- The reader finds the input truncated when it ends inside the spelling. -/
def StopsInside (read : Bytes → Decoded α) (spelling : Bytes) : Prop :=
  ∀ front missing, front ++ missing = spelling → missing ≠ [] → read front = .error .truncated

/-- Reads with one reader and goes on with what the value selects. -/
def andThen (read : Bytes → Decoded α) (next : α → Bytes → Decoded β) (bs : Bytes) : Decoded β :=
  match read bs with
  | .error e => .error e
  | .ok (a, rest) => next a rest

theorem readsBack_pure (a : α) : ReadsBack (fun bs => .ok (a, bs)) [] a := fun _ => rfl

theorem stopsInside_nil (read : Bytes → Decoded α) : StopsInside read [] := by
  intro front missing h hne
  exact absurd (List.append_eq_nil_iff.1 h).2 hne

theorem ReadsBack.andThen {read : Bytes → Decoded α} {next : α → Bytes → Decoded β}
    {x y : Bytes} {a : α} {b : β} (hx : ReadsBack read x a) (hy : ReadsBack (next a) y b) :
    ReadsBack (andThen read next) (x ++ y) b := by
  intro rest
  rw [Format.andThen, List.append_assoc, hx]
  exact hy rest

theorem StopsInside.andThen {read : Bytes → Decoded α} {next : α → Bytes → Decoded β}
    {x y : Bytes} {a : α} (hx : ReadsBack read x a) (hx' : StopsInside read x)
    (hy : StopsInside (next a) y) : StopsInside (andThen read next) (x ++ y) := by
  intro front missing h hne
  unfold Format.andThen
  rcases List.append_eq_append_iff.1 h with ⟨inner, rfl, rfl⟩ | ⟨inner, rfl, hmissing⟩
  · by_cases hinner : inner = []
    · -- The input ends exactly between the two spellings.
      subst hinner
      have hfront : read front = .ok (a, []) := by simpa using hx []
      rw [hfront]
      exact hy [] y rfl hne
    · rw [hx' front inner rfl hinner]
  · rw [hx inner]
    exact hy inner missing hmissing.symm hne

theorem ReadsBack.map {read : Bytes → Decoded α} {x : Bytes} {a : α} (h : ReadsBack read x a)
    (f : α → β) : ReadsBack (Format.andThen read fun a bs => .ok (f a, bs)) x (f a) := by
  have key : ReadsBack (Format.andThen read fun a bs => .ok (f a, bs)) (x ++ []) (f a) :=
    h.andThen (readsBack_pure (f a))
  rwa [List.append_nil] at key

theorem StopsInside.map {read : Bytes → Decoded α} {x : Bytes} {a : α} (h : ReadsBack read x a)
    (h' : StopsInside read x) (f : α → β) :
    StopsInside (Format.andThen read fun a bs => .ok (f a, bs)) x := by
  have key : StopsInside (Format.andThen read fun a bs => .ok (f a, bs)) (x ++ []) :=
    StopsInside.andThen h h' (stopsInside_nil _)
  rwa [List.append_nil] at key

end Readers

/-! ## Numbers and padded data -/

theorem readsBack_decodeExact (bs : Bytes) : ReadsBack (decodeExact bs.length) bs bs := by
  intro rest
  rw [decodeExact, Bytes.split?_eq_some_iff.2 ⟨rfl, rfl⟩]

theorem stopsInside_decodeExact {n : Nat} {bs : Bytes} (h : bs.length = n) :
    StopsInside (decodeExact n) bs := by
  rintro front missing rfl hne
  have hlength : front.length < n := by
    rw [← h, List.length_append]
    exact Nat.lt_add_of_pos_right (List.length_pos_iff.2 hne)
  rw [decodeExact, Bytes.split?_eq_none_iff.2 hlength]

theorem decodeNumber_eq (n : Nat) :
    decodeNumber n = andThen (decodeExact n) fun front rest => .ok (Bytes.toNat front, rest) := by
  funext bs
  unfold decodeNumber andThen
  cases decodeExact n bs <;> rfl

theorem readsBack_decodeNumber {width n : Nat} (h : n < 256 ^ width) :
    ReadsBack (decodeNumber width) (Bytes.bigEndian width n) n := by
  have hexact := readsBack_decodeExact (Bytes.bigEndian width n)
  rw [Bytes.length_bigEndian] at hexact
  have key := hexact.map Bytes.toNat
  rwa [Bytes.toNat_bigEndian h, ← decodeNumber_eq] at key

theorem readsBack_decodeNumber_toNat (w : UInt32) :
    ReadsBack (decodeNumber 4) (Bytes.bigEndian 4 w.toNat) w.toNat :=
  readsBack_decodeNumber w.toNat_lt

theorem stopsInside_decodeNumber (width n : Nat) :
    StopsInside (decodeNumber width) (Bytes.bigEndian width n) := by
  have hexact := readsBack_decodeExact (Bytes.bigEndian width n)
  rw [Bytes.length_bigEndian] at hexact
  rw [decodeNumber_eq]
  exact StopsInside.map hexact (stopsInside_decodeExact (Bytes.length_bigEndian width n)) _

theorem four_dvd_add_padding (n : Nat) : 4 ∣ n + padding n := by
  unfold padding
  omega

theorem four_dvd_length_pad (bs : Bytes) : 4 ∣ (pad bs).length := by
  rw [pad, List.length_append, List.length_replicate]
  exact four_dvd_add_padding bs.length

theorem decodePadded_eq (n : Nat) :
    decodePadded n = andThen (decodeExact n) fun front =>
      andThen (decodeExact (padding n)) fun _ rest => .ok (front, rest) := by
  funext bs
  unfold decodePadded andThen
  rcases decodeExact n bs with e | ⟨front, rest⟩
  · rfl
  · dsimp only
    cases decodeExact (padding n) rest <;> rfl

theorem readsBack_decodePadded (bs : Bytes) : ReadsBack (decodePadded bs.length) (pad bs) bs := by
  have hzeros := readsBack_decodeExact (List.replicate (padding bs.length) 0)
  rw [List.length_replicate] at hzeros
  rw [decodePadded_eq]
  exact (readsBack_decodeExact bs).andThen (hzeros.map fun _ => bs)

theorem stopsInside_decodePadded (bs : Bytes) : StopsInside (decodePadded bs.length) (pad bs) := by
  have hzeros := readsBack_decodeExact (List.replicate (padding bs.length) 0)
  rw [List.length_replicate] at hzeros
  rw [decodePadded_eq]
  exact StopsInside.andThen (readsBack_decodeExact bs) (stopsInside_decodeExact rfl)
    (StopsInside.map hzeros (stopsInside_decodeExact List.length_replicate) fun _ => bs)

theorem decodeBoolean_eq :
    decodeBoolean = andThen (decodeNumber 4) fun n rest =>
      match n with
      | 0 => .ok (false, rest)
      | 1 => .ok (true, rest)
      | _ => .error .notBoolean := by
  funext bs
  unfold decodeBoolean andThen
  rcases decodeNumber 4 bs with e | ⟨_ | _ | n, rest⟩ <;> rfl

theorem readsBack_decodeBoolean (b : Bool) :
    ReadsBack decodeBoolean (Bytes.bigEndian 4 b.toNat) b := by
  intro rest
  have hnumber : b.toNat < 256 ^ 4 := by cases b <;> decide
  rw [decodeBoolean_eq, andThen, readsBack_decodeNumber hnumber rest]
  cases b <;> rfl

theorem stopsInside_decodeBoolean (b : Bool) :
    StopsInside decodeBoolean (Bytes.bigEndian 4 b.toNat) := by
  intro front missing h hne
  rw [decodeBoolean_eq, andThen, stopsInside_decodeNumber 4 b.toNat front missing h hne]

/-! ## Arrays of words -/

/-- The spelling of the words of an array behind its count. -/
def wordsSpelling (ws : List UInt32) : Bytes := ws.flatMap fun w => Bytes.bigEndian 4 w.toNat

theorem length_wordsSpelling (ws : List UInt32) : (wordsSpelling ws).length = 4 * ws.length := by
  induction ws with
  | nil => rfl
  | cons w ws ih =>
    have hcons : wordsSpelling (w :: ws) = Bytes.bigEndian 4 w.toNat ++ wordsSpelling ws := rfl
    rw [hcons, List.length_append, Bytes.length_bigEndian, ih, List.length_cons]
    omega

theorem decodeWords_succ (n : Nat) (seen : List UInt32) :
    decodeWords (n + 1) seen = andThen (decodeNumber 4) fun w =>
      decodeWords n (UInt32.ofNat w :: seen) := by
  funext bs
  unfold andThen
  rw [decodeWords]
  cases decodeNumber 4 bs <;> rfl

theorem readsBack_decodeWords (ws seen : List UInt32) :
    ReadsBack (decodeWords ws.length seen) (wordsSpelling ws) (seen.reverse ++ ws) := by
  induction ws generalizing seen with
  | nil =>
    intro rest
    rw [List.append_nil]
    rfl
  | cons w ws ih =>
    have hrest := ih (w :: seen)
    rw [List.reverse_cons, List.append_assoc, List.singleton_append] at hrest
    rw [List.length_cons, decodeWords_succ]
    apply (readsBack_decodeNumber_toNat w).andThen
    rwa [UInt32.ofNat_toNat]

theorem stopsInside_decodeWords (ws seen : List UInt32) :
    StopsInside (decodeWords ws.length seen) (wordsSpelling ws) := by
  induction ws generalizing seen with
  | nil => exact stopsInside_nil _
  | cons w ws ih =>
    rw [List.length_cons, decodeWords_succ]
    exact StopsInside.andThen (readsBack_decodeNumber_toNat w) (stopsInside_decodeNumber 4 _)
      (ih _)

/-! ## Chains -/

section Chains

variable {α : Type} {f : Format α}

/-- The spelling of the elements of a chain, without the word that closes it. -/
def linksSpelling (f : Format α) (vs : List α) : Bytes :=
  vs.flatMap fun a => Bytes.bigEndian 4 1 ++ f.encode a

theorem linksSpelling_cons (a : α) (vs : List α) :
    linksSpelling f (a :: vs) = Bytes.bigEndian 4 1 ++ (f.encode a ++ linksSpelling f vs) := by
  rw [← List.append_assoc]
  rfl

theorem four_mul_length_le_linksSpelling (vs : List α) :
    4 * vs.length ≤ (linksSpelling f vs).length := by
  induction vs with
  | nil => exact Nat.zero_le _
  | cons a vs ih =>
    rw [linksSpelling_cons, List.length_append, List.length_append, Bytes.length_bigEndian,
      List.length_cons]
    omega

theorem decodeChain_succ (element : Bytes → Decoded α) (rounds : Nat) (seen : List α) :
    decodeChain element (rounds + 1) seen = andThen decodeBoolean fun more =>
      match more with
      | false => fun rest => .ok (seen.reverse, rest)
      | true => andThen element fun a => decodeChain element rounds (a :: seen) := by
  funext bs
  unfold andThen
  rewrite [decodeChain]
  rcases decodeBoolean bs with e | ⟨_ | _, rest⟩
  · rfl
  · rfl
  · rfl

theorem readsBack_decodeChain {vs : List α} (h : ∀ a ∈ vs, ReadsBack f.decode (f.encode a) a)
    {rounds : Nat} (hrounds : vs.length < rounds) (seen : List α) :
    ReadsBack (decodeChain f.decode rounds seen) (linksSpelling f vs ++ Bytes.bigEndian 4 0)
      (seen.reverse ++ vs) := by
  obtain ⟨rounds, rfl⟩ := Nat.exists_eq_add_one_of_ne_zero (Nat.ne_zero_of_lt hrounds)
  rw [decodeChain_succ]
  induction vs generalizing rounds seen with
  | nil =>
    rw [← List.append_nil (linksSpelling f [] ++ _), List.append_nil seen.reverse]
    exact (readsBack_decodeBoolean false).andThen (readsBack_pure _)
  | cons a vs ih =>
    rw [List.length_cons, Nat.succ_lt_succ_iff] at hrounds
    obtain ⟨rounds, rfl⟩ := Nat.exists_eq_add_one_of_ne_zero (Nat.ne_zero_of_lt hrounds)
    have hrest := ih (fun b hb => h b (List.mem_cons_of_mem a hb)) (a :: seen) rounds hrounds
    rw [← decodeChain_succ, List.reverse_cons, List.append_assoc, List.singleton_append] at hrest
    rw [linksSpelling_cons, List.append_assoc, List.append_assoc]
    exact (readsBack_decodeBoolean true).andThen ((h a List.mem_cons_self).andThen hrest)

theorem stopsInside_decodeChain {vs : List α} (h : ∀ a ∈ vs, ReadsBack f.decode (f.encode a) a)
    (h' : ∀ a ∈ vs, StopsInside f.decode (f.encode a)) (rounds : Nat) (seen : List α) :
    StopsInside (decodeChain f.decode rounds seen) (linksSpelling f vs ++ Bytes.bigEndian 4 0) := by
  induction rounds generalizing vs seen with
  | zero => exact fun _ _ _ _ => rfl
  | succ rounds ih =>
    rw [decodeChain_succ]
    cases vs with
    | nil =>
      rw [← List.append_nil (linksSpelling f [] ++ _)]
      exact StopsInside.andThen (readsBack_decodeBoolean false) (stopsInside_decodeBoolean false)
        (stopsInside_nil _)
    | cons a vs =>
      rw [linksSpelling_cons, List.append_assoc, List.append_assoc]
      apply StopsInside.andThen (readsBack_decodeBoolean true) (stopsInside_decodeBoolean true)
      apply StopsInside.andThen (h a List.mem_cons_self) (h' a List.mem_cons_self)
      exact ih (fun b hb => h b (List.mem_cons_of_mem a hb))
        (fun b hb => h' b (List.mem_cons_of_mem a hb)) (a :: seen)

end Chains

/-! ## The readers of formats as sequences -/

section Equations

variable {α β : Type}

attribute [local simp] decode

theorem decode_word_eq :
    decode word = andThen (decodeNumber 4) fun n rest => .ok (UInt32.ofNat n, rest) := by
  funext bs
  cases hfirst : decodeNumber 4 bs <;> simp [andThen, hfirst]

theorem decode_hyper_eq :
    decode hyper = andThen (decodeNumber 8) fun n rest => .ok (UInt64.ofNat n, rest) := by
  funext bs
  cases hfirst : decodeNumber 8 bs <;> simp [andThen, hfirst]

theorem decode_member_eq [Enumeration α] (refusal : UInt32 → DecodeError) :
    decode (member α refusal) = andThen (decodeNumber 4) fun n rest =>
      match Enumeration.ofNumber? α (UInt32.ofNat n) with
      | some a => .ok (a, rest)
      | none => .error (refusal (UInt32.ofNat n)) := by
  funext bs
  rcases hfirst : decodeNumber 4 bs with e | ⟨n, rest⟩
  · simp [andThen, hfirst]
  · cases hmember : Enumeration.ofNumber? α (UInt32.ofNat n) <;> simp [andThen, hfirst, hmember]

theorem decode_fixedData_eq (n : Nat) :
    decode (fixedData n) = andThen (decodePadded n) fun front rest =>
      if h : front.length = n then .ok (⟨front, h⟩, rest) else .error .truncated := by
  funext bs
  cases hfirst : decodePadded n bs <;> simp [andThen, hfirst]

theorem decode_varData_eq :
    decode varData = andThen (decodeNumber 4) fun n rest =>
      if maxRecordLength < n then .error .dataTooLong else decodePadded n rest := by
  funext bs
  cases hfirst : decodeNumber 4 bs <;> simp [andThen, hfirst]

theorem decode_words_eq :
    decode words = andThen (decodeNumber 4) fun n rest =>
      if maxRecordLength / 4 < n then .error .arrayTooLong else decodeWords n [] rest := by
  funext bs
  cases hfirst : decodeNumber 4 bs <;> simp [andThen, hfirst]

theorem decode_optional_eq (f : Format α) :
    decode (optional f) = andThen decodeBoolean fun present =>
      match present with
      | false => fun rest => .ok (none, rest)
      | true => andThen f.decode fun a rest => .ok (some a, rest) := by
  funext bs
  rcases hfirst : decodeBoolean bs with e | ⟨_ | _, rest⟩
  · simp [andThen, hfirst]
  · simp [andThen, hfirst]
  · cases hnext : f.decode rest <;> simp [andThen, hfirst, hnext]

theorem decode_pair_eq (f : Format α) (g : Format β) :
    decode (pair f g) = andThen f.decode fun a => andThen g.decode fun b rest =>
      .ok ((a, b), rest) := by
  funext bs
  rcases hfirst : f.decode bs with e | ⟨a, rest⟩
  · simp [andThen, hfirst]
  · cases hnext : g.decode rest <;> simp [andThen, hfirst, hnext]

theorem decode_tagged_eq {τ : Type} {β : τ → Type} (tag : Format τ)
    (arms : (t : τ) → Format (β t)) :
    decode (tagged tag arms) = andThen tag.decode fun t => andThen (arms t).decode fun b rest =>
      .ok (⟨t, b⟩, rest) := by
  funext bs
  rcases hfirst : tag.decode bs with e | ⟨t, rest⟩
  · simp [andThen, hfirst]
  · cases hnext : (arms t).decode rest <;> simp [andThen, hfirst, hnext]

theorem decode_via_eq (f : α → β) (g : β → α) (right : ∀ b, f (g b) = b)
    (left : ∀ a, g (f a) = a) (inner : Format α) :
    decode (via f g right left inner) = andThen inner.decode fun a rest => .ok (f a, rest) := by
  funext bs
  cases hfirst : inner.decode bs <;> simp [andThen, hfirst]

end Equations

/-! ## All formats -/

variable {α : Type}

/-- Every value within the limits is read back from its spelling. -/
theorem readsBack_encode (f : Format α) {a : α} (h : f.Fits a) :
    ReadsBack f.decode (f.encode a) a := by
  induction f with
  | void => exact readsBack_pure ()
  | word =>
    have key := (readsBack_decodeNumber_toNat a).map UInt32.ofNat
    rwa [UInt32.ofNat_toNat, ← decode_word_eq] at key
  | hyper =>
    have hnumber : a.toNat < 256 ^ 8 := a.toNat_lt
    have key := (readsBack_decodeNumber hnumber).map UInt64.ofNat
    rwa [UInt64.ofNat_toNat, ← decode_hyper_eq] at key
  | boolean => exact readsBack_decodeBoolean a
  | member β refusal =>
    intro rest
    rw [decode_member_eq, andThen, encode, readsBack_decodeNumber_toNat]
    dsimp only
    rw [UInt32.ofNat_toNat, Enumeration.ofNumber?_eq_some_iff.2 rfl]
  | fixedData n =>
    intro rest
    obtain ⟨bs, rfl⟩ := a
    rw [decode_fixedData_eq, andThen, encode, readsBack_decodePadded bs rest]
    exact dif_pos rfl
  | varData =>
    rw [Fits] at h
    rw [decode_varData_eq]
    apply (readsBack_decodeNumber (by omega)).andThen
    intro rest
    have hlimit : ¬ maxRecordLength < a.length := Nat.not_lt.2 h
    simp only [if_neg hlimit, readsBack_decodePadded a rest]
  | words =>
    rw [Fits] at h
    rw [decode_words_eq]
    apply (readsBack_decodeNumber (by omega)).andThen
    intro rest
    have hlimit : ¬ maxRecordLength / 4 < a.length := Nat.not_lt.2 h
    simp only [if_neg hlimit]
    exact readsBack_decodeWords a [] rest
  | optional f ih =>
    rw [decode_optional_eq]
    cases a with
    | none =>
      rw [encode, ← List.append_nil (Bytes.bigEndian 4 0)]
      exact (readsBack_decodeBoolean false).andThen (readsBack_pure _)
    | some a => exact (readsBack_decodeBoolean true).andThen ((ih (h a rfl)).map some)
  | chain f ih =>
    intro rest
    rw [decode]
    -- Every link takes at least four bytes, so that the rounds do not run out.
    have hlinks := four_mul_length_le_linksSpelling (f := f) a
    refine readsBack_decodeChain (fun b hb => ih (h b hb)) ?_ [] rest
    rw [encode, List.length_append, List.length_append]
    change _ < (linksSpelling f a).length + _ + _ + 1
    omega
  | pair f g ihf ihg =>
    rw [decode_pair_eq]
    exact (ihf h.1).andThen ((ihg h.2).map fun b => (a.1, b))
  | tagged tag arms ihtag iharms =>
    rw [decode_tagged_eq]
    exact (ihtag h.1).andThen ((iharms a.1 h.2).map (Sigma.mk a.1))
  | via f g right left inner ih =>
    have key := (ih h).map f
    rwa [right, ← decode_via_eq f g right left] at key

/-- No strict beginning of the spelling of a value within the limits is read, or refused for any
other reason than that it ends early. -/
theorem stopsInside_encode (f : Format α) {a : α} (h : f.Fits a) :
    StopsInside f.decode (f.encode a) := by
  induction f with
  | void => exact stopsInside_nil _
  | word =>
    rw [decode_word_eq]
    exact StopsInside.map (readsBack_decodeNumber_toNat a) (stopsInside_decodeNumber 4 _) _
  | hyper =>
    have hnumber : a.toNat < 256 ^ 8 := a.toNat_lt
    rw [decode_hyper_eq]
    exact StopsInside.map (readsBack_decodeNumber hnumber) (stopsInside_decodeNumber 8 _) _
  | boolean => exact stopsInside_decodeBoolean a
  | member β refusal =>
    intro front missing hcut hne
    rw [decode_member_eq, andThen, stopsInside_decodeNumber 4 _ front missing hcut hne]
  | fixedData n =>
    intro front missing hcut hne
    obtain ⟨bs, rfl⟩ := a
    rw [decode_fixedData_eq, andThen, stopsInside_decodePadded bs front missing hcut hne]
  | varData =>
    rw [Fits] at h
    rw [decode_varData_eq]
    apply StopsInside.andThen (readsBack_decodeNumber (by omega)) (stopsInside_decodeNumber 4 _)
    have hlimit : ¬ maxRecordLength < a.length := Nat.not_lt.2 h
    simp only [if_neg hlimit]
    exact stopsInside_decodePadded a
  | words =>
    rw [Fits] at h
    rw [decode_words_eq]
    apply StopsInside.andThen (readsBack_decodeNumber (by omega)) (stopsInside_decodeNumber 4 _)
    have hlimit : ¬ maxRecordLength / 4 < a.length := Nat.not_lt.2 h
    simp only [if_neg hlimit]
    exact stopsInside_decodeWords a []
  | optional f ih =>
    rw [decode_optional_eq]
    cases a with
    | none =>
      rw [encode, ← List.append_nil (Bytes.bigEndian 4 0)]
      exact StopsInside.andThen (readsBack_decodeBoolean false) (stopsInside_decodeBoolean false)
        (stopsInside_nil _)
    | some a =>
      exact StopsInside.andThen (readsBack_decodeBoolean true) (stopsInside_decodeBoolean true)
        (StopsInside.map (readsBack_encode f (h a rfl)) (ih (h a rfl)) some)
  | chain f ih =>
    intro front
    exact stopsInside_decodeChain (fun b hb => readsBack_encode f (h b hb))
      (fun b hb => ih (h b hb)) (front.length + 1) [] front
  | pair f g ihf ihg =>
    rw [decode_pair_eq]
    exact StopsInside.andThen (readsBack_encode f h.1) (ihf h.1)
      (StopsInside.map (readsBack_encode g h.2) (ihg h.2) fun b => (a.1, b))
  | tagged tag arms ihtag iharms =>
    rw [decode_tagged_eq]
    exact StopsInside.andThen (readsBack_encode tag h.1) (ihtag h.1)
      (StopsInside.map (readsBack_encode (arms a.1) h.2) (iharms a.1 h.2) (Sigma.mk a.1))
  | via f g right left inner ih =>
    rw [decode_via_eq]
    exact StopsInside.map (readsBack_encode inner h) (ih h) f

theorem four_dvd_length_linksSpelling {f : Format α} (h : ∀ a, 4 ∣ (f.encode a).length)
    (vs : List α) : 4 ∣ (linksSpelling f vs).length := by
  induction vs with
  | nil => exact Nat.dvd_zero 4
  | cons a vs ih =>
    rw [linksSpelling_cons, List.length_append, List.length_append, Bytes.length_bigEndian]
    exact Nat.dvd_add (Nat.dvd_refl 4) (Nat.dvd_add (h a) ih)

/-- Every spelling fills whole words. -/
theorem four_dvd_length_encode (f : Format α) (a : α) : 4 ∣ (f.encode a).length := by
  induction f with
  | void => exact Nat.dvd_zero 4
  | word | boolean | member => exact ⟨1, Bytes.length_bigEndian 4 _⟩
  | hyper => exact ⟨2, Bytes.length_bigEndian 8 _⟩
  | fixedData n => exact four_dvd_length_pad a.val
  | varData =>
    rw [encode, List.length_append, Bytes.length_bigEndian]
    exact Nat.dvd_add (Nat.dvd_refl 4) (four_dvd_length_pad a)
  | words =>
    rw [encode, List.length_append, Bytes.length_bigEndian]
    exact Nat.dvd_add (Nat.dvd_refl 4) ⟨a.length, length_wordsSpelling a⟩
  | optional f ih =>
    cases a with
    | none => exact ⟨1, Bytes.length_bigEndian 4 0⟩
    | some a =>
      rw [encode, List.length_append, Bytes.length_bigEndian]
      exact Nat.dvd_add (Nat.dvd_refl 4) (ih a)
  | chain f ih =>
    rw [encode, List.length_append, Bytes.length_bigEndian]
    exact Nat.dvd_add (four_dvd_length_linksSpelling ih a) (Nat.dvd_refl 4)
  | pair f g ihf ihg =>
    rw [encode, List.length_append]
    exact Nat.dvd_add (ihf a.1) (ihg a.2)
  | tagged tag arms ihtag iharms =>
    rw [encode, List.length_append]
    exact Nat.dvd_add (ihtag a.1) (iharms a.1 a.2)
  | via f g right left inner ih => exact ih (g a)

/-- Values within the limits have different spellings. -/
theorem encode_injOn (f : Format α) {a b : α} (ha : f.Fits a) (hb : f.Fits b)
    (h : f.encode a = f.encode b) : a = b := by
  have hread := readsBack_encode f ha []
  rw [h, readsBack_encode f hb []] at hread
  exact (congrArg Prod.fst (Except.ok.inj hread)).symm

/-- A value within the limits is read back from its spelling and whatever follows it, of which
nothing is taken; the spelling fills whole words; and every strict beginning of it is found to be
truncated. -/
theorem decode_encode (f : Format α) (a : α) (h : f.Fits a) :
    (∀ rest, f.decode (f.encode a ++ rest) = .ok (a, rest)) ∧
      4 ∣ (f.encode a).length ∧
      ∀ front, front <+: f.encode a → front ≠ f.encode a → f.decode front = .error .truncated := by
  refine ⟨readsBack_encode f h, four_dvd_length_encode f a, ?_⟩
  rintro front ⟨missing, hcut⟩ hne
  refine stopsInside_encode f h front missing hcut fun hnil => hne ?_
  rw [← hcut, hnil, List.append_nil]

/-- A directory page with an entry whose name needs padding is read back in front of other data, and
is truncated when its last byte is missing. -/
theorem decode_encode_directoryPage :
    let page : Nfs.DirectoryPage Nfs.EntryPlus :=
      ⟨none, Bytes.zeros 8, [⟨7, [0x61, 0x62, 0x63, 0x64, 0x65], 3, none, some ⟨[0x2F]⟩⟩], true⟩
    Format.Fits Wire.format page ∧
      NfsServer.decode (Nfs.DirectoryPage Nfs.EntryPlus) (NfsServer.encode page ++ [1, 2]) =
        .ok (page, [1, 2]) ∧
      4 ∣ (NfsServer.encode page).length ∧
      NfsServer.decode (Nfs.DirectoryPage Nfs.EntryPlus) (NfsServer.encode page).dropLast =
        .error .truncated := by
  intro page
  have hfits : Format.Fits Wire.format page := by simp [page, Wire.format, Format.Fits]
  obtain ⟨hread, hwords, hfront⟩ := decode_encode Wire.format page hfits
  have hlength : (NfsServer.encode page).dropLast.length ≠ (NfsServer.encode page).length := by
    decide
  exact ⟨hfits, hread [1, 2], hwords, hfront _ (List.dropLast_prefix _) fun heq =>
    hlength (congrArg List.length heq)⟩

end NfsServer.Format
