import NfsServer.Proofs.Wire.Limits
import NfsServer.Rpc.Message

/-!
# Writing undoes reading

What a reader takes for a value is the spelling of that value, but for the padding, which it skips
(`Format.encode_decode`).  `Format.paddingMask` says which bytes of a spelling are padding, so that
two inputs that are read as the same value differ in padding only.

A number that a format refuses ends reading with an error wherever it is met.  `Format.Meets` says
that reading an input in one format comes to reading a later part of it in another format.
-/

namespace NfsServer.Format

/-! ## Padding -/

/-- For each byte of the spelling of a value, whether it is padding. -/
def paddingMask : {α : Type} → Format α → α → List Bool
  | _, void, _ => []
  | _, word, _ => List.replicate 4 false
  | _, hyper, _ => List.replicate 8 false
  | _, boolean, _ => List.replicate 4 false
  | _, member _ _, _ => List.replicate 4 false
  | _, fixedData n, _ => List.replicate n false ++ List.replicate (padding n) true
  | _, varData, bs =>
    List.replicate 4 false ++
      (List.replicate bs.length false ++ List.replicate (padding bs.length) true)
  | _, words, ws => List.replicate 4 false ++ List.replicate (4 * ws.length) false
  | _, optional f, v =>
    match v with
    | none => List.replicate 4 false
    | some a => List.replicate 4 false ++ f.paddingMask a
  | _, chain f, vs =>
    vs.flatMap (fun a => List.replicate 4 false ++ f.paddingMask a) ++ List.replicate 4 false
  | _, pair f g, v => f.paddingMask v.1 ++ g.paddingMask v.2
  | _, tagged tag arms, v => tag.paddingMask v.1 ++ (arms v.1).paddingMask v.2
  | _, via _ g _ _ f, b => f.paddingMask (g b)

/-- A byte string with zeros where the mask holds. -/
def blank (mask : List Bool) (bs : Bytes) : Bytes :=
  List.zipWith (fun isPadding b => if isPadding then 0 else b) mask bs

/-- Between the two inputs there are as many bytes as the mask is long, and with blank padding they
are the spelling. -/
def Spends (mask : List Bool) (spelling bs rest : Bytes) : Prop :=
  ∃ spent, bs = spent ++ rest ∧ spent.length = mask.length ∧ spelling = blank mask spent

theorem Spends.nothing (bs : Bytes) : Spends [] [] bs bs := ⟨[], rfl, rfl, rfl⟩

theorem Spends.append {mask mask' : List Bool} {spelling spelling' bs between rest : Bytes}
    (h : Spends mask spelling bs between) (h' : Spends mask' spelling' between rest) :
    Spends (mask ++ mask') (spelling ++ spelling') bs rest := by
  obtain ⟨spent, rfl, hlength, rfl⟩ := h
  obtain ⟨spent', rfl, hlength', rfl⟩ := h'
  refine ⟨spent ++ spent', (List.append_assoc _ _ _).symm, ?_, ?_⟩
  · rw [List.length_append, List.length_append, hlength, hlength']
  · exact (List.zipWith_append hlength.symm).symm

theorem Spends.data (spent rest : Bytes) :
    Spends (List.replicate spent.length false) spent (spent ++ rest) rest := by
  refine ⟨spent, rfl, List.length_replicate.symm, ?_⟩
  induction spent with
  | nil => rfl
  | cons b bs ih => exact congrArg (b :: ·) ih

theorem Spends.padding (spent rest : Bytes) :
    Spends (List.replicate spent.length true) (List.replicate spent.length 0) (spent ++ rest)
      rest := by
  refine ⟨spent, rfl, List.length_replicate.symm, ?_⟩
  induction spent with
  | nil => rfl
  | cons b bs ih => exact congrArg (0 :: ·) ih

theorem Spends.length_le {mask : List Bool} {spelling bs rest : Bytes}
    (h : Spends mask spelling bs rest) : rest.length ≤ bs.length := by
  obtain ⟨spent, rfl, -, -⟩ := h
  rw [List.length_append]
  exact Nat.le_add_left _ _

/-! ## What readers spend -/

variable {α β : Type}

theorem eq_append_of_decodeExact {n : Nat} {bs front rest : Bytes}
    (h : decodeExact n bs = .ok (front, rest)) : bs = front ++ rest := by
  unfold decodeExact at h
  split at h
  · next cut hcut =>
    cases h
    exact (Bytes.split?_eq_some_iff.1 hcut).1
  · cases h

theorem spends_decodeNumber {width n : Nat} {bs rest : Bytes}
    (h : decodeNumber width bs = .ok (n, rest)) :
    n < 256 ^ width ∧
      Spends (List.replicate width false) (Bytes.bigEndian width n) bs rest := by
  rw [decodeNumber_eq] at h
  obtain ⟨front, between, hfront, h⟩ := andThen_eq_ok h
  cases h
  obtain rfl := length_of_decodeExact hfront
  obtain rfl := eq_append_of_decodeExact hfront
  rw [Bytes.bigEndian_toNat]
  exact ⟨Bytes.toNat_lt front, Spends.data front _⟩

theorem spends_decodePadded {n : Nat} {bs front rest : Bytes}
    (h : decodePadded n bs = .ok (front, rest)) :
    Spends (List.replicate n false ++ List.replicate (padding n) true) (pad front) bs rest := by
  obtain rfl := length_of_decodePadded h
  rw [decodePadded_eq] at h
  obtain ⟨front', between, hfront, h⟩ := andThen_eq_ok h
  obtain ⟨behind, rest', hbehind, h⟩ := andThen_eq_ok h
  cases h
  obtain rfl := eq_append_of_decodeExact hfront
  obtain rfl := eq_append_of_decodeExact hbehind
  have hpadding := Spends.padding behind rest
  rw [length_of_decodeExact hbehind] at hpadding
  exact (Spends.data front _).append hpadding

theorem spends_decodeBoolean {b : Bool} {bs rest : Bytes} (h : decodeBoolean bs = .ok (b, rest)) :
    Spends (List.replicate 4 false) (Bytes.bigEndian 4 b.toNat) bs rest := by
  rw [decodeBoolean_eq] at h
  obtain ⟨n, between, hn, h⟩ := andThen_eq_ok h
  have hspends := (spends_decodeNumber hn).2
  split at h
  · cases h
    exact hspends
  · cases h
    exact hspends
  · cases h

/-- Words behind a count, from the first of them on that has not been read yet. -/
theorem spends_decodeWords {n : Nat} {seen ws : List UInt32} {bs rest : Bytes}
    (h : decodeWords n seen bs = .ok (ws, rest)) :
    ∃ others, ws = seen.reverse ++ others ∧
      Spends (List.replicate (4 * others.length) false) (wordsSpelling others) bs rest := by
  induction n generalizing seen bs with
  | zero =>
    cases h
    exact ⟨[], (List.append_nil _).symm, Spends.nothing _⟩
  | succ n ih =>
    rw [decodeWords_succ] at h
    obtain ⟨w, between, hw, h⟩ := andThen_eq_ok h
    obtain ⟨others, rfl, hothers⟩ := ih h
    obtain ⟨hlt, hspends⟩ := spends_decodeNumber hw
    have hword : (UInt32.ofNat w).toNat = w := UInt32.toNat_ofNat_of_lt' hlt
    refine ⟨UInt32.ofNat w :: others, by rw [List.reverse_cons, List.append_assoc]; rfl, ?_⟩
    have key := hspends.append hothers
    rw [List.replicate_append_replicate] at key
    rw [List.length_cons, Nat.mul_succ, Nat.add_comm, wordsSpelling, List.flatMap_cons, hword]
    exact key

/-- The links of a chain, from the first of them on that has not been read yet. -/
theorem spends_decodeChain {f : Format α} {element : Bytes → Decoded α}
    (helement : ∀ {bs a rest}, element bs = .ok (a, rest) →
      Spends (f.paddingMask a) (f.encode a) bs rest)
    {rounds : Nat} {seen vs : List α} {bs rest : Bytes}
    (h : decodeChain element rounds seen bs = .ok (vs, rest)) :
    ∃ others, vs = seen.reverse ++ others ∧
      Spends ((chain f).paddingMask others) ((chain f).encode others) bs rest := by
  induction rounds generalizing seen bs with
  | zero => cases h
  | succ rounds ih =>
    rw [decodeChain_succ] at h
    obtain ⟨more, between, hmore, h⟩ := andThen_eq_ok h
    have hflag := spends_decodeBoolean hmore
    cases more with
    | false =>
      cases h
      exact ⟨[], (List.append_nil _).symm, hflag⟩
    | true =>
      obtain ⟨a, between', ha, h⟩ := andThen_eq_ok h
      obtain ⟨others, rfl, hothers⟩ := ih h
      refine ⟨a :: others, by rw [List.reverse_cons, List.append_assoc]; rfl, ?_⟩
      have key := (hflag.append (helement ha)).append hothers
      rw [paddingMask, encode, List.flatMap_cons, List.flatMap_cons, List.append_assoc,
        List.append_assoc (_ ++ _)]
      exact key

/-- What is read as a value is its spelling, but for the padding. -/
theorem spends_decode (f : Format α) {a : α} {bs rest : Bytes}
    (h : f.decode bs = .ok (a, rest)) : Spends (f.paddingMask a) (f.encode a) bs rest := by
  induction f generalizing bs rest with
  | void =>
    cases h
    exact Spends.nothing bs
  | word =>
    rw [decode_word_eq] at h
    obtain ⟨n, between, hn, h⟩ := andThen_eq_ok h
    cases h
    obtain ⟨hlt, hspends⟩ := spends_decodeNumber hn
    rw [encode, UInt32.toNat_ofNat_of_lt' hlt]
    exact hspends
  | hyper =>
    rw [decode_hyper_eq] at h
    obtain ⟨n, between, hn, h⟩ := andThen_eq_ok h
    cases h
    obtain ⟨hlt, hspends⟩ := spends_decodeNumber hn
    rw [encode, UInt64.toNat_ofNat_of_lt' hlt]
    exact hspends
  | boolean => exact spends_decodeBoolean h
  | member β refusal =>
    rw [decode_member_eq] at h
    obtain ⟨n, between, hn, h⟩ := andThen_eq_ok h
    obtain ⟨hlt, hspends⟩ := spends_decodeNumber hn
    split at h
    · next b hb =>
      cases h
      rw [encode, Enumeration.ofNumber?_eq_some_iff.1 hb, UInt32.toNat_ofNat_of_lt' hlt]
      exact hspends
    · cases h
  | fixedData n =>
    rw [decode_fixedData_eq] at h
    obtain ⟨front, between, hfront, h⟩ := andThen_eq_ok h
    split at h
    · cases h
      exact spends_decodePadded hfront
    · cases h
  | varData =>
    rw [decode_varData_eq] at h
    obtain ⟨n, between, hn, h⟩ := andThen_eq_ok h
    split at h
    · cases h
    · obtain rfl := length_of_decodePadded h
      exact (spends_decodeNumber hn).2.append (spends_decodePadded h)
  | words =>
    rw [decode_words_eq] at h
    obtain ⟨n, between, hn, h⟩ := andThen_eq_ok h
    split at h
    · cases h
    · have hlength := length_of_decodeWords h
      obtain ⟨others, rfl, hothers⟩ := spends_decodeWords h
      rw [List.length_nil, Nat.zero_add] at hlength
      subst hlength
      exact (spends_decodeNumber hn).2.append hothers
  | optional f ih =>
    rw [decode_optional_eq] at h
    obtain ⟨present, between, hpresent, h⟩ := andThen_eq_ok h
    have hflag := spends_decodeBoolean hpresent
    cases present with
    | false =>
      cases h
      exact hflag
    | true =>
      obtain ⟨a', between', ha', h⟩ := andThen_eq_ok h
      cases h
      exact hflag.append (ih ha')
  | chain f ih =>
    obtain ⟨others, rfl, hothers⟩ := spends_decodeChain ih h
    exact hothers
  | pair f g ihf ihg =>
    rw [decode_pair_eq] at h
    obtain ⟨a', between, ha', h⟩ := andThen_eq_ok h
    obtain ⟨b', between', hb', h⟩ := andThen_eq_ok h
    cases h
    exact (ihf ha').append (ihg hb')
  | tagged tag arms ihtag iharms =>
    rw [decode_tagged_eq] at h
    obtain ⟨t, between, ht, h⟩ := andThen_eq_ok h
    obtain ⟨b', between', hb', h⟩ := andThen_eq_ok h
    cases h
    exact (ihtag ht).append (iharms t hb')
  | via f g right left inner ih =>
    rw [decode_via_eq] at h
    obtain ⟨a', between, ha', h⟩ := andThen_eq_ok h
    cases h
    rw [paddingMask, encode, left]
    exact ih ha'

/-! ## Refused numbers -/

/-- Reading `bs` in a format comes to reading `bs'` in another one. -/
inductive Meets : {α β : Type} → Format α → Bytes → Format β → Bytes → Prop
  | here {α : Type} {f : Format α} {bs : Bytes} : Meets f bs f bs
  | first {α β γ : Type} {f : Format α} {g : Format β} {h : Format γ} {bs bs' : Bytes} :
    Meets f bs h bs' → Meets (pair f g) bs h bs'
  | second {α β γ : Type} {f : Format α} {g : Format β} {h : Format γ} {bs rest bs' : Bytes}
    {a : α} : f.decode bs = .ok (a, rest) → Meets g rest h bs' → Meets (pair f g) bs h bs'
  | tag {τ γ : Type} {β : τ → Type} {tag : Format τ} {arms : (t : τ) → Format (β t)}
    {h : Format γ} {bs bs' : Bytes} : Meets tag bs h bs' → Meets (tagged tag arms) bs h bs'
  | arm {τ γ : Type} {β : τ → Type} {tag : Format τ} {arms : (t : τ) → Format (β t)}
    {h : Format γ} {bs rest bs' : Bytes} {t : τ} :
    tag.decode bs = .ok (t, rest) → Meets (arms t) rest h bs' → Meets (tagged tag arms) bs h bs'
  | flag {α : Type} {f : Format α} {bs : Bytes} : Meets (optional f) bs boolean bs
  | content {α γ : Type} {f : Format α} {h : Format γ} {bs rest bs' : Bytes} :
    decodeBoolean bs = .ok (true, rest) → Meets f rest h bs' → Meets (optional f) bs h bs'
  | linkFlag {α : Type} {f : Format α} {bs : Bytes} : Meets (chain f) bs boolean bs
  | link {α γ : Type} {f : Format α} {h : Format γ} {bs rest bs' : Bytes} :
    decodeBoolean bs = .ok (true, rest) → Meets f rest h bs' → Meets (chain f) bs h bs'
  | nextLink {α γ : Type} {f : Format α} {h : Format γ} {bs between rest bs' : Bytes} {a : α} :
    decodeBoolean bs = .ok (true, between) → f.decode between = .ok (a, rest) →
    Meets (chain f) rest h bs' → Meets (chain f) bs h bs'
  | through {α β γ : Type} {f : α → β} {g : β → α} {right : ∀ b, f (g b) = b}
    {left : ∀ a, g (f a) = a} {inner : Format α} {h : Format γ} {bs bs' : Bytes} :
    Meets inner bs h bs' → Meets (via f g right left inner) bs h bs'

theorem andThen_of_error {read : Bytes → Decoded α} {bs : Bytes} {e : DecodeError}
    (h : read bs = .error e) (next : α → Bytes → Decoded β) :
    andThen read next bs = .error e := by
  rw [andThen, h]

theorem andThen_of_ok {read : Bytes → Decoded α} {bs rest : Bytes} {a : α}
    (h : read bs = .ok (a, rest)) (next : α → Bytes → Decoded β) :
    andThen read next bs = next a rest := by
  rw [andThen, h]

/-- With rounds enough, how many they are makes no difference for what is refused. -/
theorem decodeChain_error {element : Bytes → Decoded α}
    (helement : ∀ {bs a rest}, element bs = .ok (a, rest) → rest.length ≤ bs.length)
    {rounds rounds' : Nat} {seen : List α} (seen' : List α) {bs : Bytes} {e : DecodeError}
    (h : decodeChain element rounds seen bs = .error e) (hrounds : bs.length < rounds)
    (hrounds' : bs.length < rounds') : decodeChain element rounds' seen' bs = .error e := by
  induction rounds generalizing rounds' seen seen' bs with
  | zero => exact absurd hrounds (Nat.not_lt_zero _)
  | succ rounds ih =>
    obtain ⟨rounds', rfl⟩ := Nat.exists_eq_add_one_of_ne_zero (Nat.ne_zero_of_lt hrounds')
    rw [decodeChain_succ] at h ⊢
    rcases hflag : decodeBoolean bs with e' | ⟨more, between⟩
    · rw [andThen_of_error hflag] at h ⊢
      exact h
    · rw [andThen_of_ok hflag] at h ⊢
      cases more with
      | false => cases h
      | true =>
        dsimp only at h ⊢
        rcases hfirst : element between with e' | ⟨a, rest⟩
        · rw [andThen_of_error hfirst] at h ⊢
          exact h
        · rw [andThen_of_ok hfirst] at h ⊢
          -- The flag takes bytes, so that there are rounds enough for the rest.
          have hrest : rest.length < bs.length := by
            have hle := helement hfirst
            obtain ⟨spent, rfl, hspent, -⟩ := spends_decodeBoolean hflag
            rw [List.length_append, hspent, List.length_replicate]
            omega
          exact ih (a :: seen') h (by omega) (by omega)

/-- What is refused where reading comes to is refused altogether. -/
theorem Meets.error {f : Format α} {g : Format β} {bs bs' : Bytes} {e : DecodeError}
    (h : Meets f bs g bs') (he : g.decode bs' = .error e) : f.decode bs = .error e := by
  induction h with
  | here => exact he
  | first _ ih =>
    rw [decode_pair_eq]
    exact andThen_of_error (ih he) _
  | second hfirst _ ih =>
    rw [decode_pair_eq, andThen_of_ok hfirst]
    exact andThen_of_error (ih he) _
  | tag _ ih =>
    rw [decode_tagged_eq]
    exact andThen_of_error (ih he) _
  | arm htag _ ih =>
    rw [decode_tagged_eq, andThen_of_ok htag]
    exact andThen_of_error (ih he) _
  | flag =>
    rw [decode_optional_eq]
    exact andThen_of_error he _
  | content hflag _ ih =>
    rw [decode_optional_eq, andThen_of_ok hflag]
    exact andThen_of_error (ih he) _
  | linkFlag =>
    rw [decode, decodeChain_succ]
    exact andThen_of_error he _
  | link hflag _ ih =>
    rw [decode, decodeChain_succ, andThen_of_ok hflag]
    exact andThen_of_error (ih he) _
  | nextLink hflag hfirst _ ih =>
    rw [decode, decodeChain_succ, andThen_of_ok hflag]
    dsimp only
    rw [andThen_of_ok hfirst]
    refine decodeChain_error (fun hread => (spends_decode _ hread).length_le) _ (ih he)
      (Nat.lt_succ_self _) ?_
    have hle := (spends_decode _ hfirst).length_le
    obtain ⟨spent, rfl, hspent, -⟩ := spends_decodeBoolean hflag
    rw [List.length_append, hspent, List.length_replicate]
    omega
  | through _ ih =>
    rw [decode_via_eq]
    exact andThen_of_error (ih he) _

/-- The format does not go on behind this number. -/
inductive Refuses : {α : Type} → Format α → Nat → DecodeError → Prop
  | boolean {n : Nat} : 1 < n → Refuses boolean n .notBoolean
  | member {α : Type} [Enumeration α] {refusal : UInt32 → DecodeError} {n : Nat} :
    (∀ a : α, (Enumeration.number a).toNat ≠ n) →
    Refuses (member α refusal) n (refusal (UInt32.ofNat n))
  | varData {n : Nat} : 4 * 2 ^ 20 < n → Refuses varData n .dataTooLong
  | words {n : Nat} : 2 ^ 20 < n → Refuses words n .arrayTooLong

theorem Refuses.error {f : Format α} {n : Nat} {e : DecodeError} (h : Refuses f n e)
    (hn : n < 2 ^ 32) (rest : Bytes) : f.decode (Bytes.bigEndian 4 n ++ rest) = .error e := by
  have hnumber : decodeNumber 4 (Bytes.bigEndian 4 n ++ rest) = .ok (n, rest) :=
    readsBack_decodeNumber hn rest
  cases h with
  | boolean h =>
    rw [decode, decodeBoolean_eq, andThen_of_ok hnumber]
    split
    · omega
    · omega
    · rfl
  | member h =>
    rw [decode_member_eq, andThen_of_ok hnumber]
    split
    · next a ha =>
      have hmember := congrArg UInt32.toNat (Enumeration.ofNumber?_eq_some_iff.1 ha)
      rw [UInt32.toNat_ofNat_of_lt' hn] at hmember
      exact absurd hmember (h a)
    · rfl
  | varData h =>
    rw [decode_varData_eq, andThen_of_ok hnumber]
    exact if_pos h
  | words h =>
    rw [decode_words_eq, andThen_of_ok hnumber]
    exact if_pos h

/-! ## All formats -/

/-- Every length and every count fits into its word, which is all that writing a value takes. -/
def IsWritable : {α : Type} → Format α → α → Prop
  | _, void, _ => True
  | _, word, _ => True
  | _, hyper, _ => True
  | _, boolean, _ => True
  | _, member _ _, _ => True
  | _, fixedData _, _ => True
  | _, varData, bs => bs.length < 2 ^ 32
  | _, words, ws => ws.length < 2 ^ 32
  | _, optional f, v => ∀ a ∈ v, f.IsWritable a
  | _, chain f, vs => ∀ a ∈ vs, f.IsWritable a
  | _, pair f g, v => f.IsWritable v.1 ∧ g.IsWritable v.2
  | _, tagged tag arms, v => tag.IsWritable v.1 ∧ (arms v.1).IsWritable v.2
  | _, via _ g _ _ f, b => f.IsWritable (g b)

theorem Fits.isWritable {f : Format α} {a : α} (h : f.Fits a) : f.IsWritable a := by
  induction f with
  | void | word | hyper | boolean | member | fixedData => trivial
  | varData | words => exact lt_of_le_of_lt h (by decide)
  | optional f ih => exact fun b hb => ih (h b hb)
  | chain f ih => exact fun b hb => ih (h b hb)
  | pair f g ihf ihg => exact ⟨ihf h.1, ihg h.2⟩
  | tagged tag arms ihtag iharms => exact ⟨ihtag h.1, iharms a.1 h.2⟩
  | via f g right left inner ih => exact ih h

theorem getElem?_blank_of_data {mask : List Bool} {bs : Bytes} (h : bs.length = mask.length)
    {i : Nat} (hi : mask[i]? = some false) : (blank mask bs)[i]? = bs[i]? := by
  obtain ⟨hmask, -⟩ := List.getElem?_eq_some_iff.1 hi
  have hbs : i < bs.length := h ▸ hmask
  rw [blank, List.getElem?_zipWith, hi, List.getElem?_eq_getElem hbs]
  rfl

theorem getElem?_blank_of_padding {mask : List Bool} {bs : Bytes} (h : bs.length = mask.length)
    {i : Nat} (hi : mask[i]? = some true) : (blank mask bs)[i]? = some 0 := by
  obtain ⟨hmask, -⟩ := List.getElem?_eq_some_iff.1 hi
  have hbs : i < bs.length := h ▸ hmask
  rw [blank, List.getElem?_zipWith, hi, List.getElem?_eq_getElem hbs]
  rfl

/-- A value that is read can be written, and its spelling is what has been read but for zeros where
there is padding; another input that is read as the same value differs from this one in padding
only.  Nothing is read where a number is met that its format refuses. -/
theorem encode_decode (f : Format α) (bs : Bytes) :
    (∀ a rest, f.decode bs = .ok (a, rest) →
      f.Fits a ∧ f.IsWritable a ∧
      ∃ spent, bs = spent ++ rest ∧
        (f.encode a).length = spent.length ∧ (f.paddingMask a).length = spent.length ∧
        (∀ i : Nat, ((f.paddingMask a)[i]? = some false → (f.encode a)[i]? = spent[i]?) ∧
          ((f.paddingMask a)[i]? = some true → (f.encode a)[i]? = some 0)) ∧
        ∀ bs' rest', f.decode bs' = .ok (a, rest') →
          ∃ spent', bs' = spent' ++ rest' ∧ spent'.length = spent.length ∧
            ∀ i : Nat, spent'[i]? ≠ spent[i]? → (f.paddingMask a)[i]? = some true) ∧
    ∀ (β : Type) (g : Format β) (n : Nat) (e : DecodeError) (rest : Bytes), n < 2 ^ 32 →
      g.Refuses n e → Meets f bs g (Bytes.bigEndian 4 n ++ rest) → f.decode bs = .error e := by
  refine ⟨fun a rest h => ?_, fun β g n e rest hn hrefuses hmeets =>
    hmeets.error (hrefuses.error hn rest)⟩
  have hfits := fits_of_decode f h
  obtain ⟨spent, hbs, hlength, hspelling⟩ := spends_decode f h
  have hencode : (f.encode a).length = spent.length := by
    rw [hspelling, blank, List.length_zipWith, hlength, Nat.min_self]
  refine ⟨hfits, hfits.isWritable, spent, hbs, hencode, hlength.symm, fun i => ⟨?_, ?_⟩, ?_⟩
  · intro hi
    rw [hspelling, getElem?_blank_of_data hlength hi]
  · intro hi
    rw [hspelling, getElem?_blank_of_padding hlength hi]
  · intro bs' rest' h'
    obtain ⟨spent', hbs', hlength', hspelling'⟩ := spends_decode f h'
    refine ⟨spent', hbs', hlength'.trans hlength.symm, fun i hne => ?_⟩
    cases hi : (f.paddingMask a)[i]? with
    | none =>
      have hle := List.getElem?_eq_none_iff.1 hi
      refine absurd ?_ hne
      rw [List.getElem?_eq_none (hlength' ▸ hle), List.getElem?_eq_none (hlength ▸ hle)]
    | some isPadding =>
      cases isPadding with
      | true => rfl
      | false =>
        refine absurd ?_ hne
        rw [← getElem?_blank_of_data hlength' hi, ← hspelling', hspelling,
          getElem?_blank_of_data hlength hi]

/-- A credential whose padding is not zero, and one whose body would be longer than a record. -/
theorem encode_decode_credential :
    let f : Format Rpc.Credential := Wire.format
    let c : Rpc.Credential := ⟨.unix, [0x61]⟩
    let spent : Bytes := [0, 0, 0, 1, 0, 0, 0, 1, 0x61, 1, 2, 3]
    let input : Bytes := [0, 0, 0, 1, 0xFF, 0xFF, 0xFF, 0xFF]
    f.decode (spent ++ [9]) = .ok (c, [9]) ∧ f.Fits c ∧
      (∃ spent', spent ++ [9] = spent' ++ [9] ∧
        ∀ i : Nat, (f.paddingMask c)[i]? = some true → (f.encode c)[i]? = some 0) ∧
      varData.Refuses (2 ^ 32 - 1) .dataTooLong ∧
      Meets f input varData (Bytes.bigEndian 4 (2 ^ 32 - 1) ++ []) ∧
      f.decode input = .error .dataTooLong := by
  intro f c spent input
  have hread : f.decode (spent ++ [9]) = .ok (c, [9]) := rfl
  have hrefuses : varData.Refuses (2 ^ 32 - 1) .dataTooLong := .varData (by decide)
  have hflavor : (Wire.format : Format Rpc.AuthFlavor).decode input =
      .ok (.unix, Bytes.bigEndian 4 (2 ^ 32 - 1) ++ []) := rfl
  have hmeets : Meets f input varData (Bytes.bigEndian 4 (2 ^ 32 - 1) ++ []) :=
    .through (.second hflavor .here)
  obtain ⟨hfits, -, spent', hspent, -, -, hbytes, -⟩ := (encode_decode f _).1 c [9] hread
  exact ⟨hread, hfits, ⟨spent', hspent, fun i => (hbytes i).2⟩, hrefuses, hmeets,
    (encode_decode f input).2 _ varData _ _ [] (by decide) hrefuses hmeets⟩

end NfsServer.Format
