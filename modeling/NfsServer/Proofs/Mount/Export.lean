import Mathlib.Data.List.DropRight
import Mathlib.Data.List.TakeWhile
import NfsServer.Mount.Mounting
import NfsServer.Proofs.Path.Location
import NfsServer.Proofs.Text.Utf8

/-!
# Names of exported directories

What a client writes behind the name of the export is the path of a directory inside
(`Export.Leads`), in which slashes at the ends stand for nothing.  White space at the ends is part
of a component, though, and yet it is taken away: `Export.relative?` gives the directory that was
named exactly if there is none (`Export.Leads.names_eq_append_iff`).  What shows the difference are
the bytes of a path that are neither slashes nor dots (`Path.letters`): they all belong to
components.
-/

namespace NfsServer

/-! ## Trimming -/

namespace Text

theorem exists_trimEnd_append (p : Char → Bool) (cs : Text) :
    ∃ ys, cs = trimEnd p cs ++ ys ∧ ∀ c ∈ ys, p c = true :=
  ⟨cs.rtakeWhile p, List.rdropWhile_append_rtakeWhile.symm, fun _ => List.mem_rtakeWhile_imp⟩

/-- What is taken away at both ends. -/
theorem exists_append_trim (p : Char → Bool) (cs : Text) :
    ∃ xs ys, cs = xs ++ trim p cs ++ ys ∧ (∀ c ∈ xs, p c = true) ∧ ∀ c ∈ ys, p c = true := by
  obtain ⟨ys, hys, hall⟩ := exists_trimEnd_append p (cs.dropWhile p)
  refine ⟨cs.takeWhile p, ys, ?_, fun _ => List.mem_takeWhile_imp, hall⟩
  rw [List.append_assoc, trim, ← hys, List.takeWhile_append_dropWhile]

/-- The first or the last character is white space. -/
def HasBlankEnd (cs : Text) : Prop :=
  ∃ c, (cs.head? = some c ∨ cs.getLast? = some c) ∧ isBlank c = true

theorem trim_eq_self_iff {p : Char → Bool} {cs : Text} :
    trim p cs = cs ↔ cs.dropWhile p = cs ∧ trimEnd p cs = cs := by
  constructor
  · intro h
    have hprefix : trim p cs <+: cs.dropWhile p := List.rdropWhile_prefix p _
    have hsuffix : cs.dropWhile p <:+ cs := List.dropWhile_suffix p
    have hlength : cs.length ≤ (cs.dropWhile p).length := by
      simpa only [h] using hprefix.length_le
    have hdrop : cs.dropWhile p = cs := hsuffix.eq_of_length_le hlength
    rw [trim, hdrop] at h
    exact ⟨hdrop, h⟩
  · rintro ⟨hdrop, hend⟩
    rw [trim, hdrop, hend]

theorem trim_isBlank_eq_self_iff {cs : Text} : trim isBlank cs = cs ↔ ¬HasBlankEnd cs := by
  have hend : trimEnd isBlank cs = cs ↔ ∀ hl : cs ≠ [], ¬isBlank (cs.getLast hl) = true :=
    List.rdropWhile_eq_self_iff
  rw [trim_eq_self_iff, hend, List.dropWhile_eq_self_iff]
  unfold HasBlankEnd
  cases cs with
  | nil => simp
  | cons c cs =>
    rw [List.getLast?_eq_some_getLast (List.cons_ne_nil c cs)]
    simp

end Text

/-! ## The components of a text -/

namespace Path

/-- The path that a text spells. -/
def ofText (t : Text) : Path := ⟨Utf8.encode t⟩

/-- The components of a path that is taken to begin at the root. -/
def names (p : Path) : Location := components (segments p.text)

/-- The bytes that are neither slashes nor dots. -/
def letters (bs : Bytes) : Bytes := bs.filter fun b => b ≠ slash ∧ b ≠ dot

theorem letters_append (bs cs : Bytes) : letters (bs ++ cs) = letters bs ++ letters cs :=
  List.filter_append ..

theorem letters_flatMap_segments (bs : Bytes) : (segments bs).flatMap letters = letters bs := by
  induction bs with
  | nil => rfl
  | cons b bs ih =>
    by_cases hb : b = slash
    · subst hb
      rw [segments_slash_cons, List.flatMap_cons, ih]
      rfl
    · obtain ⟨s, segs, hs⟩ := List.exists_cons_of_ne_nil (segments_ne_nil bs)
      rw [hs, List.flatMap_cons] at ih
      rw [segments_cons_of_ne hb hs, List.flatMap_cons, ← List.singleton_append, letters_append,
        List.append_assoc, ih, ← letters_append]
      rfl

theorem letters_of_isVoid {segment : Bytes} (h : isVoid segment = true) : letters segment = [] := by
  unfold isVoid at h
  rw [Bool.or_eq_true, decide_eq_true_eq, decide_eq_true_eq] at h
  rcases h with rfl | rfl <;> rfl

theorem letters_component (segment : Bytes) :
    letters (component segment).bytes = letters segment := by
  unfold component
  split
  · next h =>
    rw [h]
    rfl
  · rfl

theorem letters_flatMap_components (segs : List Bytes) :
    (components segs).flatMap (fun c => letters c.bytes) = segs.flatMap letters := by
  induction segs with
  | nil => rfl
  | cons s segs ih =>
    unfold components at ih ⊢
    by_cases hvoid : isVoid s = true
    · rw [List.filter_cons_of_neg (by simp [hvoid]), ih, List.flatMap_cons,
        letters_of_isVoid hvoid, List.nil_append]
    · rw [List.filter_cons_of_pos (by simp [hvoid]), List.map_cons, List.flatMap_cons, ih,
        List.flatMap_cons, letters_component]

/-- Paths with the same components have the same letters. -/
theorem letters_eq_of_names_eq {p q : Path} (h : p.names = q.names) :
    letters p.text = letters q.text := by
  rw [← letters_flatMap_segments, ← letters_flatMap_segments q.text, ← letters_flatMap_components,
    ← letters_flatMap_components (segments q.text)]
  exact congrArg (List.flatMap fun c => letters c.bytes) h

theorem text_ofText_slash (t : Text) : (ofText ('/' :: t)).text = slash :: Utf8.encode t := by
  rw [ofText, Utf8.encode_cons]
  rfl

theorem location_ofText_slash (t : Text) :
    (ofText ('/' :: t)).location = .root :: (ofText t).names := by
  have htext : ofText ('/' :: t) = ⟨slash :: Utf8.encode t⟩ := congrArg mk (text_ofText_slash t)
  rw [htext, location_slash_cons]
  rfl

/-- A slash ends one component and begins another. -/
theorem names_append_slash (t u : Text) :
    (ofText (t ++ '/' :: u)).names = (ofText t).names ++ (ofText u).names := by
  have htext : (ofText (t ++ '/' :: u)).text = Utf8.encode t ++ slash :: Utf8.encode u := by
    rw [← text_ofText_slash]
    exact Utf8.encode_append t _
  rw [names, htext, segments_append_slash, components_append]
  rfl

theorem names_slash_cons (t : Text) : (ofText ('/' :: t)).names = (ofText t).names :=
  names_append_slash [] t

theorem names_slashes_append {slashes : Text} (h : ∀ c ∈ slashes, c = '/') (t : Text) :
    (ofText (slashes ++ t)).names = (ofText t).names := by
  induction slashes with
  | nil => rfl
  | cons c slashes ih =>
    rw [List.forall_mem_cons] at h
    rw [h.1, List.cons_append, names_slash_cons, ih h.2]

theorem names_append_slashes {slashes : Text} (h : ∀ c ∈ slashes, c = '/') (t : Text) :
    (ofText (t ++ slashes)).names = (ofText t).names := by
  cases slashes with
  | nil => rw [List.append_nil]
  | cons c slashes =>
    rw [List.forall_mem_cons] at h
    have hnone : (ofText slashes).names = [] := by
      rw [← List.append_nil slashes, names_slashes_append h.2]
      rfl
    rw [h.1, names_append_slash, hnone, List.append_nil]

theorem letters_of_isBlank {c : Char} (h : Text.isBlank c = true) :
    letters (String.utf8EncodeChar c) = String.utf8EncodeChar c := by
  refine List.filter_eq_self.2 fun b hb => ?_
  simp only [decide_eq_true_eq]
  constructor
  · rintro rfl
    have hc : c.toNat = 0x2F := Utf8.toNat_of_mem_utf8EncodeChar hb (by decide)
    simp [Text.isBlank, hc] at h
  · rintro rfl
    have hc : c.toNat = 0x2E := Utf8.toNat_of_mem_utf8EncodeChar hb (by decide)
    simp [Text.isBlank, hc] at h

theorem eq_nil_of_letters_eq_nil {cs : Text} (hblank : ∀ c ∈ cs, Text.isBlank c = true)
    (h : letters (Utf8.encode cs) = []) : cs = [] := by
  cases cs with
  | nil => rfl
  | cons c cs =>
    rw [Utf8.encode_cons, letters_append, letters_of_isBlank (hblank c List.mem_cons_self)] at h
    exact absurd (List.append_eq_nil_iff.1 h).1 (Utf8.utf8EncodeChar_ne_nil c)

/-- White space at the ends of a text is part of its components. -/
theorem names_trim_isBlank_iff {t : Text} :
    (ofText (Text.trim Text.isBlank t)).names = (ofText t).names ↔ ¬t.HasBlankEnd := by
  rw [← Text.trim_isBlank_eq_self_iff]
  refine ⟨fun h => ?_, fun h => by rw [h]⟩
  obtain ⟨xs, ys, ht, hxs, hys⟩ := Text.exists_append_trim Text.isBlank t
  have hletters : letters (Utf8.encode (Text.trim Text.isBlank t)) = letters (Utf8.encode t) :=
    letters_eq_of_names_eq h
  -- Trimming takes letters away unless it takes nothing, so that counting them is enough.
  have hlength := congrArg List.length hletters
  conv at hlength => rhs; rw [ht]
  rw [Utf8.encode_append, Utf8.encode_append, letters_append, letters_append, List.length_append,
    List.length_append] at hlength
  have hx : xs = [] := eq_nil_of_letters_eq_nil hxs (List.length_eq_zero_iff.1 (by omega))
  have hy : ys = [] := eq_nil_of_letters_eq_nil hys (List.length_eq_zero_iff.1 (by omega))
  rw [hx, hy, List.append_nil, List.nil_append] at ht
  exact ht.symm

end Path

/-! ## Inside the export -/

namespace Mount.Export

variable {exported name t rest : Text}

/-- The name is that of the export and then `rest`, which lies in it. -/
def Leads (exported name rest : Text) : Prop :=
  name = Text.trimEnd isSlash exported ++ rest ∧ ∀ c, rest.head? = some c → c = '/'

theorem eq_slash_of_isSlash {cs : Text} (h : ∀ c ∈ cs, isSlash c = true) : ∀ c ∈ cs, c = '/' :=
  fun c hc => of_decide_eq_true (h c hc)

theorem stripStart?_eq_some_iff {beginning text : Text} :
    stripStart? beginning text = some rest ↔ text = beginning ++ rest := by
  unfold stripStart?
  constructor
  · intro h
    split at h
    · next hprefix =>
      obtain ⟨rest', rfl⟩ := List.isPrefixOf_iff_prefix.1 hprefix
      rw [List.drop_left] at h
      rw [Option.some.inj h]
    · cases h
  · rintro rfl
    rw [if_pos (List.isPrefixOf_iff_prefix.2 (List.prefix_append _ _)), List.drop_left]

/-- A name that leads into the export means the place to which `rest` leads from the root, but
without the white space at its ends. -/
theorem Leads.relative?_eq (h : Leads exported name rest) : relative? exported name =
    some (Path.ofText ('/' :: Text.trim Text.isBlank (Text.trim isSlash rest))) := by
  obtain ⟨hname, hrest⟩ := h
  unfold relative?
  rw [stripStart?_eq_some_iff.2 hname]
  cases rest with
  | nil => rfl
  | cons c rest =>
    have hslash : isSlash c = true := decide_eq_true (hrest c rfl)
    dsimp only
    rw [if_pos hslash]
    rfl

theorem exists_leads {p : Path} (h : relative? exported name = some p) :
    ∃ rest, Leads exported name rest := by
  unfold relative? at h
  split at h
  · cases h
  · next rest hstrip =>
    refine ⟨rest, stripStart?_eq_some_iff.1 hstrip, fun c hc => ?_⟩
    obtain ⟨rest, rfl⟩ := List.head?_eq_some_iff.1 hc
    dsimp only at h
    split at h
    · next hslash => exact of_decide_eq_true hslash
    · cases h

theorem names_trim_isSlash (t : Text) :
    (Path.ofText (Text.trim isSlash t)).names = (Path.ofText t).names := by
  obtain ⟨xs, ys, ht, hxs, hys⟩ := Text.exists_append_trim isSlash t
  conv => rhs; rw [ht]
  rw [Path.names_append_slashes (eq_slash_of_isSlash hys),
    Path.names_slashes_append (eq_slash_of_isSlash hxs)]

theorem names_trimEnd_isSlash (t : Text) :
    (Path.ofText (Text.trimEnd isSlash t)).names = (Path.ofText t).names := by
  obtain ⟨slashes, ht, hslashes⟩ := Text.exists_trimEnd_append isSlash t
  conv => rhs; rw [ht]
  rw [Path.names_append_slashes (eq_slash_of_isSlash hslashes)]

/-- The components of a name that leads into the export are those of the export and then those of
what follows. -/
theorem Leads.names_eq (h : Leads exported name rest) :
    (Path.ofText name).names = (Path.ofText exported).names ++ (Path.ofText rest).names := by
  obtain ⟨rfl, hrest⟩ := h
  rw [← names_trimEnd_isSlash exported]
  cases rest with
  | nil =>
    rw [List.append_nil]
    exact (List.append_nil _).symm
  | cons c rest =>
    rw [hrest c rfl, Path.names_append_slash, Path.names_slash_cons]

/-- What a name means lies below the root. -/
theorem location_of_relative? {p : Path} (hp : relative? exported name = some p) :
    p.location = .root :: p.names := by
  obtain ⟨rest, hleads⟩ := exists_leads hp
  obtain rfl := Option.some.inj (hleads.relative?_eq.symm.trans hp)
  rw [Path.location_ofText_slash, Path.names_slash_cons]

theorem Leads.names_relative?_eq_iff (h : Leads exported name rest) {p : Path}
    (hp : relative? exported name = some p) :
    p.names = (Path.ofText rest).names ↔ ¬(Text.trim isSlash rest).HasBlankEnd := by
  obtain rfl := Option.some.inj (h.relative?_eq.symm.trans hp)
  rw [Path.names_slash_cons, ← names_trim_isSlash rest]
  exact Path.names_trim_isBlank_iff

/-- A name means the directory that it names exactly if, slashes aside, no white space stands at the
ends of what follows the name of the export. -/
theorem Leads.names_eq_append_iff (h : Leads exported name rest) {p : Path}
    (hp : relative? exported name = some p) :
    (Path.ofText name).names = (Path.ofText exported).names ++ p.names ↔
      ¬(Text.trim isSlash rest).HasBlankEnd := by
  rw [h.names_eq, List.append_cancel_left_eq, eq_comm, h.names_relative?_eq_iff hp]

theorem Leads.location_eq_iff (h : Leads exported name rest) (hslash : rest.head? = some '/')
    {p : Path} (hp : relative? exported name = some p) :
    p.location = (Path.ofText rest).location ↔ ¬(Text.trim isSlash rest).HasBlankEnd := by
  rw [← h.names_relative?_eq_iff hp, location_of_relative? hp]
  obtain ⟨rest, rfl⟩ := List.head?_eq_some_iff.1 hslash
  rw [Path.location_ofText_slash, Path.names_slash_cons, List.cons.injEq, eq_self, true_and]

end Mount.Export

end NfsServer
