import NfsServer.Path.Basic

/-!
# The places of entries and of directories above

A path is cut at its slashes, and what stands behind its last slash is its last piece.  An entry of
a directory therefore lies exactly one name below the place of the directory, however the path of
the directory is spelled (`location_child`, `location_entry`).  The path without its last piece
leads back to the directory above (`location_parent`).
-/

namespace NfsServer

namespace Location

theorem parent?_append_singleton (l : Location) {c : Component} (hc : c ≠ .root) :
    parent? (l ++ [c]) = some l := by
  unfold parent?
  rw [List.getLast?_concat, List.dropLast_concat]
  cases c with
  | root => exact absurd rfl hc
  | here => rfl
  | up => rfl
  | name bs => rfl

/-- A place with a place above it lies one component below that. -/
theorem parent?_eq_some_iff {l k : Location} :
    l.parent? = some k ↔ ∃ c, c ≠ Component.root ∧ l = k ++ [c] := by
  constructor
  · intro h
    rcases l.eq_nil_or_concat with rfl | ⟨k', c, rfl⟩
    · cases h
    · rw [List.concat_eq_append] at h ⊢
      have hc : c ≠ .root := by
        rintro rfl
        unfold parent? at h
        rw [List.getLast?_concat] at h
        cases h
      rw [parent?_append_singleton k' hc] at h
      exact ⟨c, hc, by rw [Option.some.inj h]⟩
  · rintro ⟨c, hc, rfl⟩
    exact parent?_append_singleton k hc

/-- Only what lies directly above a place can have the place in it. -/
theorem eq_of_parent?_append_singleton {k above : Location} {c : Component}
    (h : parent? (k ++ [c]) = some above) : k = above := by
  obtain ⟨c', -, heq⟩ := parent?_eq_some_iff.1 h
  exact (List.append_inj' heq rfl).1

/-- No directory lies at or below a place in it. -/
theorem not_prefix_of_parent? {l k : Location} (h : l.parent? = some k) : ¬l <+: k := by
  intro hprefix
  obtain ⟨c, -, rfl⟩ := parent?_eq_some_iff.1 h
  exact Nat.not_succ_le_self k.length (by simpa using hprefix.length_le)

theorem parent?_ne_self (l : Location) : l.parent? ≠ some l :=
  fun h => not_prefix_of_parent? h (List.prefix_refl l)

end Location

namespace Path

/-! ## Pieces between slashes -/

theorem segments_slash_cons (bs : Bytes) : segments (slash :: bs) = [] :: segments bs := by
  rw [segments, List.foldr_cons, if_pos rfl, segments]

theorem segments_ne_nil (bs : Bytes) : segments bs ≠ [] := by
  cases bs with
  | nil => exact List.cons_ne_nil _ _
  | cons b bs =>
    rw [segments, List.foldr_cons]
    split
    · exact List.cons_ne_nil _ _
    · split <;> exact List.cons_ne_nil _ _

theorem segments_cons_of_ne {b : UInt8} (hb : b ≠ slash) {bs s : Bytes} {segs : List Bytes}
    (h : segments bs = s :: segs) : segments (b :: bs) = (b :: s) :: segs := by
  rw [segments, List.foldr_cons, ← segments, if_neg hb, h]

/-- Cutting at a slash. -/
theorem segments_append_slash (bs cs : Bytes) :
    segments (bs ++ slash :: cs) = segments bs ++ segments cs := by
  induction bs with
  | nil => exact segments_slash_cons cs
  | cons b bs ih =>
    rw [List.cons_append]
    by_cases hb : b = slash
    · subst hb
      rw [segments_slash_cons, segments_slash_cons, ih, List.cons_append]
    · obtain ⟨s, segs, hs⟩ := List.exists_cons_of_ne_nil (segments_ne_nil bs)
      rw [hs, List.cons_append] at ih
      rw [segments_cons_of_ne hb hs, segments_cons_of_ne hb ih, List.cons_append]

theorem segments_of_not_mem {bs : Bytes} (h : slash ∉ bs) : segments bs = [bs] := by
  induction bs with
  | nil => rfl
  | cons b bs ih =>
    rw [List.mem_cons, not_or] at h
    exact segments_cons_of_ne (Ne.symm h.1) (ih h.2)

theorem components_append (segs segs' : List Bytes) :
    components (segs ++ segs') = components segs ++ components segs' := by
  rw [components, List.filter_append, List.map_append, components, components]

/-! ## Entries of directories -/

/-- A name that leads from a directory to one of its entries: a single component that is neither of
the dot entries. -/
structure IsEntryName (name : Bytes) : Prop where
  ne_nil : name ≠ []
  ne_dot : name ≠ [dot]
  ne_dots : name ≠ [dot, dot]
  slash_not_mem : slash ∉ name

theorem IsEntryName.isVoid_eq {name : Bytes} (h : IsEntryName name) : isVoid name = false := by
  rw [isVoid, decide_eq_false h.ne_nil, decide_eq_false h.ne_dot, Bool.or_self]

theorem IsEntryName.components_eq {name : Bytes} (h : IsEntryName name) :
    components [name] = [.name name] := by
  rw [components, List.filter_cons_of_pos (by rw [h.isVoid_eq, Bool.not_false]), List.filter_nil,
    List.map_singleton, component, if_neg h.ne_dots]

/-- A piece behind the last slash is one more component. -/
theorem IsEntryName.components_append_slash {name : Bytes} (h : IsEntryName name) (bs : Bytes) :
    components (segments (bs ++ slash :: name)) = components (segments bs) ++ [.name name] := by
  rw [segments_append_slash, components_append, segments_of_not_mem h.slash_not_mem,
    h.components_eq]

/-- A slash at the end stands for no component. -/
theorem components_append_singleton (bs : Bytes) :
    components (segments (bs ++ [slash])) = components (segments bs) := by
  rw [segments_append_slash, components_append]
  exact List.append_nil _

theorem location_slash_cons (bs : Bytes) :
    location ⟨slash :: bs⟩ = .root :: components (segments bs) := by
  rw [location]
  exact if_pos rfl

theorem location_of_ne {b : UInt8} (hb : b ≠ slash) {bs s : Bytes} {segs : List Bytes}
    (h : segments (b :: bs) = s :: segs) :
    location ⟨b :: bs⟩ =
      if s = [dot] then .here :: components segs else components (s :: segs) := by
  rw [location]
  dsimp only
  rw [if_neg hb, h]

/-- A name behind a slash leads to the entry of the place before the slash. -/
theorem IsEntryName.location_append_slash {name : Bytes} (h : IsEntryName name) {bs : Bytes}
    (hbs : bs ≠ []) : location ⟨bs ++ slash :: name⟩ = location ⟨bs⟩ ++ [.name name] := by
  obtain ⟨b, bs, rfl⟩ := List.exists_cons_of_ne_nil hbs
  rw [List.cons_append]
  by_cases hb : b = slash
  · subst hb
    rw [location_slash_cons, location_slash_cons, h.components_append_slash, List.cons_append]
  · obtain ⟨s, segs, hs⟩ := List.exists_cons_of_ne_nil (segments_ne_nil (b :: bs))
    have hname : segments (b :: (bs ++ slash :: name)) = s :: (segs ++ [name]) := by
      rw [← List.cons_append, segments_append_slash, hs, segments_of_not_mem h.slash_not_mem,
        List.cons_append]
    rw [location_of_ne hb hname, location_of_ne hb hs]
    split
    · rw [components_append, h.components_eq, List.cons_append]
    · rw [← List.cons_append, components_append, h.components_eq]

/-- A slash at the end of a path does not count. -/
theorem location_append_singleton {bs : Bytes} (hbs : bs ≠ []) :
    location ⟨bs ++ [slash]⟩ = location ⟨bs⟩ := by
  obtain ⟨b, bs, rfl⟩ := List.exists_cons_of_ne_nil hbs
  rw [List.cons_append]
  by_cases hb : b = slash
  · subst hb
    rw [location_slash_cons, location_slash_cons, components_append_singleton]
  · obtain ⟨s, segs, hs⟩ := List.exists_cons_of_ne_nil (segments_ne_nil (b :: bs))
    have hslash : segments (b :: (bs ++ [slash])) = s :: (segs ++ [[]]) := by
      rw [← List.cons_append, segments_append_slash, hs]
      rfl
    have hvoid : components [[]] = [] := rfl
    rw [location_of_ne hb hslash, location_of_ne hb hs]
    split
    · rw [components_append, hvoid, List.append_nil]
    · rw [← List.cons_append, components_append, hvoid, List.append_nil]

theorem IsEntryName.location_relative {name : Bytes} (h : IsEntryName name) :
    location ⟨name⟩ = [.name name] := by
  obtain ⟨b, bs, rfl⟩ := List.exists_cons_of_ne_nil h.ne_nil
  have hb : b ≠ slash := fun hb => h.slash_not_mem (hb ▸ List.mem_cons_self)
  rw [location_of_ne hb (segments_of_not_mem h.slash_not_mem), if_neg h.ne_dot, h.components_eq]

/-- An entry lies one name below its directory. -/
theorem location_child (p : Path) {name : Bytes} (h : IsEntryName name) :
    (p.child name).location = p.location ++ [.name name] := by
  obtain ⟨text⟩ := p
  unfold child
  dsimp only
  by_cases hnil : text = []
  · rw [if_pos (Or.inl hnil), hnil]
    exact h.location_relative
  · by_cases hslash : text.getLast? = some slash
    · rw [if_pos (Or.inr hslash)]
      obtain ⟨bs, rfl⟩ := List.getLast?_eq_some_iff.1 hslash
      rw [List.append_assoc]
      rcases bs with _ | ⟨b, bs⟩
      · -- The path is the root directory, and its only slash stands for it.
        show location ⟨slash :: name⟩ = location ⟨[slash]⟩ ++ [.name name]
        rw [location_slash_cons, location_slash_cons, segments_of_not_mem h.slash_not_mem,
          h.components_eq]
        rfl
      · rw [location_append_singleton (List.cons_ne_nil b bs)]
        exact h.location_append_slash (List.cons_ne_nil b bs)
    · rw [if_neg (not_or.2 ⟨hnil, hslash⟩)]
      exact h.location_append_slash hnil

theorem entry_eq_ok_iff {directory p : Path} {name : Bytes} :
    directory.entry name = .ok p ↔
      IsEntryName name ∧ Utf8.isValid name = true ∧ p = directory.child name := by
  unfold entry
  constructor
  · intro h
    split at h
    · cases h
    · next hname =>
      simp only [not_or] at hname
      split at h
      · cases h
      · next htext =>
        exact ⟨⟨hname.1, hname.2.1, hname.2.2.1, hname.2.2.2⟩, by simpa using htext,
          (Except.ok.inj h).symm⟩
  · rintro ⟨hname, htext, rfl⟩
    rw [if_neg (not_or.2 ⟨hname.ne_nil, not_or.2 ⟨hname.ne_dot, not_or.2 ⟨hname.ne_dots,
      hname.slash_not_mem⟩⟩⟩), htext]
    rfl

/-- A name that is accepted leads one name below the directory. -/
theorem location_entry {directory p : Path} {name : Bytes} (h : directory.entry name = .ok p) :
    p.location = directory.location ++ [.name name] := by
  obtain ⟨hname, -, rfl⟩ := entry_eq_ok_iff.1 h
  exact directory.location_child hname

/-! ## Directories above -/

theorem slash_not_mem_of_mem_segments {bs s : Bytes} (h : s ∈ segments bs) : slash ∉ s := by
  induction bs generalizing s with
  | nil =>
    obtain rfl := List.mem_singleton.1 h
    exact List.not_mem_nil
  | cons b bs ih =>
    by_cases hb : b = slash
    · subst hb
      rw [segments_slash_cons] at h
      rcases List.mem_cons.1 h with rfl | h
      · exact List.not_mem_nil
      · exact ih h
    · obtain ⟨first, rest, hsegs⟩ := List.exists_cons_of_ne_nil (segments_ne_nil bs)
      rw [hsegs] at ih
      rw [segments_cons_of_ne hb hsegs] at h
      rcases List.mem_cons.1 h with rfl | h
      · rw [List.mem_cons, not_or]
        exact ⟨Ne.symm hb, ih List.mem_cons_self⟩
      · exact ih (List.mem_cons_of_mem _ h)

/-- Pieces that are put together are the pieces of the whole. -/
theorem segments_joinSegments {segs : List Bytes} (h : ∀ s ∈ segs, slash ∉ s) (hne : segs ≠ []) :
    segments (joinSegments segs) = segs := by
  induction segs with
  | nil => exact absurd rfl hne
  | cons s segs ih =>
    rw [List.forall_mem_cons] at h
    cases segs with
    | nil => exact (congrArg segments List.intercalate_singleton).trans (segments_of_not_mem h.1)
    | cons t segs =>
      have hjoin : joinSegments (s :: t :: segs) = s ++ slash :: joinSegments (t :: segs) := by
        rw [joinSegments, List.intercalate_cons_cons, List.append_assoc, List.singleton_append,
          joinSegments]
      rw [hjoin, segments_append_slash, segments_of_not_mem h.1, ih h.2 (List.cons_ne_nil t segs),
        List.singleton_append]

theorem components_joinSegments {segs : List Bytes} (h : ∀ s ∈ segs, slash ∉ s) :
    components (segments (joinSegments segs)) = components segs := by
  by_cases hne : segs = []
  · subst hne
    rfl
  · rw [segments_joinSegments h hne]

/-- Pieces at the end that are no components do not count. -/
theorem components_reverse_dropWhile (segs : List Bytes) :
    components (segs.dropWhile isVoid).reverse = components segs.reverse := by
  have hvoid : components (segs.takeWhile isVoid).reverse = [] := by
    rw [components, List.map_eq_nil_iff, List.filter_eq_nil_iff]
    intro s hs
    rw [List.mem_reverse] at hs
    simpa using List.all_eq_true.1 List.all_takeWhile s hs
  rw [← List.takeWhile_append_dropWhile (p := isVoid) (l := segs), List.reverse_append,
    components_append, hvoid, List.append_nil, List.takeWhile_append_dropWhile]

theorem parent?_slash_cons (bs : Bytes) :
    parent? ⟨slash :: bs⟩ = match (segments bs).reverse.dropWhile isVoid with
      | [] => none
      | _ :: before => some ⟨slash :: joinSegments (before.dropWhile isVoid).reverse⟩ := by
  have hhead : splitHead (slash :: bs) = ([slash], bs) := by
    rw [splitHead]
    exact if_pos rfl
  unfold parent?
  dsimp only
  rw [hhead]
  dsimp only
  cases (segments bs).reverse.dropWhile isVoid <;> rfl

theorem component_ne_root (segment : Bytes) : component segment ≠ .root := by
  unfold component
  split <;> exact Component.noConfusion

/-- A path to a place below the root is absolute. -/
theorem exists_slash_of_location {p : Path} {rest : Location} (h : p.location = .root :: rest) :
    ∃ bs, p = ⟨slash :: bs⟩ := by
  obtain ⟨_ | ⟨b, bs⟩⟩ := p
  · cases h
  · by_cases hb : b = slash
    · exact ⟨bs, by rw [hb]⟩
    · -- No component of a relative path is the root.
      have hroot : ∀ segs, .root ∉ components segs := by
        intro segs hmem
        obtain ⟨s, -, hs⟩ := List.mem_map.1 hmem
        exact component_ne_root s hs
      obtain ⟨s, segs, hs⟩ := List.exists_cons_of_ne_nil (segments_ne_nil (b :: bs))
      rw [location_of_ne hb hs] at h
      split at h
      · cases h
      · exact absurd (h ▸ List.mem_cons_self) (hroot (s :: segs))

theorem location_parent_slash (bs : Bytes) :
    let l := location ⟨slash :: bs⟩
    (parent ⟨slash :: bs⟩).location = l.parent?.getD l := by
  intro l
  have hl : l = .root :: components (segments bs) := location_slash_cons bs
  have hcomponents := components_reverse_dropWhile (segments bs).reverse
  rw [List.reverse_reverse] at hcomponents
  have hclean : ∀ s ∈ (segments bs).reverse.dropWhile isVoid, slash ∉ s := fun s hs =>
    slash_not_mem_of_mem_segments (List.mem_reverse.1 (List.dropWhile_subset _ hs))
  have hfirst := List.head?_dropWhile_not isVoid (segments bs).reverse
  unfold parent
  rw [parent?_slash_cons]
  cases hdrop : (segments bs).reverse.dropWhile isVoid with
  | nil =>
    rw [hdrop] at hcomponents
    have hroot : l = Location.root := by rw [hl, ← hcomponents]; rfl
    show l = l.parent?.getD l
    rw [hroot]
    rfl
  | cons last before =>
    rw [hdrop, List.reverse_cons, components_append] at hcomponents
    rw [hdrop] at hclean hfirst
    have hvoid : isVoid last = false := hfirst
    have hlast : components [last] = [component last] := by
      rw [components, List.filter_cons_of_pos (by rw [hvoid, Bool.not_false])]
      rfl
    have habove : l = (.root :: components before.reverse) ++ [component last] := by
      rw [hl, ← hcomponents, hlast]
      rfl
    rw [habove, Location.parent?_append_singleton _ (component_ne_root last)]
    show location ⟨slash :: joinSegments (before.dropWhile isVoid).reverse⟩ = _
    rw [location_slash_cons, components_joinSegments, components_reverse_dropWhile]
    · rfl
    · intro s hs
      exact hclean s (List.mem_cons_of_mem _ (List.dropWhile_subset _ (List.mem_reverse.1 hs)))

/-- The directory above a place below the root lies one component less deep. -/
theorem location_parent {p : Path} {rest : Location} (h : p.location = .root :: rest) :
    p.parent.location = p.location.parent?.getD p.location := by
  obtain ⟨bs, rfl⟩ := exists_slash_of_location h
  exact location_parent_slash bs

end Path

end NfsServer
