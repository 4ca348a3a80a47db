import NfsServer.Proofs.Store.Tree

/-!
# Renaming

A rename moves an object with all that lies below it and nothing else (`Memory.Moved`), and it
succeeds exactly where the object may go (`Memory.CanMove`).  Places are lists of components and the
objects lie in one flat list, so that a move is a change of the beginnings of places.  What carries
the proofs is that neither of the two places lies at or below the other (`IsTree.apart`), so that no
object gets in the way of another.
-/

namespace NfsServer.Memory

variable {m m' : Memory} {now : Time} {l source target : Location}

/-! ## What a rename needs and what it does -/

/-- Nothing lies in the directory at a place. -/
def IsEmptyAt (m : Memory) (l : Location) : Prop :=
  ∀ k o, m.find? k = some o → k.parent? ≠ some l

/-- An object can move to a place: the place is not the root, lies in a directory, does not lie
below the object, and is free or holds something that the object may replace. -/
structure CanMove (m : Memory) (source target : Location) : Prop where
  source_exists : ∃ o, m.find? source = some o
  target_ne_root : target ≠ Location.root
  parent_exists : ∃ k d, target.parent? = some k ∧ m.find? k = some d ∧ d.isDirectory = true
  not_below : source <+: target → source = target
  replaces : ∀ o o', m.find? source = some o → m.find? target = some o' →
    source = target ∨ (o.isDirectory = false ∧ o'.isDirectory = false) ∨
      (o.isDirectory = true ∧ o'.isDirectory = true ∧ m.IsEmptyAt target)

/-- An object at a place, when the directories of two places are marked as changed. -/
def touchEither (now : Time) (source target l : Location) (o : Object) : Object :=
  if source.parent? = some l ∨ target.parent? = some l then o.touch now else o

/-- All that was at or below one place is below another one now, and nothing else has changed but
the times of the two directories and what was at the new place. -/
structure Moved (now : Time) (source target : Location) (m m' : Memory) : Prop where
  moved : ∀ rest, m'.find? (target ++ rest) = m.find? (source ++ rest)
  vacated : ∀ rest, m'.find? (source ++ rest) = none
  elsewhere : ∀ l, ¬source <+: l → ¬target <+: l →
    m'.find? l = (m.find? l).map (touchEither now source target l)
  /-- No object is gone but the one that was replaced. -/
  numbers : ∀ f, (∃ k, m'.idAt k = some f) ↔ ∃ l, l ≠ target ∧ m.idAt l = some f
  nextId_eq : m'.nextId = m.nextId
  isReadOnly_eq : m'.isReadOnly = m.isReadOnly
  maxFileSize_eq : m'.maxFileSize = m.maxFileSize

/-- Whoever touches a directory leaves it its number. -/
theorem idAt_of_touchEither
    (h : m'.find? l = (m.find? l).map (touchEither now source target l)) :
    m'.idAt l = m.idAt l := by
  have hid : Object.fileId ∘ touchEither now source target l = Object.fileId := by
    funext o
    exact (apply_ite Object.fileId _ _ _).trans (ite_self _)
  rw [idAt, h, Option.map_map, hid, idAt]

/-! ## The checks -/

theorem hasChildren_eq_false_iff (hm : m.IsTree) : m.hasChildren l = false ↔ m.IsEmptyAt l := by
  unfold hasChildren
  rw [List.any_eq_false]
  constructor
  · intro h k o ho hk
    exact h (k, o) (mem_of_find? ho) (decide_eq_true hk)
  · rintro h ⟨k, o⟩ ho hk
    exact h k o (hm.find?_eq_some_iff.2 ho) (of_decide_eq_true hk)

theorem checkParent_eq_ok_iff : m.checkParent l = .ok () ↔
    ∃ k d, l.parent? = some k ∧ m.find? k = some d ∧ d.isDirectory = true := by
  unfold checkParent
  cases l.parent? with
  | none => simp
  | some k =>
    cases hd : m.find? k with
    | none => simp [hd]
    | some d => cases hdirectory : d.isDirectory <;> simp [hd, hdirectory]

theorem checkReplace_eq_ok_iff (hm : m.IsTree) {isDirectory : Bool} :
    m.checkReplace isDirectory l = .ok () ↔ ∀ o, m.find? l = some o →
      (isDirectory = false ∧ o.isDirectory = false) ∨
        (isDirectory = true ∧ o.isDirectory = true ∧ m.IsEmptyAt l) := by
  unfold checkReplace
  rw [← hasChildren_eq_false_iff hm]
  cases m.find? l with
  | none => simp
  | some o => cases isDirectory <;> cases ho : o.isDirectory <;> simp [ho]

theorem rename_eq_ok_of_canMove (hm : m.IsTree) (h : m.CanMove source target) :
    ∃ m', m.rename now source target = .ok m' := by
  obtain ⟨o, ho⟩ := h.source_exists
  have hparent := checkParent_eq_ok_iff.2 h.parent_exists
  unfold rename
  rw [get_eq_ok_iff.2 ho, hparent]
  by_cases heq : source = target
  · exact ⟨m, if_pos heq⟩
  · have houtside : source.isPrefixOf target = false := by
      rw [Bool.eq_false_iff, ne_eq, List.isPrefixOf_iff_prefix]
      exact fun hprefix => heq (h.not_below hprefix)
    have hreplace : m.checkReplace o.isDirectory target = .ok () :=
      (checkReplace_eq_ok_iff hm).2 fun o' ho' => (h.replaces o o' ho ho').resolve_left heq
    simp only [Except.bind, bind, heq, houtside, hreplace, if_false]
    exact ⟨_, rfl⟩

theorem rename_eq_ok_iff (hm : m.IsTree) :
    (∃ m', m.rename now source target = .ok m') ↔ m.CanMove source target := by
  refine ⟨fun ⟨m', h⟩ => ?_, rename_eq_ok_of_canMove hm⟩
  obtain ⟨o, ho, hparent, h⟩ := rename_ok h
  have hroot : target ≠ Location.root := by
    rintro rfl
    obtain ⟨k, d, hk, -⟩ := checkParent_eq_ok_iff.1 hparent
    cases hk
  refine ⟨⟨o, ho⟩, hroot, checkParent_eq_ok_iff.1 hparent, fun hprefix => ?_, ?_⟩
  · exact h.elim And.left fun hmoves => absurd hprefix hmoves.2.1
  · intro o₁ o' ho₁ ho'
    obtain rfl := Option.some.inj (ho.symm.trans ho₁)
    exact h.imp And.left fun hmoves => (checkReplace_eq_ok_iff hm).1 hmoves.2.2.1 o' ho'

/-! ## The move -/

/-- Where an object may go, neither place lies at or below the other, and nothing lies below the new
place. -/
theorem IsTree.apart (hm : m.IsTree) (h : m.CanMove source target) (hne : source ≠ target) :
    ¬source <+: target ∧ ¬target <+: source ∧ ∀ e ∈ m.objects, target <+: e.1 → e.1 = target := by
  obtain ⟨o, ho⟩ := h.source_exists
  have hreplace : m.checkReplace o.isDirectory target = .ok () :=
    (checkReplace_eq_ok_iff hm).2 fun o' ho' => (h.replaces o o' ho ho').resolve_left hne
  have hfree := hm.free_of_checkReplace (checkParent_eq_ok_iff.2 h.parent_exists) hreplace
  exact ⟨fun hprefix => hne (h.not_below hprefix),
    fun hprefix => hne (hfree _ (mem_of_find? ho) hprefix), hfree⟩

/-- What can move lies in a directory: were it the root, the new place would lie below it. -/
theorem IsTree.parent_of_canMove (hm : m.IsTree) (h : m.CanMove source target)
    (hne : source ≠ target) : ∃ k, source.parent? = some k := by
  obtain ⟨o, ho⟩ := h.source_exists
  rcases hm.parent_mem _ (mem_of_find? ho) with hroot | ⟨k, -, hk, -⟩
  · obtain ⟨above, d, habove, hd, -⟩ := h.parent_exists
    obtain ⟨c, -, rfl⟩ := Location.parent?_eq_some_iff.1 habove
    have hbelow : source <+: above := by
      rw [show source = Location.root from hroot]
      exact hm.root_prefix (mem_of_find? hd)
    exact absurd (hbelow.trans (List.prefix_append above [c])) (hm.apart h hne).1
  · exact ⟨k, hk⟩

/-- What was below the one place is below the other, if nothing was there before. -/
theorem find?_move_append (hfree : ∀ e ∈ m.objects, ¬target <+: e.1) (rest : Location) :
    (m.move source target).find? (target ++ rest) = m.find? (source ++ rest) := by
  unfold find?
  rw [objects_move]
  -- All places move at once, so the induction is on the list of objects and not on the tree.
  generalize m.objects = entries at hfree
  induction entries with
  | nil => rfl
  | cons entry entries ih =>
    obtain ⟨k, o⟩ := entry
    rw [List.forall_mem_cons] at hfree
    rw [List.map_cons, List.lookup_cons, List.lookup_cons, ih hfree.2]
    dsimp only
    by_cases hk : source <+: k
    · obtain ⟨rest', rfl⟩ := hk
      rw [relocate_append]
      by_cases heq : rest = rest'
      · simp [heq]
      · rw [beq_false_of_ne fun h => heq (List.append_cancel_left h),
          beq_false_of_ne fun h => heq (List.append_cancel_left h)]
    · have htarget : target ++ rest ≠ k := fun h => hfree.1 ⟨rest, h⟩
      have hsource : source ++ rest ≠ k := fun h => hk ⟨rest, h⟩
      rw [relocate_eq_self target hk, beq_false_of_ne htarget, beq_false_of_ne hsource]

/-- Nothing is left below the place that a move starts from. -/
theorem find?_move_source (hsource : ¬source <+: target) (htarget : ¬target <+: source)
    (rest : Location) : (m.move source target).find? (source ++ rest) = none := by
  rw [find?, List.lookup_eq_none_iff]
  intro e he
  rw [objects_move] at he
  obtain ⟨⟨k, o⟩, -, rfl⟩ := List.mem_map.1 he
  rw [bne_iff_ne]
  intro heq
  dsimp only at heq
  by_cases hk : source <+: k
  · obtain ⟨rest', rfl⟩ := hk
    rw [relocate_append] at heq
    have hcomparable := List.prefix_or_prefix_of_prefix (List.prefix_append source rest)
      (heq ▸ List.prefix_append target rest')
    exact hcomparable.elim hsource htarget
  · rw [relocate_eq_self target hk] at heq
    exact hk ⟨rest, heq⟩

/-! ## The store behind a rename -/

/-- The store behind a rename that has something to move. -/
def moveOver (m : Memory) (now : Time) (source target : Location) : Memory :=
  (((m.erase target).move source target).touchParent now source).touchParent now target

theorem find?_touchParent (m : Memory) (now : Time) {above : Location}
    (habove : l.parent? = some above) (k : Location) :
    (m.touchParent now l).find? k =
      (m.find? k).map fun o => if l.parent? = some k then o.touch now else o := by
  rw [touchParent, habove, Option.getD_some, find?_modify]
  by_cases hk : k = above
  · subst hk
    simp
  · have hk' : ¬above = k := fun h => hk h.symm
    simp [hk, hk']

section

variable (hm : m.IsTree) (h : m.CanMove source target) (hne : source ≠ target)

include hm h hne

theorem find?_moveOver (now : Time) (k : Location) :
    (m.moveOver now source target).find? k =
      (((m.erase target).move source target).find? k).map (touchEither now source target k) := by
  obtain ⟨above, hsource⟩ := hm.parent_of_canMove h hne
  obtain ⟨above', -, htarget, -⟩ := h.parent_exists
  rw [moveOver, find?_touchParent _ now htarget, find?_touchParent _ now hsource, Option.map_map]
  congr 1
  funext o
  by_cases h₁ : source.parent? = some k <;> by_cases h₂ : target.parent? = some k <;>
    simp [touchEither, h₁, h₂, Object.touch]

theorem find?_moveOver_target (now : Time) (rest : Location) :
    (m.moveOver now source target).find? (target ++ rest) = m.find? (source ++ rest) := by
  obtain ⟨hsource, htarget, hfree⟩ := hm.apart h hne
  have hclear : ∀ e ∈ (m.erase target).objects, ¬target <+: e.1 := fun e he hprefix =>
    (IsTree.mem_erase.1 he).2 (hfree e (IsTree.mem_erase.1 he).1 hprefix)
  have hne' : source ++ rest ≠ target := fun heq => hsource ⟨rest, heq⟩
  -- Neither of the two directories lies at or below the new place.
  have hplace : ∀ {l k c}, l = k ++ [c] → target ++ rest = k → target <+: l := by
    rintro l k c rfl rfl
    exact ⟨rest ++ [c], (List.append_assoc _ _ _).symm⟩
  have hparents : touchEither now source target (target ++ rest) = id := by
    funext o
    refine if_neg ?_
    rintro (hparent | hparent) <;> obtain ⟨c, -, hc⟩ := Location.parent?_eq_some_iff.1 hparent
    · exact htarget (hplace hc rfl)
    · have := congrArg List.length hc
      simp at this
  rw [find?_moveOver hm h hne, find?_move_append hclear, find?_erase, if_neg hne', hparents,
    Option.map_id_fun, id]

theorem find?_moveOver_source (now : Time) (rest : Location) :
    (m.moveOver now source target).find? (source ++ rest) = none := by
  obtain ⟨hsource, htarget, -⟩ := hm.apart h hne
  rw [find?_moveOver hm h hne, find?_move_source hsource htarget, Option.map_none]

theorem find?_moveOver_elsewhere (now : Time) (hsource : ¬source <+: l) (htarget : ¬target <+: l) :
    (m.moveOver now source target).find? l =
      (m.find? l).map (touchEither now source target l) := by
  have hl : l ≠ target := fun heq => htarget (heq ▸ List.prefix_refl l)
  rw [find?_moveOver hm h hne, find?_move_of_not_below hsource htarget, find?_erase, if_neg hl]

/-- The numbers in use are those of all objects but the one that was replaced. -/
theorem idAt_moveOver (now : Time) (f : Nat) :
    (∃ k, (m.moveOver now source target).idAt k = some f) ↔
      ∃ l, l ≠ target ∧ m.idAt l = some f := by
  obtain ⟨hsource, htarget, hfree⟩ := hm.apart h hne
  have hat : ∀ rest, (m.moveOver now source target).idAt (target ++ rest) =
      m.idAt (source ++ rest) :=
    fun rest => congrArg _ (find?_moveOver_target hm h hne now rest)
  have helse : ∀ k, ¬source <+: k → ¬target <+: k →
      (m.moveOver now source target).idAt k = m.idAt k :=
    fun k hks hkt => idAt_of_touchEither (find?_moveOver_elsewhere hm h hne now hks hkt)
  constructor
  · rintro ⟨k, hk⟩
    by_cases hkt : target <+: k
    · obtain ⟨rest, rfl⟩ := hkt
      exact ⟨source ++ rest, fun heq => hsource ⟨rest, heq⟩, (hat rest).symm.trans hk⟩
    · by_cases hks : source <+: k
      · obtain ⟨rest, rfl⟩ := hks
        rw [idAt, find?_moveOver_source hm h hne] at hk
        cases hk
      · exact ⟨k, fun heq => hkt (heq ▸ List.prefix_refl k), (helse k hks hkt).symm.trans hk⟩
  · rintro ⟨l, hl, hf⟩
    by_cases hls : source <+: l
    · obtain ⟨rest, rfl⟩ := hls
      exact ⟨target ++ rest, (hat rest).trans hf⟩
    · have hlt : ¬target <+: l := fun hprefix => by
        obtain ⟨o, ho, -⟩ := idAt_eq_some_iff.1 hf
        exact hl (hfree _ (mem_of_find? ho) hprefix)
      exact ⟨l, (helse l hls hlt).trans hf⟩

theorem moved_moveOver (now : Time) : Moved now source target m (m.moveOver now source target) where
  moved := find?_moveOver_target hm h hne now
  vacated := find?_moveOver_source hm h hne now
  elsewhere := fun _ => find?_moveOver_elsewhere hm h hne now
  numbers := idAt_moveOver hm h hne now
  nextId_eq := rfl
  isReadOnly_eq := rfl
  maxFileSize_eq := rfl

end

/-- A rename fails and changes nothing, or the object can move: then it stays where it is, or all
that is at or below it moves. -/
theorem rename_cases (hm : m.IsTree) (now : Time) (source target : Path) :
    let r := perform now (.rename source target) m
    (¬m.CanMove source.location target.location ∧ r.1 ≠ .ok () ∧ r.2 = m) ∨
      m.CanMove source.location target.location ∧ r.1 = .ok () ∧
        (source.location = target.location ∧ r.2 = m ∨ source.location ≠ target.location ∧
          Moved now source.location target.location m r.2) := by
  intro r
  have hr : r = m.answerUnit (m.rename now source.location target.location) := rfl
  have hiff : (∃ m', m.rename now source.location target.location = .ok m') ↔
      m.CanMove source.location target.location := rename_eq_ok_iff hm
  cases hresult : m.rename now source.location target.location with
  | error e =>
    rw [hresult] at hr hiff
    rw [hr, ← hiff]
    exact Or.inl ⟨fun ⟨m', h⟩ => (by cases h), fun h => (by cases h), rfl⟩
  | ok m' =>
    rw [hresult] at hr hiff
    have hcan := hiff.1 ⟨m', rfl⟩
    obtain ⟨o, -, -, h⟩ := rename_ok hresult
    rw [hr]
    refine Or.inr ⟨hcan, rfl, ?_⟩
    rcases h with ⟨heq, rfl⟩ | ⟨hne, -, -, rfl⟩
    · exact Or.inl ⟨heq, rfl⟩
    · exact Or.inr ⟨hne, moved_moveOver hm hcan hne now⟩

/-- A rename succeeds exactly if the object can move, and then everything at or below it has moved
and nothing else.  A rename of an object to itself changes nothing, and neither does one that
fails. -/
theorem rename_moves_subtree (hm : m.IsTree) (now : Time) (source target : Path) :
    let r := perform now (.rename source target) m
    (r.1 = .ok () ↔ m.CanMove source.location target.location) ∧
      (source.location = target.location → r.2 = m) ∧
      (r.1 ≠ .ok () → r.2 = m) ∧
      (r.1 = .ok () → source.location ≠ target.location →
        Moved now source.location target.location m r.2) := by
  intro r
  rcases rename_cases hm now source target with ⟨hcannot, hfails, hsame⟩ | ⟨hcan, hok, hends⟩
  · exact ⟨iff_of_false hfails hcannot, fun _ => hsame, fun _ => hsame,
      fun hok => absurd hok hfails⟩
  · refine ⟨iff_of_true hok hcan, fun heq => ?_, fun hfails => absurd hok hfails, fun _ hne => ?_⟩
    · exact hends.elim And.right fun hmoves => absurd heq hmoves.1
    · exact (hends.resolve_left fun hstays => hne hstays.1).2

/-- A directory with a file and a directory in it takes the place of an empty one. -/
theorem rename_moves_subtree_over_empty :
    let a := Path.root.child [0x61]
    let b := Path.root.child [0x62]
    let m := empty ⟨0⟩ false 1000
    let m := (perform ⟨1⟩ (.makeDirectory a 0o755) m).2
    let m := (perform ⟨2⟩ (.create (a.child [0x66]) 0o644 true) m).2
    let m := (perform ⟨3⟩ (.makeDirectory (a.child [0x64]) 0o755) m).2
    let m := (perform ⟨4⟩ (.makeDirectory b 0o755) m).2
    let r := perform ⟨5⟩ (.rename a b) m
    m.IsTree ∧ r.1 = .ok () ∧ a.location ≠ b.location ∧
      m.CanMove a.location b.location ∧ Moved ⟨5⟩ a.location b.location m r.2 := by
  intro a b m₀ m₁ m₂ m₃ m r
  have hm : m.IsTree := ((((isTree_empty _ _ _).perform _ _).perform _ _).perform _ _).perform _ _
  have hok : r.1 = .ok () := by decide +kernel
  have hne : a.location ≠ b.location := by decide +kernel
  obtain ⟨hiff, -, -, hmoved⟩ := rename_moves_subtree hm ⟨5⟩ a b
  exact ⟨hm, hok, hne, hiff.1 hok, hmoved hok hne⟩

end NfsServer.Memory
