import Mathlib.Data.List.Nodup
import Mathlib.Tactic.ByContra
import NfsServer.Proofs.Path.Location
import NfsServer.Proofs.Store.Changes

/-!
# Stores as trees

The objects of a store in memory form a tree (`Memory.IsTree`): every place is taken once, every
object but the root lies in a directory, and no two objects have the same number.  An empty store is
a tree, each of the four changes keeps it one, and so it is one after any sequence of requests.
-/

namespace NfsServer

namespace Memory

variable {m m' : Memory} {now : Time} {l k : Location}

/-- The objects form a tree, and their numbers tell them apart. -/
structure IsTree (m : Memory) : Prop where
  places_nodup : (m.objects.map Prod.fst).Nodup
  root_mem : ∃ o, (Location.root, o) ∈ m.objects ∧ o.isDirectory = true
  parent_mem : ∀ e ∈ m.objects, e.1 = Location.root ∨
    ∃ k d, e.1.parent? = some k ∧ (k, d) ∈ m.objects ∧ d.isDirectory = true
  ids_nodup : (m.objects.map fun e => e.2.fileId).Nodup
  ids_lt : ∀ e ∈ m.objects, e.2.fileId < m.nextId

namespace IsTree

/-! ## Reading a tree -/

theorem mem_erase {e : Location × Object} :
    e ∈ (m.erase l).objects ↔ e ∈ m.objects ∧ e.1 ≠ l := by
  rw [Memory.erase, List.mem_filter, decide_eq_true_eq]

theorem eq_of_mem (h : m.IsTree) {o o' : Object} (ho : (l, o) ∈ m.objects)
    (ho' : (l, o') ∈ m.objects) : o = o' :=
  congrArg Prod.snd (List.inj_on_of_nodup_map h.places_nodup ho ho' rfl)

theorem find?_eq_some_iff (h : m.IsTree) {o : Object} :
    m.find? l = some o ↔ (l, o) ∈ m.objects := by
  refine ⟨mem_of_find?, fun ho => ?_⟩
  obtain ⟨o', ho'⟩ := Option.isSome_iff_exists.1 (find?_isSome_of_mem ho)
  rw [ho', h.eq_of_mem (mem_of_find? ho') ho]

/-- No two places hold objects with the same number. -/
theorem eq_of_idAt_eq (h : m.IsTree) {f : Nat} (hl : m.idAt l = some f) (hk : m.idAt k = some f) :
    l = k := by
  obtain ⟨o, ho, hof⟩ := idAt_eq_some_iff.1 hl
  obtain ⟨o', ho', hof'⟩ := idAt_eq_some_iff.1 hk
  exact congrArg Prod.fst (List.inj_on_of_nodup_map h.ids_nodup (mem_of_find? ho)
    (mem_of_find? ho') (hof.trans hof'.symm))

theorem ne_nil_of_mem (h : m.IsTree) {o : Object} (ho : (l, o) ∈ m.objects) : l ≠ [] := by
  rintro rfl
  rcases h.parent_mem _ ho with hroot | ⟨k, d, hk, -⟩
  · cases hroot
  · cases hk

/-- Every place on the way to an object holds a directory. -/
theorem mem_of_prefix (h : m.IsTree) {o : Object} (ho : (l, o) ∈ m.objects) (hk : k <+: l)
    (hnil : k ≠ []) (hne : k ≠ l) : ∃ d, (k, d) ∈ m.objects ∧ d.isDirectory = true := by
  -- The induction goes up from the object, one directory at a time.
  induction hn : l.length generalizing l o with
  | zero => exact absurd (List.eq_nil_of_length_eq_zero hn) (h.ne_nil_of_mem ho)
  | succ n ih =>
    rcases h.parent_mem _ ho with hroot | ⟨j, d, hj, hd, hdirectory⟩
    · -- Only the empty place lies above the root.
      dsimp only at hroot
      subst hroot
      rcases List.prefix_cons_iff.1 hk with rfl | ⟨t, rfl, ht⟩
      · exact absurd rfl hnil
      · rw [List.prefix_nil.1 ht] at hne
        exact absurd rfl hne
    · obtain ⟨c, -, hl⟩ := Location.parent?_eq_some_iff.1 hj
      dsimp only at hl
      subst hl
      rw [List.prefix_concat_iff] at hk
      have hkj : k <+: j := hk.resolve_left hne
      by_cases heq : k = j
      · exact ⟨d, heq ▸ hd, hdirectory⟩
      · exact ih hd hkj heq (by simpa using hn)

/-- Every object lies below the root. -/
theorem root_prefix (h : m.IsTree) {o : Object} (ho : (l, o) ∈ m.objects) :
    Location.root <+: l := by
  obtain ⟨c, t, rfl⟩ := List.exists_cons_of_ne_nil (h.ne_nil_of_mem ho)
  have hfirst : ∃ d, ([c], d) ∈ m.objects := by
    by_cases ht : [c] = c :: t
    · exact ⟨o, ht ▸ ho⟩
    · obtain ⟨d, hd, -⟩ := h.mem_of_prefix ho ⟨t, rfl⟩ (List.cons_ne_nil c []) ht
      exact ⟨d, hd⟩
  obtain ⟨d, hd⟩ := hfirst
  rcases h.parent_mem _ hd with hroot | ⟨k, d', hk, hd', -⟩
  · exact ⟨t, by rw [← show [c] = Location.root from hroot, List.singleton_append]⟩
  · -- The place above a single component would be the empty place.
    obtain rfl : [] = k := Location.eq_of_parent?_append_singleton hk
    exact absurd rfl (h.ne_nil_of_mem hd')

/-- What has something below it is a directory with children. -/
theorem hasChildren_of_prefix (h : m.IsTree) {o : Object} (ho : (l, o) ∈ m.objects) (hk : k <+: l)
    (hnil : k ≠ []) (hne : k ≠ l) :
    (∃ d, (k, d) ∈ m.objects ∧ d.isDirectory = true) ∧ m.hasChildren k = true := by
  refine ⟨h.mem_of_prefix ho hk hnil hne, ?_⟩
  obtain ⟨t, rfl⟩ := hk
  obtain ⟨c, t, rfl⟩ := List.exists_cons_of_ne_nil (l := t) fun ht =>
    hne (by rw [ht, List.append_nil])
  have hchild : ∃ d, (k ++ [c], d) ∈ m.objects := by
    by_cases ht : k ++ [c] = k ++ c :: t
    · exact ⟨o, ht ▸ ho⟩
    · obtain ⟨d, hd, -⟩ := h.mem_of_prefix ho ⟨t, by simp⟩ (by simp) ht
      exact ⟨d, hd⟩
  obtain ⟨d, hd⟩ := hchild
  rw [hasChildren, List.any_eq_true]
  refine ⟨_, hd, ?_⟩
  rcases h.parent_mem _ hd with hroot | ⟨j, d', hj, -⟩
  · exact absurd (congrArg List.length hroot) (by simp [Location.root, hnil])
  · obtain rfl := Location.eq_of_parent?_append_singleton hj
    exact decide_eq_true hj

/-! ## The four changes keep the tree -/

/-- Objects may change as long as they keep their numbers and stay or do not become directories. -/
theorem modify (h : m.IsTree) {f : Object → Object} (hf : ∀ o, (l, o) ∈ m.objects →
    (f o).fileId = o.fileId ∧ (f o).isDirectory = o.isDirectory) : (m.modify l f).IsTree := by
  let g : Location × Object → Location × Object := fun e => (e.1, if e.1 = l then f e.2 else e.2)
  have hobjects : (m.modify l f).objects = m.objects.map g := rfl
  have hg : ∀ e ∈ m.objects, (g e).2.fileId = e.2.fileId ∧
      (g e).2.isDirectory = e.2.isDirectory := by
    rintro ⟨k, o⟩ he
    by_cases hk : k = l
    · subst hk
      simpa [g] using hf o he
    · simp [g, hk]
  constructor
  · rw [hobjects, List.map_map]
    exact h.places_nodup
  · obtain ⟨o, ho, hdirectory⟩ := h.root_mem
    exact ⟨_, List.mem_map_of_mem ho, (hg _ ho).2.trans hdirectory⟩
  · intro e' he'
    obtain ⟨e, he, rfl⟩ := List.mem_map.1 he'
    apply (h.parent_mem e he).imp_right
    rintro ⟨k, d, hk, hd, hdirectory⟩
    exact ⟨k, _, hk, List.mem_map_of_mem hd, (hg _ hd).2.trans hdirectory⟩
  · rw [hobjects, List.map_map]
    have hids : m.objects.map ((fun e => e.2.fileId) ∘ g) = m.objects.map fun e => e.2.fileId :=
      List.map_congr_left fun e he => (hg e he).1
    rw [hids]
    exact h.ids_nodup
  · intro e' he'
    obtain ⟨e, he, rfl⟩ := List.mem_map.1 he'
    rw [(hg e he).1]
    exact h.ids_lt e he

theorem touchParent (h : m.IsTree) : (m.touchParent now l).IsTree :=
  h.modify fun _ _ => ⟨rfl, rfl⟩

theorem parent_of_checkParent (h : m.checkParent l = .ok ()) :
    ∃ k d, l.parent? = some k ∧ (k, d) ∈ m.objects ∧ d.isDirectory = true := by
  unfold checkParent at h
  split at h
  · cases h
  · next k hk =>
    split at h
    · cases h
    · next d hd =>
      split at h
      · next hdirectory => exact ⟨k, d, hk, mem_of_find? hd, hdirectory⟩
      · cases h

/-- Where an entry may be put, its directory is there. -/
theorem mem_of_checkParent {above : Location} {c : Component}
    (h : m.checkParent (above ++ [c]) = .ok ()) :
    ∃ d, (above, d) ∈ m.objects ∧ d.isDirectory = true := by
  obtain ⟨k, d, hk, hd, hdirectory⟩ := parent_of_checkParent h
  obtain rfl := Location.eq_of_parent?_append_singleton hk
  exact ⟨d, hd, hdirectory⟩

theorem insert (h : m.IsTree) (hparent : m.checkParent l = .ok ()) (hfree : m.find? l = none)
    (mode : UInt32) (contents : Contents) : (m.insert now l mode contents).IsTree := by
  refine touchParent (m := { m with
    objects := (l, m.newObject now mode contents) :: m.objects, nextId := m.nextId + 1 }) ?_
  have hnew : ∀ e ∈ m.objects, e.1 ≠ l := by
    rintro ⟨k, o⟩ he rfl
    exact absurd (find?_isSome_of_mem he) (by rw [hfree]; exact Bool.false_ne_true)
  constructor
  · refine List.nodup_cons.2 ⟨fun hl => ?_, h.places_nodup⟩
    obtain ⟨e, he, hel⟩ := List.mem_map.1 hl
    exact hnew e he hel
  · obtain ⟨o, ho, hdirectory⟩ := h.root_mem
    exact ⟨o, List.mem_cons_of_mem _ ho, hdirectory⟩
  · intro e he
    have habove : e.1 = Location.root ∨
        ∃ k d, e.1.parent? = some k ∧ (k, d) ∈ m.objects ∧ d.isDirectory = true := by
      rcases List.mem_cons.1 he with rfl | he
      · exact Or.inr (parent_of_checkParent hparent)
      · exact h.parent_mem e he
    exact habove.imp_right fun ⟨k, d, hk, hd, hdirectory⟩ =>
      ⟨k, d, hk, List.mem_cons_of_mem _ hd, hdirectory⟩
  · refine List.nodup_cons.2 ⟨fun hid => ?_, h.ids_nodup⟩
    obtain ⟨e, he, heq⟩ := List.mem_map.1 hid
    exact absurd heq (Nat.ne_of_lt (h.ids_lt e he))
  · intro e he
    rcases List.mem_cons.1 he with rfl | he
    · exact Nat.lt_succ_self m.nextId
    · exact Nat.lt_succ_of_lt (h.ids_lt e he)

/-- An object can go unless it is the root or something lies below it. -/
theorem erase (h : m.IsTree) (hroot : l ≠ Location.root)
    (hempty : ∀ e ∈ m.objects, e.1.parent? ≠ some l) : (m.erase l).IsTree := by
  have hsub : (m.erase l).objects.Sublist m.objects := List.filter_sublist
  constructor
  · exact h.places_nodup.sublist (hsub.map _)
  · obtain ⟨o, ho, hdirectory⟩ := h.root_mem
    exact ⟨o, mem_erase.2 ⟨ho, hroot.symm⟩, hdirectory⟩
  · intro e he
    apply (h.parent_mem e (mem_erase.1 he).1).imp_right
    rintro ⟨k, d, hk, hd, hdirectory⟩
    refine ⟨k, d, hk, mem_erase.2 ⟨hd, ?_⟩, hdirectory⟩
    rintro rfl
    exact hempty e (mem_erase.1 he).1 hk
  · exact h.ids_nodup.sublist (hsub.map _)
  · exact fun e he => h.ids_lt e (mem_erase.1 he).1

theorem relocate_injOn {source target a b : Location} (ha : ¬target <+: a) (hb : ¬target <+: b)
    (h : relocate source target a = relocate source target b) : a = b := by
  by_cases hsa : source <+: a
  · obtain ⟨x, rfl⟩ := hsa
    rw [relocate_append] at h
    by_cases hsb : source <+: b
    · obtain ⟨y, rfl⟩ := hsb
      rw [relocate_append] at h
      rw [List.append_cancel_left h]
    · rw [relocate_eq_self _ hsb] at h
      exact absurd (h ▸ List.prefix_append target x) hb
  · rw [relocate_eq_self _ hsa] at h
    by_cases hsb : source <+: b
    · obtain ⟨y, rfl⟩ := hsb
      rw [relocate_append] at h
      exact absurd (h.symm ▸ List.prefix_append target y) ha
    · rwa [relocate_eq_self _ hsb] at h

/-- An object and all below it can move to a free place that does not lie below it. -/
theorem move (h : m.IsTree) {source target : Location} {o : Object} (ho : (source, o) ∈ m.objects)
    (hparent : ∃ k d, target.parent? = some k ∧ (k, d) ∈ m.objects ∧ d.isDirectory = true)
    (houtside : ¬source <+: target) (hfree : ∀ e ∈ m.objects, ¬target <+: e.1) :
    (m.move source target).IsTree := by
  have hmem : ∀ {e}, e ∈ m.objects →
      (relocate source target e.1, e.2) ∈ (m.move source target).objects := by
    intro e he
    rw [objects_move]
    exact List.mem_map_of_mem he
  obtain ⟨above, da, habove, hda, hdirectory⟩ := hparent
  have hinside : ¬source <+: above := by
    obtain ⟨c, -, rfl⟩ := Location.parent?_eq_some_iff.1 habove
    exact fun hs => houtside (hs.trans (List.prefix_append above [c]))
  have hroot : ¬source <+: Location.root := fun hs =>
    hinside (hs.trans (h.root_prefix hda))
  constructor
  · rw [objects_move, List.map_map]
    apply (List.nodup_map_iff_inj_on (h.places_nodup.of_map Prod.fst)).2
    intro e he e' he' heq
    exact List.inj_on_of_nodup_map h.places_nodup he he'
      (relocate_injOn (hfree e he) (hfree e' he') heq)
  · obtain ⟨r, hr, hdirectory⟩ := h.root_mem
    exact ⟨r, relocate_eq_self target hroot ▸ hmem hr, hdirectory⟩
  · intro e' he'
    rw [objects_move] at he'
    obtain ⟨e, he, rfl⟩ := List.mem_map.1 he'
    dsimp only
    rcases h.parent_mem e he with heq | ⟨k, d, hk, hd, hdirectory'⟩
    · exact Or.inl (by rw [heq, relocate_eq_self _ hroot])
    · apply Or.inr
      obtain ⟨c, hc, heq⟩ := Location.parent?_eq_some_iff.1 hk
      rw [heq]
      by_cases hs : source <+: k ++ [c]
      · rcases List.prefix_concat_iff.1 hs with rfl | hsk
        · -- The moved object itself comes to lie where the target was checked to lie.
          refine ⟨above, da, ?_, relocate_eq_self target hinside ▸ hmem hda,
            hdirectory⟩
          have htarget := relocate_append (k ++ [c]) target []
          rw [List.append_nil, List.append_nil] at htarget
          rw [htarget]
          exact habove
        · obtain ⟨x, rfl⟩ := hsk
          refine ⟨target ++ x, d, ?_, relocate_append source target x ▸ hmem hd, hdirectory'⟩
          rw [List.append_assoc, relocate_append, ← List.append_assoc]
          exact Location.parent?_append_singleton _ hc
      · have hsk : ¬source <+: k := fun hsk => hs (hsk.trans (List.prefix_append k [c]))
        refine ⟨k, d, ?_, relocate_eq_self target hsk ▸ hmem hd, hdirectory'⟩
        rw [relocate_eq_self _ hs]
        exact Location.parent?_append_singleton k hc
  · rw [objects_move, List.map_map]
    exact h.ids_nodup
  · intro e' he'
    rw [objects_move] at he'
    obtain ⟨e, he, rfl⟩ := List.mem_map.1 he'
    exact h.ids_lt e he

/-- Where a move may go, nothing is left once the object there has been erased. -/
theorem free_of_checkReplace (h : m.IsTree) {target : Location} {isDirectory : Bool}
    (hparent : m.checkParent target = .ok ())
    (hreplace : m.checkReplace isDirectory target = .ok ()) :
    ∀ e ∈ m.objects, target <+: e.1 → e.1 = target := by
  rintro ⟨l, o⟩ he hprefix
  by_contra hne
  have hnil : target ≠ [] := by
    rintro rfl
    obtain ⟨_, _, hk, -⟩ := parent_of_checkParent hparent
    cases hk
  obtain ⟨⟨d, hd, hdirectory⟩, hchildren⟩ := h.hasChildren_of_prefix he hprefix hnil (Ne.symm hne)
  unfold checkReplace at hreplace
  rw [h.find?_eq_some_iff.2 hd] at hreplace
  dsimp only at hreplace
  rw [hdirectory, hchildren] at hreplace
  cases isDirectory <;> cases hreplace

end IsTree

/-- Each of the four changes keeps the tree. -/
theorem Change.isTree {vacated occupied : List Location} (h : Change now m vacated occupied m')
    (hm : m.IsTree) : m'.IsTree := by
  cases h with
  | add hparent hfree _ => exact hm.insert hparent hfree _ _
  | @alter l o o' ho halters =>
    apply hm.modify
    intro x hx
    obtain rfl := hm.eq_of_mem hx (mem_of_find? ho)
    exact ⟨halters.fileId_eq, by rw [Object.isDirectory, halters.kind_eq, Object.isDirectory]⟩
  | @remove l o ho hempty =>
    refine (hm.erase ?_ fun e he hl => ?_).touchParent
    · rintro rfl
      obtain ⟨r, hr, hdirectory⟩ := hm.root_mem
      obtain rfl := hm.eq_of_mem hr (mem_of_find? ho)
      exact (hempty hdirectory).1 rfl
    · rcases hm.parent_mem e he with hroot | ⟨k, d, hk, hd, hdirectory⟩
      · rw [hroot] at hl
        cases hl
      · obtain rfl := Option.some.inj (hl.symm.trans hk)
        obtain rfl := hm.eq_of_mem hd (mem_of_find? ho)
        -- A parent has a child, but what is removed is empty.
        have hchildren : m.hasChildren l = true :=
          List.any_eq_true.2 ⟨e, he, decide_eq_true hl⟩
        rw [(hempty hdirectory).2] at hchildren
        cases hchildren
  | @move source target o ho hparent hne houtside hreplace =>
    -- Erasing the target first clears the place, so that the moved places meet no others there.
    have hfree := hm.free_of_checkReplace hparent hreplace
    obtain ⟨k, d, hk, hd, hdirectory⟩ := IsTree.parent_of_checkParent hparent
    obtain ⟨c, -, htarget⟩ := Location.parent?_eq_some_iff.1 hk
    have herase : (m.erase target).IsTree := by
      refine hm.erase (fun hroot => ?_) fun e he htarget => ?_
      · rw [hroot] at hk
        cases hk
      · obtain ⟨c, -, heq⟩ := Location.parent?_eq_some_iff.1 htarget
        have hsame := hfree e he (heq ▸ List.prefix_append target [c])
        rw [hsame] at heq
        simp at heq
    have hmoved : ((m.erase target).move source target).IsTree := by
      refine herase.move (IsTree.mem_erase.2 ⟨mem_of_find? ho, hne⟩) ?_ houtside
        fun e he hprefix => ?_
      · refine ⟨k, d, hk, IsTree.mem_erase.2 ⟨hd, fun heq => ?_⟩, hdirectory⟩
        dsimp only at heq
        rw [heq] at htarget
        simp at htarget
      · exact (IsTree.mem_erase.1 he).2 (hfree e (IsTree.mem_erase.1 he).1 hprefix)
    exact hmoved.touchParent.touchParent

/-- A store is a tree behind every request, whatever becomes of the request. -/
theorem IsTree.perform {α : Type} (h : m.IsTree) (now : Time) (r : StoreRequest α) :
    (perform now r m).2.IsTree := by
  rcases perform_change now r m with heq | hchange
  · rwa [heq]
  · exact hchange.isTree h

theorem kept_isTree : Kept IsTree := fun now r _ h => h.perform now r

theorem isTree_empty (now : Time) (isReadOnly : Bool) (maxFileSize : Nat) :
    (empty now isReadOnly maxFileSize).IsTree where
  places_nodup := List.nodup_singleton _
  root_mem := ⟨_, List.mem_cons_self, rfl⟩
  parent_mem := by
    intro e he
    obtain rfl := List.mem_singleton.1 he
    exact Or.inl rfl
  ids_nodup := List.nodup_singleton _
  ids_lt := by
    intro e he
    obtain rfl := List.mem_singleton.1 he
    exact Nat.lt_succ_self 1

/-- The stores that requests make out of empty ones. -/
inductive Built : Memory → Prop
  | empty (now : Time) (isReadOnly : Bool) (maxFileSize : Nat) :
      Built (empty now isReadOnly maxFileSize)
  | perform {m : Memory} (h : Built m) {α : Type} (now : Time) (r : StoreRequest α) :
      Built (perform now r m).2

theorem Built.isTree (h : m.Built) : m.IsTree := by
  induction h with
  | empty now isReadOnly maxFileSize => exact isTree_empty now isReadOnly maxFileSize
  | perform _ now r ih => exact ih.perform now r

end Memory

end NfsServer
