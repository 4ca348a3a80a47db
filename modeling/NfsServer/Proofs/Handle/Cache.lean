import Mathlib.Data.List.Nodup
import NfsServer.Handle.Table

/-!
# What becomes of handles

A handle that is drawn is new (`HandleSource.fresh`).  Hence a handle that a cache has issued never
stands for another path than at first: later it stands for that path or for nothing
(`HandleCache.Later`), whatever was issued, used and forgotten in between.
-/

namespace NfsServer

namespace HandleCache

variable {c c' c'' : HandleCache}

/-- The handle is one of those issued so far. -/
def HasIssued (c : HandleCache) (h : FileHandle) : Prop :=
  ∃ n, n < c.issued ∧ h = c.ids.draw n

/-- No handle and no place is bound twice, only handles that were issued are bound, there is room
for all bindings and for at least one, and the table of places holds the same bindings. -/
structure WellFormed (c : HandleCache) : Prop where
  capacity_pos : 0 < c.capacity
  length_le : c.bindings.length ≤ c.capacity
  handles_nodup : (c.bindings.map Binding.handle).Nodup
  places_nodup : (c.bindings.map fun b => b.path.location).Nodup
  places_perm : c.places.Perm (c.bindings.map fun b => (b.path.location, b.handle))
  hasIssued : ∀ b ∈ c.bindings, c.HasIssued b.handle

/-- No handle that was issued stands for something else than before, and the source and the capacity
are as they were. -/
structure Later (c c' : HandleCache) : Prop where
  ids_eq : c'.ids = c.ids
  capacity_eq : c'.capacity = c.capacity
  issued_le : c.issued ≤ c'.issued
  mem_of_mem : ∀ b ∈ c'.bindings, c.HasIssued b.handle → b ∈ c.bindings

theorem Later.refl (c : HandleCache) : c.Later c := ⟨rfl, rfl, Nat.le_refl _, fun _ hb _ => hb⟩

theorem HasIssued.later {h : FileHandle} (hc : c.HasIssued h) (hlater : c.Later c') :
    c'.HasIssued h := by
  obtain ⟨n, hn, rfl⟩ := hc
  exact ⟨n, Nat.lt_of_lt_of_le hn hlater.issued_le, by rw [hlater.ids_eq]⟩

theorem Later.trans (h : c.Later c') (h' : c'.Later c'') : c.Later c'' where
  ids_eq := h'.ids_eq.trans h.ids_eq
  capacity_eq := h'.capacity_eq.trans h.capacity_eq
  issued_le := Nat.le_trans h.issued_le h'.issued_le
  mem_of_mem := fun b hb hissued =>
    h.mem_of_mem b (h'.mem_of_mem b hb (hissued.later h)) hissued

theorem wellFormed_empty (limit : Nat) (ids : HandleSource) : (empty limit ids).WellFormed where
  capacity_pos := Nat.le_max_right limit 1
  length_le := Nat.zero_le _
  handles_nodup := List.nodup_nil
  places_nodup := List.nodup_nil
  places_perm := List.Perm.nil
  hasIssued := fun _ hb => absurd hb List.not_mem_nil

/-! ## Bindings -/

theorem WellFormed.eq_of_handle_eq (h : c.WellFormed) {b b' : Binding} (hb : b ∈ c.bindings)
    (hb' : b' ∈ c.bindings) (heq : b.handle = b'.handle) : b = b' :=
  List.inj_on_of_nodup_map h.handles_nodup hb hb' heq

theorem WellFormed.eq_of_place_eq (h : c.WellFormed) {b b' : Binding} (hb : b ∈ c.bindings)
    (hb' : b' ∈ c.bindings) (heq : b.path.location = b'.path.location) : b = b' :=
  List.inj_on_of_nodup_map h.places_nodup hb hb' heq

theorem mem_of_binding? {h : FileHandle} {b : Binding} (hb : c.binding? h = some b) :
    b ∈ c.bindings ∧ b.handle = h :=
  ⟨List.mem_of_find?_eq_some hb, by simpa using List.find?_some hb⟩

theorem binding?_eq_none_iff {h : FileHandle} :
    c.binding? h = none ↔ ∀ b ∈ c.bindings, b.handle ≠ h := by
  simp [binding?]

theorem WellFormed.binding?_eq_some_iff (hc : c.WellFormed) {h : FileHandle} {b : Binding} :
    c.binding? h = some b ↔ b ∈ c.bindings ∧ b.handle = h := by
  refine ⟨mem_of_binding?, fun ⟨hb, hhandle⟩ => ?_⟩
  cases hfound : c.binding? h with
  | none => exact absurd hhandle (binding?_eq_none_iff.1 hfound b hb)
  | some b' =>
    obtain ⟨hb', hhandle'⟩ := mem_of_binding? hfound
    rw [hc.eq_of_handle_eq hb' hb (hhandle'.trans hhandle.symm)]

theorem WellFormed.exists_binding_of_mem_places (hc : c.WellFormed) {e : Location × FileHandle}
    (he : e ∈ c.places) : ∃ b ∈ c.bindings, (b.path.location, b.handle) = e :=
  List.mem_map.1 (hc.places_perm.subset he)

/-- The table of places finds exactly the handles that are bound there. -/
theorem WellFormed.handleAt?_eq_some_iff (hc : c.WellFormed) {l : Location} {h : FileHandle} :
    c.handleAt? l = some h ↔ ∃ b ∈ c.bindings, b.handle = h ∧ b.path.location = l := by
  have hmem : ∀ {x}, (l, x) ∈ c.places ↔ ∃ b ∈ c.bindings, b.handle = x ∧ b.path.location = l := by
    intro x
    simp [hc.places_perm.mem_iff, and_comm]
  unfold handleAt?
  constructor
  · intro hfound
    obtain ⟨before, after, hplaces, -⟩ := List.lookup_eq_some_iff.1 hfound
    exact hmem.1 (by simp [hplaces])
  · rintro ⟨b, hb, rfl, hplace⟩
    have hsome : (c.places.lookup l).isSome = true :=
      List.lookup_isSome_iff.2 ⟨(l, b.handle), hmem.2 ⟨b, hb, rfl, hplace⟩, beq_self_eq_true l⟩
    obtain ⟨x, hx⟩ := Option.isSome_iff_exists.1 hsome
    obtain ⟨before, after, hplaces, -⟩ := List.lookup_eq_some_iff.1 hx
    obtain ⟨b', hb', rfl, hplace'⟩ := hmem.1 (show (l, x) ∈ c.places by simp [hplaces])
    rw [hx, hc.eq_of_place_eq hb hb' (hplace.trans hplace'.symm)]

theorem WellFormed.bindingOf?_eq_some_iff (hc : c.WellFormed) {l : Location} {b : Binding} :
    c.bindingOf? l = some b ↔ b ∈ c.bindings ∧ b.path.location = l := by
  rw [bindingOf?, Option.bind_eq_some_iff]
  constructor
  · rintro ⟨h, hplace, hb⟩
    obtain ⟨hmem, rfl⟩ := mem_of_binding? hb
    obtain ⟨b', hb', hhandle, hplace'⟩ := hc.handleAt?_eq_some_iff.1 hplace
    obtain rfl := hc.eq_of_handle_eq hb' hmem hhandle
    exact ⟨hmem, hplace'⟩
  · rintro ⟨hb, hplace⟩
    exact ⟨b.handle, hc.handleAt?_eq_some_iff.2 ⟨b, hb, rfl, hplace⟩,
      hc.binding?_eq_some_iff.2 ⟨hb, rfl⟩⟩

theorem WellFormed.bindingOf?_eq_none_iff (hc : c.WellFormed) {l : Location} :
    c.bindingOf? l = none ↔ ∀ b ∈ c.bindings, b.path.location ≠ l := by
  rw [Option.eq_none_iff_forall_not_mem]
  exact ⟨fun h b hb hplace => h b (hc.bindingOf?_eq_some_iff.2 ⟨hb, hplace⟩),
    fun h b hb => h b (hc.bindingOf?_eq_some_iff.1 hb).1 (hc.bindingOf?_eq_some_iff.1 hb).2⟩

theorem later_of_subset (hids : c'.ids = c.ids) (hcapacity : c'.capacity = c.capacity)
    (hissued : c'.issued = c.issued) (hsub : c'.bindings ⊆ c.bindings) : c.Later c' :=
  ⟨hids, hcapacity, Nat.le_of_eq hissued.symm, fun _ hb _ => hsub hb⟩

/-! ## Using bindings -/

/-- Using a binding only changes the order. -/
theorem WellFormed.perm_use (h : c.WellFormed) {b : Binding} (hb : b ∈ c.bindings) :
    (c.use b).bindings.Perm c.bindings := by
  have hothers : c.bindings.filter (fun b' => b'.handle ≠ b.handle) = c.bindings.erase b := by
    rw [(h.handles_nodup.of_map _).erase_eq_filter]
    apply List.filter_congr
    intro b' hb'
    rw [Bool.eq_iff_iff, decide_eq_true_iff, bne_iff_ne]
    exact not_congr ⟨h.eq_of_handle_eq hb' hb, congrArg Binding.handle⟩
  show (b :: c.bindings.filter fun b' => b'.handle ≠ b.handle).Perm c.bindings
  rw [hothers]
  exact (List.perm_cons_erase hb).symm

theorem WellFormed.use (h : c.WellFormed) {b : Binding} (hb : b ∈ c.bindings) :
    (c.use b).WellFormed where
  capacity_pos := h.capacity_pos
  length_le := (h.perm_use hb).length_eq ▸ h.length_le
  handles_nodup := ((h.perm_use hb).map _).nodup_iff.2 h.handles_nodup
  places_nodup := ((h.perm_use hb).map _).nodup_iff.2 h.places_nodup
  places_perm := h.places_perm.trans ((h.perm_use hb).map _).symm
  hasIssued := fun b' hb' => h.hasIssued b' ((h.perm_use hb).mem_iff.1 hb')

theorem WellFormed.later_use (h : c.WellFormed) {b : Binding} (hb : b ∈ c.bindings) :
    c.Later (c.use b) :=
  ⟨rfl, rfl, Nat.le_refl _, fun _ hb' _ => (h.perm_use hb).mem_iff.1 hb'⟩

/-! ## Forgetting handles -/

theorem forget_of_not_bound {h : FileHandle} (hdead : ∀ b ∈ c.bindings, b.handle ≠ h) :
    c.forget h = c := by
  rw [forget, binding?_eq_none_iff.2 hdead]

@[simp] theorem ids_forget (c : HandleCache) (h : FileHandle) : (c.forget h).ids = c.ids := by
  unfold forget
  split <;> rfl

@[simp] theorem capacity_forget (c : HandleCache) (h : FileHandle) :
    (c.forget h).capacity = c.capacity := by
  unfold forget
  split <;> rfl

@[simp] theorem issued_forget (c : HandleCache) (h : FileHandle) :
    (c.forget h).issued = c.issued := by
  unfold forget
  split <;> rfl

theorem bindings_forget (c : HandleCache) (h : FileHandle) :
    (c.forget h).bindings = c.bindings.filter fun b => b.handle ≠ h := by
  unfold forget
  split
  · rfl
  · next hnone =>
    refine (List.filter_eq_self.2 fun b hb => ?_).symm
    exact decide_eq_true (binding?_eq_none_iff.1 hnone b hb)

theorem mem_forget_iff {h : FileHandle} {b : Binding} :
    b ∈ (c.forget h).bindings ↔ b ∈ c.bindings ∧ b.handle ≠ h := by
  rw [bindings_forget, List.mem_filter, decide_eq_true_eq]

theorem WellFormed.forget (hc : c.WellFormed) (h : FileHandle) : (c.forget h).WellFormed := by
  cases hfound : c.binding? h with
  | none => rwa [forget_of_not_bound (binding?_eq_none_iff.1 hfound)]
  | some b =>
    obtain ⟨hb, rfl⟩ := mem_of_binding? hfound
    have hsub : (c.forget b.handle).bindings.Sublist c.bindings := by
      rw [bindings_forget]
      exact List.filter_sublist
    refine ⟨?_, ?_, hc.handles_nodup.sublist (hsub.map _), hc.places_nodup.sublist (hsub.map _), ?_,
      fun b' hb' => ?_⟩
    · rw [capacity_forget]
      exact hc.capacity_pos
    · rw [capacity_forget]
      exact Nat.le_trans hsub.length_le hc.length_le
    · -- What has the handle and what lies at its place is the same binding in both tables.
      have hsame : c.bindings.filter (fun b' => b'.handle ≠ b.handle) =
          c.bindings.filter fun b' => b'.path.location ≠ b.path.location := by
        refine List.filter_congr fun b' hb' => ?_
        rw [decide_eq_decide]
        exact not_congr ⟨fun heq => by rw [hc.eq_of_handle_eq hb' hb heq],
          fun heq => by rw [hc.eq_of_place_eq hb' hb heq]⟩
      have hplaces : (c.forget b.handle).places =
          c.places.filter fun e => e.1 ≠ b.path.location := by
        rw [HandleCache.forget, hfound]
      rw [hplaces, bindings_forget, hsame]
      have hfiltered := hc.places_perm.filter fun e => decide (e.1 ≠ b.path.location)
      rwa [List.filter_map] at hfiltered
    · obtain ⟨n, hn, hhandle⟩ := hc.hasIssued b' (hsub.subset hb')
      exact ⟨n, by rwa [issued_forget], by rwa [ids_forget]⟩

theorem later_forget (c : HandleCache) (h : FileHandle) : c.Later (c.forget h) :=
  later_of_subset (c.ids_forget h) (c.capacity_forget h) (c.issued_forget h)
    fun _ hb => (mem_forget_iff.1 hb).1

theorem WellFormed.foldl_forget (hc : c.WellFormed) (hs : List FileHandle) :
    (hs.foldl HandleCache.forget c).WellFormed := by
  induction hs generalizing c with
  | nil => exact hc
  | cons h hs ih => exact ih (hc.forget h)

theorem later_foldl_forget (c : HandleCache) (hs : List FileHandle) :
    c.Later (hs.foldl forget c) := by
  induction hs generalizing c with
  | nil => exact .refl c
  | cons h hs ih => exact (c.later_forget h).trans (ih (c.forget h))

theorem bindings_foldl_forget (c : HandleCache) (hs : List FileHandle) :
    (hs.foldl forget c).bindings = c.bindings.filter fun b => b.handle ∉ hs := by
  induction hs generalizing c with
  | nil => simp
  | cons h hs ih =>
    rw [List.foldl_cons, ih, bindings_forget, List.filter_filter]
    refine List.filter_congr fun b _ => ?_
    simp [Bool.and_comm]

theorem WellFormed.mem_handlesBelow_iff (hc : c.WellFormed) {l : Location} {b : Binding}
    (hb : b ∈ c.bindings) : b.handle ∈ c.handlesBelow l ↔ l <+: b.path.location := by
  have hmem : ∀ e, e ∈ c.places ↔ ∃ x ∈ c.bindings, (x.path.location, x.handle) = e := by
    intro e
    rw [hc.places_perm.mem_iff, List.mem_map]
  simp only [handlesBelow, List.mem_map, List.mem_filter, List.isPrefixOf_iff_prefix]
  constructor
  · rintro ⟨e, ⟨he, hbelow⟩, hhandle⟩
    obtain ⟨x, hx, rfl⟩ := (hmem e).1 he
    rwa [← hc.eq_of_handle_eq hx hb hhandle]
  · intro hbelow
    exact ⟨(b.path.location, b.handle), ⟨(hmem _).2 ⟨b, hb, rfl⟩, hbelow⟩, rfl⟩

theorem WellFormed.forgetPath (h : c.WellFormed) (p : Path) : (c.forgetPath p).WellFormed :=
  h.foldl_forget _

theorem later_forgetPath (c : HandleCache) (p : Path) : c.Later (c.forgetPath p) :=
  c.later_foldl_forget _

/-- What stays bound are the bindings outside the path, in the same order. -/
theorem WellFormed.bindings_forgetPath (hc : c.WellFormed) (p : Path) :
    (c.forgetPath p).bindings = c.bindings.filter fun b => ¬p.location <+: b.path.location := by
  rw [HandleCache.forgetPath, bindings_foldl_forget]
  refine List.filter_congr fun b hb => ?_
  rw [decide_eq_decide]
  exact not_congr (hc.mem_handlesBelow_iff hb)

theorem WellFormed.mem_forgetPath_iff (hc : c.WellFormed) {p : Path} {b : Binding} :
    b ∈ (c.forgetPath p).bindings ↔ b ∈ c.bindings ∧ ¬p.location <+: b.path.location := by
  rw [hc.bindings_forgetPath, List.mem_filter, decide_eq_true_eq]

/-! ## Issuing handles -/

/-- A full cache makes room by forgetting the handle of its last binding. -/
theorem WellFormed.evict_eq (hc : c.WellFormed) :
    (c.bindings.length < c.capacity ∧ c.evict = c) ∨
      (c.bindings.length = c.capacity ∧ ∃ front last, c.bindings = front ++ [last] ∧
        c.evict = c.forget last.handle ∧ c.evict.bindings = front) := by
  by_cases hroom : c.bindings.length < c.capacity
  · exact Or.inl ⟨hroom, if_pos hroom⟩
  · right
    refine ⟨Nat.le_antisymm hc.length_le (Nat.le_of_not_lt hroom), ?_⟩
    have hpos := hc.capacity_pos
    obtain ⟨front, last, hlast⟩ : ∃ front last, c.bindings = front ++ [last] := by
      rcases List.eq_nil_or_concat' c.bindings with hnil | hlast
      · simp only [hnil, List.length_nil] at hroom
        omega
      · exact hlast
    have hfront : ∀ b ∈ front, b.handle ≠ last.handle := by
      have hnodup := hc.handles_nodup
      rw [hlast, List.map_append, List.nodup_append] at hnodup
      intro b hb
      exact hnodup.2.2 _ (List.mem_map_of_mem hb) _ (by simp)
    have hothers : c.bindings.filter (fun b => b.handle ≠ last.handle) = front := by
      rw [hlast, List.filter_append, List.filter_eq_self.2 fun b hb => decide_eq_true (hfront b hb)]
      simp
    have hfound : c.binding? last.handle = some last :=
      hc.binding?_eq_some_iff.2 ⟨by simp [hlast], rfl⟩
    have hevict : c.evict = c.forget last.handle := by
      unfold evict HandleCache.forget
      rw [if_neg hroom, hfound]
      simp only [hothers]
      simp [hlast]
    exact ⟨front, last, hlast, hevict, by rw [hevict, bindings_forget, hothers]⟩

/-- Behind the making of room there is room, and no binding is new. -/
theorem WellFormed.evict (hc : c.WellFormed) :
    c.evict.WellFormed ∧ c.evict.bindings.length < c.evict.capacity ∧
      c.evict.bindings.Sublist c.bindings ∧ c.evict.ids = c.ids ∧ c.evict.issued = c.issued ∧
      c.evict.capacity = c.capacity := by
  rcases hc.evict_eq with ⟨hroom, heq⟩ | ⟨hfull, front, last, hlast, hforget, hfront⟩
  · rw [heq]
    exact ⟨hc, hroom, List.Sublist.refl _, rfl, rfl, rfl⟩
  · have hcapacity : c.evict.capacity = c.capacity := by rw [hforget, capacity_forget]
    refine ⟨hforget ▸ hc.forget _, ?_, ?_, by rw [hforget, ids_forget],
      by rw [hforget, issued_forget], hcapacity⟩
    · rw [hfront, hcapacity, ← hfull, hlast, List.length_append, List.length_singleton]
      exact Nat.lt_succ_self _
    · rw [hfront, hlast]
      exact List.sublist_append_left _ _

/-- The handle that is drawn next is new. -/
theorem not_hasIssued_next (c : HandleCache) : ¬c.HasIssued (c.ids.draw c.issued) := by
  rintro ⟨n, hn, heq⟩
  exact Nat.lt_irrefl n (c.ids.fresh heq ▸ hn)

theorem WellFormed.add (hc : c.WellFormed) (hroom : c.bindings.length < c.capacity) {p : Path}
    (hfree : ∀ b ∈ c.bindings, b.path.location ≠ p.location) :
    (c.add ⟨c.ids.draw c.issued, p⟩).WellFormed where
  capacity_pos := hc.capacity_pos
  length_le := hroom
  handles_nodup := by
    refine List.nodup_cons.2 ⟨fun hmem => ?_, hc.handles_nodup⟩
    obtain ⟨b, hb, heq⟩ := List.mem_map.1 hmem
    have hissued := hc.hasIssued b hb
    rw [heq] at hissued
    exact c.not_hasIssued_next hissued
  places_nodup := by
    refine List.nodup_cons.2 ⟨fun hmem => ?_, hc.places_nodup⟩
    obtain ⟨b, hb, heq⟩ := List.mem_map.1 hmem
    exact hfree b hb heq
  places_perm := by
    have hkept : c.places.filter (fun e => e.1 ≠ p.location) = c.places := by
      refine List.filter_eq_self.2 fun e he => ?_
      obtain ⟨b, hb, rfl⟩ := List.mem_map.1 (hc.places_perm.mem_iff.1 he)
      exact decide_eq_true (hfree b hb)
    unfold HandleCache.add
    rw [hkept]
    exact hc.places_perm.cons _
  hasIssued := by
    intro b hb
    rcases List.mem_cons.1 hb with rfl | hb
    · exact ⟨c.issued, Nat.lt_succ_self _, rfl⟩
    · obtain ⟨n, hn, hhandle⟩ := hc.hasIssued b hb
      exact ⟨n, Nat.lt_succ_of_lt hn, hhandle⟩

theorem issue_of_bound {p : Path} {b : Binding} (hb : c.bindingOf? p.location = some b) :
    c.issue p = (b.handle, c.use b) := by
  rw [issue, hb]

theorem issue_of_not_bound {p : Path} (hnone : c.bindingOf? p.location = none) :
    c.issue p = (c.ids.draw c.issued, c.evict.add ⟨c.ids.draw c.issued, p⟩) := by
  rw [issue, hnone]

/-- What issuing a handle leaves: the path has the handle now, and nothing else has been bound. -/
theorem WellFormed.issue (h : c.WellFormed) (p : Path) :
    (c.issue p).2.WellFormed ∧ c.Later (c.issue p).2 ∧
      (∃ b ∈ (c.issue p).2.bindings, b.handle = (c.issue p).1 ∧ b.path.location = p.location) ∧
      ∀ b ∈ (c.issue p).2.bindings, b ∈ c.bindings ∨ b.path = p := by
  cases hfound : c.bindingOf? p.location with
  | some b =>
    rw [issue_of_bound hfound]
    obtain ⟨hmem, hplace⟩ := h.bindingOf?_eq_some_iff.1 hfound
    have hperm := h.perm_use hmem
    exact ⟨h.use hmem, h.later_use hmem, ⟨b, List.mem_cons_self, rfl, hplace⟩,
      fun b' hb' => Or.inl (hperm.mem_iff.1 hb')⟩
  | none =>
    rw [issue_of_not_bound hfound]
    obtain ⟨hwell, hroom, hsub, hids, hissued, hcapacity⟩ := h.evict
    have hfree : ∀ b ∈ c.evict.bindings, b.path.location ≠ p.location := fun b hb =>
      h.bindingOf?_eq_none_iff.1 hfound b (hsub.subset hb)
    have hadded := hwell.add hroom hfree
    rw [hids, hissued] at hadded
    have hmem : ∀ b ∈ (c.evict.add ⟨c.ids.draw c.issued, p⟩).bindings,
        b = ⟨c.ids.draw c.issued, p⟩ ∨ b ∈ c.bindings :=
      fun b hb => (List.mem_cons.1 hb).imp_right (hsub.subset ·)
    refine ⟨hadded, ⟨hids, hcapacity, ?_, fun b hb hold => ?_⟩, ⟨_, List.mem_cons_self, rfl, rfl⟩,
      fun b hb => ?_⟩
    · show c.issued ≤ c.evict.issued + 1
      omega
    · rcases hmem b hb with rfl | hb
      · exact absurd hold c.not_hasIssued_next
      · exact hb
    · rcases hmem b hb with rfl | hb
      · exact Or.inr rfl
      · exact Or.inl hb

/-! ## Resolving handles -/

theorem resolve_eq_some {h : FileHandle} {p : Path} (heq : (c.resolve h).1 = some p) :
    ⟨h, p⟩ ∈ c.bindings ∧ (c.resolve h).2 = c.use ⟨h, p⟩ := by
  unfold resolve at heq ⊢
  split at heq
  · next b hb =>
    obtain ⟨hmem, rfl⟩ := mem_of_binding? hb
    obtain rfl := Option.some.inj heq
    exact ⟨hmem, rfl⟩
  · cases heq

theorem resolve_eq_none {h : FileHandle} (heq : (c.resolve h).1 = none) :
    (∀ b ∈ c.bindings, b.handle ≠ h) ∧ (c.resolve h).2 = c := by
  unfold resolve at heq ⊢
  split at heq
  · cases heq
  · next hnone =>
    exact ⟨fun b hb hhandle => List.find?_eq_none.1 hnone b hb (decide_eq_true hhandle), rfl⟩

theorem WellFormed.resolve_eq (hc : c.WellFormed) {b : Binding} (hb : b ∈ c.bindings) :
    (c.resolve b.handle).1 = some b.path := by
  rcases heq : (c.resolve b.handle).1 with _ | p
  · exact absurd rfl ((resolve_eq_none heq).1 b hb)
  · exact congrArg (some ·.path) (hc.eq_of_handle_eq (resolve_eq_some heq).1 hb rfl)

theorem WellFormed.resolve (hc : c.WellFormed) (h : FileHandle) :
    (c.resolve h).2.WellFormed ∧ c.Later (c.resolve h).2 ∧
      (c.resolve h).2.bindings.Perm c.bindings := by
  rcases heq : (c.resolve h).1 with _ | p
  · rw [(resolve_eq_none heq).2]
    exact ⟨hc, .refl c, List.Perm.refl _⟩
  · obtain ⟨hmem, hresolve⟩ := resolve_eq_some heq
    rw [hresolve]
    exact ⟨hc.use hmem, hc.later_use hmem, hc.perm_use hmem⟩

end HandleCache

end NfsServer
