import Mathlib.Data.Finset.Card
import NfsServer.Proofs.Handle.Calls

/-!
# The least recently used binding

A handle is used when it is issued and when it is resolved (`HandleCache.usedBy?`); to forget a
handle uses none.  The bindings of a cache are ordered by their last uses (`HandleCache.Ordered`),
and every call keeps them so.  A full cache drops the last of them, which has not been used for the
longest time (`HandleCache.WellFormed.dropped`).  Hence a handle stays alive until as many other
handles as there is room for have been used, and unless something is forgotten no longer than that
(`HandleCache.WellFormed.mem_after`, `HandleCache.WellFormed.card_uses_lt`).  Both together tell
which of the handles are alive that were issued one after the other
(`HandleCache.WellFormed.fate_of_issued`).
-/

namespace NfsServer

namespace FileHandle

variable {used since : List FileHandle} {h h' : FileHandle}

/-- How many uses have come since the last use of a handle. -/
def age (used : List FileHandle) (h : FileHandle) : Nat := used.reverse.idxOf h

theorem age_append_self (used : List FileHandle) (h : FileHandle) : age (used ++ [h]) h = 0 := by
  simp [age]

theorem age_append_of_ne (used : List FileHandle) (hne : h ≠ h') :
    age (used ++ [h']) h = age used h + 1 := by
  simp [age, List.idxOf_cons_ne _ hne.symm]

/-- What has been used since is younger than what has not. -/
theorem age_lt_of_mem (used : List FileHandle) (hh : h ∉ since) (hh' : h' ∈ since) :
    age (used ++ since) h' < age (used ++ since) h := by
  have hlt := List.idxOf_lt_length_of_mem (show h' ∈ since.reverse by simpa using hh')
  have hold : h ∉ since.reverse := by simpa using hh
  simp only [age, List.reverse_append, List.idxOf_append_of_notMem hold]
  rw [List.idxOf_append_of_mem (by simpa using hh')]
  omega

/-- What is younger than a handle has been used since a use of the handle. -/
theorem mem_of_age_lt (hlt : age (used ++ h :: since) h' < age (used ++ h :: since) h) :
    h' ∈ since := by
  by_contra hnot
  by_cases heq : h' = h
  · rw [heq] at hlt
    exact Nat.lt_irrefl _ hlt
  · have hold : h' ∉ h :: since := by simp [heq, hnot]
    have hyounger := age_lt_of_mem used hold List.mem_cons_self
    omega

end FileHandle

namespace HandleCache

variable {c : HandleCache} {used : List FileHandle} {b : Binding}

/-- The handle that a call uses: one that is issued, or one that is resolved and live. -/
def usedBy? (c : HandleCache) : CacheCall → Option FileHandle
  | .issue p => some (c.issue p).1
  | .resolve h => if (c.resolve h).1.isSome then some h else none
  | .forget _ | .forgetPath _ => none

/-- The handles that a sequence of calls uses, one after the other. -/
def uses (c : HandleCache) : List CacheCall → List FileHandle
  | [] => []
  | call :: rest => (c.usedBy? call).toList ++ (c.next call).uses rest

theorem uses_append (c : HandleCache) (calls calls' : List CacheCall) :
    c.uses (calls ++ calls') = c.uses calls ++ (c.after calls).uses calls' := by
  induction calls generalizing c with
  | nil => rfl
  | cons call calls ih =>
    rw [List.cons_append, uses, uses, ih, List.append_assoc]
    rfl

/-- A handle is live when it has just been used. -/
theorem WellFormed.mem_of_usedBy? (hc : c.WellFormed) {call : CacheCall} {h : FileHandle}
    (hused : c.usedBy? call = some h) : ∃ b ∈ (c.next call).bindings, b.handle = h ∧
      (∀ p, call = .issue p → b.path.SamePlace p) ∧ (call = .resolve h → b ∈ c.bindings) := by
  cases call with
  | issue p =>
    obtain ⟨-, -, ⟨b, hb, hhandle, hplace⟩, -⟩ := hc.issue p
    obtain rfl : (c.issue p).1 = h := by simpa [usedBy?] using hused
    refine ⟨b, hb, hhandle, ?_, nofun⟩
    rintro _ ⟨⟩
    exact hplace
  | resolve x =>
    rcases heq : (c.resolve x).1 with _ | p
    · simp [usedBy?, heq] at hused
    · obtain ⟨hmem, hnext⟩ := resolve_eq_some heq
      obtain rfl : x = h := by simpa [usedBy?, heq] using hused
      refine ⟨⟨x, p⟩, ?_, rfl, nofun, fun _ => hmem⟩
      rw [HandleCache.next, hnext]
      exact List.mem_cons_self
  | forget | forgetPath => simp [usedBy?] at hused

/-! ## The order of the bindings -/

/-- The bindings have been used, and they stand in the order of their last uses, the latest
first. -/
structure Ordered (c : HandleCache) (used : List FileHandle) : Prop where
  pairwise : c.bindings.Pairwise fun b b' => b.handle.age used < b'.handle.age used
  mem_used : ∀ b ∈ c.bindings, b.handle ∈ used

theorem ordered_empty (limit : Nat) (ids : HandleSource) : (empty limit ids).Ordered [] :=
  ⟨List.Pairwise.nil, nofun⟩

theorem Ordered.sublist {c' : HandleCache} (h : c.Ordered used)
    (hsub : c'.bindings.Sublist c.bindings) : c'.Ordered used :=
  ⟨h.pairwise.sublist hsub, fun b hb => h.mem_used b (hsub.subset hb)⟩

/-- A binding that comes to stand before others has been used after them. -/
theorem Ordered.front {c' : HandleCache} (h : c.Ordered used) {rest : List Binding}
    (hc' : c'.bindings = b :: rest) (hsub : rest.Sublist c.bindings)
    (hne : ∀ b' ∈ rest, b'.handle ≠ b.handle) : c'.Ordered (used ++ [b.handle]) := by
  refine ⟨?_, fun b' hb' => ?_⟩
  · rw [hc', List.pairwise_cons]
    refine ⟨fun b' hb' => ?_, (h.pairwise.sublist hsub).imp_of_mem fun hb' hb'' hlt => ?_⟩
    · rw [FileHandle.age_append_self, FileHandle.age_append_of_ne used (hne b' hb')]
      exact Nat.succ_pos _
    · rw [FileHandle.age_append_of_ne used (hne _ hb'),
        FileHandle.age_append_of_ne used (hne _ hb'')]
      exact Nat.succ_lt_succ hlt
  · rw [hc'] at hb'
    rcases List.mem_cons.1 hb' with rfl | hb'
    · simp
    · exact List.mem_append_left _ (h.mem_used b' (hsub.subset hb'))

theorem Ordered.use (h : c.Ordered used) (b : Binding) :
    (c.use b).Ordered (used ++ [b.handle]) :=
  h.front rfl List.filter_sublist fun _ hb' => of_decide_eq_true (List.mem_filter.1 hb').2

/-- Every call keeps the order. -/
theorem WellFormed.ordered_next (hc : c.WellFormed) (h : c.Ordered used) (call : CacheCall) :
    (c.next call).Ordered (used ++ (c.usedBy? call).toList) := by
  cases call with
  | issue p =>
    cases hfound : c.bindingOf? p.location with
    | some b =>
      simp only [HandleCache.next, usedBy?, issue_of_bound hfound]
      exact h.use b
    | none =>
      simp only [HandleCache.next, usedBy?, issue_of_not_bound hfound]
      obtain ⟨-, -, hsub, -⟩ := hc.evict
      have hfront : (c.evict.add ⟨c.ids.draw c.issued, p⟩).bindings =
        ⟨c.ids.draw c.issued, p⟩ :: c.evict.bindings := rfl
      refine h.front hfront hsub fun b hb heq => c.not_hasIssued_next ?_
      have hissued := hc.hasIssued b (hsub.subset hb)
      rwa [heq] at hissued
  | resolve x =>
    rcases heq : (c.resolve x).1 with _ | p
    · simpa [HandleCache.next, usedBy?, heq, (resolve_eq_none heq).2] using h
    · simpa [HandleCache.next, usedBy?, heq, (resolve_eq_some heq).2] using h.use ⟨x, p⟩
  | forget x =>
    have hsub : (c.forget x).bindings.Sublist c.bindings := by
      rw [bindings_forget]
      exact List.filter_sublist
    simpa [HandleCache.next, usedBy?] using h.sublist hsub
  | forgetPath p =>
    have hsub : (c.forgetPath p).bindings.Sublist c.bindings := by
      rw [hc.bindings_forgetPath]
      exact List.filter_sublist
    simpa [HandleCache.next, usedBy?] using h.sublist hsub

theorem WellFormed.ordered_after (hc : c.WellFormed) (h : c.Ordered used)
    (calls : List CacheCall) : (c.after calls).Ordered (used ++ c.uses calls) := by
  induction calls generalizing c used with
  | nil => simpa [HandleCache.after, HandleCache.uses] using h
  | cons call calls ih =>
    rw [HandleCache.uses, ← List.append_assoc]
    exact ih (hc.next call).1 (hc.ordered_next h call)

/-! ## What a single call drops -/

/-- Where there is room or nothing new is issued, all bindings stay. -/
theorem WellFormed.issue_keeps (hc : c.WellFormed) {p : Path}
    (hroom : c.bindingOf? p.location ≠ none ∨ c.bindings.length < c.capacity)
    (hb : b ∈ c.bindings) : b ∈ (c.issue p).2.bindings := by
  cases hfound : c.bindingOf? p.location with
  | some b' =>
    rw [issue_of_bound hfound]
    exact (hc.perm_use (hc.bindingOf?_eq_some_iff.1 hfound).1).mem_iff.2 hb
  | none =>
    have hlt : c.bindings.length < c.capacity := hroom.resolve_left (fun hne => hne hfound)
    rw [issue_of_not_bound hfound, HandleCache.evict, if_pos hlt]
    exact List.mem_cons_of_mem _ hb

/-- A new handle in a full cache takes the place of the last binding. -/
theorem WellFormed.issue_full (hc : c.WellFormed) {p : Path}
    (hfree : c.bindingOf? p.location = none) (hfull : c.bindings.length = c.capacity) :
    ∃ front last, c.bindings = front ++ [last] ∧
      (c.issue p).2.bindings = ⟨(c.issue p).1, p⟩ :: front := by
  rw [issue_of_not_bound hfree]
  rcases hc.evict_eq with ⟨hroom, -⟩ | ⟨-, front, last, hlast, -, hfront⟩
  · omega
  · exact ⟨front, last, hlast, by rw [HandleCache.add, hfront]⟩

/-- A call that forgets nothing drops a binding only to make room for a new handle, and then it
drops the one that has not been used for the longest time and no other. -/
theorem WellFormed.dropped (hc : c.WellFormed) (h : c.Ordered used) {call : CacheCall}
    (hb : b ∈ c.bindings) (hdropped : b ∉ (c.next call).bindings)
    (hforget : call ≠ .forget b.handle)
    (hpath : ∀ p, call = .forgetPath p → ¬p.location <+: b.path.location) :
    c.bindings.length = c.capacity ∧ (∃ x, c.usedBy? call = some x ∧ ¬c.HasIssued x) ∧
      ∀ b' ∈ c.bindings, b' ≠ b →
        b' ∈ (c.next call).bindings ∧ b'.handle.age used < b.handle.age used := by
  cases call with
  | issue p =>
    have hmiss := not_or.1 fun hroom => hdropped (hc.issue_keeps hroom hb)
    have hfree : c.bindingOf? p.location = none := not_not.1 hmiss.1
    have hfull : c.bindings.length = c.capacity :=
      Nat.le_antisymm hc.length_le (Nat.le_of_not_lt hmiss.2)
    obtain ⟨front, last, hlast, hnext⟩ := hc.issue_full hfree hfull
    have hfront : ∀ b' ∈ front, b' ∈ (c.issue p).2.bindings := fun b' hb' => by simp [hnext, hb']
    -- All bindings but the last stay, so that the last is the one that was dropped.
    obtain rfl : b = last := by
      rw [hlast, List.mem_append, List.mem_singleton] at hb
      exact hb.resolve_left fun hb => hdropped (hfront b hb)
    refine ⟨hfull, ⟨_, rfl, ?_⟩, fun b' hb' hne => ?_⟩
    · rw [issue_of_not_bound hfree]
      exact c.not_hasIssued_next
    · have hb' : b' ∈ front := by
        rw [hlast, List.mem_append, List.mem_singleton] at hb'
        exact hb'.resolve_right hne
      have hpairwise := h.pairwise
      rw [hlast, List.pairwise_append] at hpairwise
      exact ⟨hfront b' hb', hpairwise.2.2 b' hb' b (by simp)⟩
  | resolve x => exact absurd ((hc.resolve x).2.2.mem_iff.2 hb) hdropped
  | forget x =>
    refine absurd (mem_forget_iff.2 ⟨hb, fun heq => hforget ?_⟩) hdropped
    rw [heq]
  | forgetPath p => exact absurd (hc.mem_forgetPath_iff.2 ⟨hb, hpath p rfl⟩) hdropped

/-! ## How long a handle lives -/

/-- When a binding is dropped to make room, as many other handles as there is room for have been
used since. -/
theorem WellFormed.capacity_le_of_dropped (hc : c.WellFormed) {since : List FileHandle}
    (h : c.Ordered (used ++ b.handle :: since)) {call : CacheCall} (hb : b ∈ c.bindings)
    (hdropped : b ∉ (c.next call).bindings) (hforget : call ≠ .forget b.handle)
    (hpath : ∀ p, call = .forgetPath p → ¬p.location <+: b.path.location) :
    c.capacity ≤ ((since ++ (c.usedBy? call).toList).toFinset.erase b.handle).card := by
  obtain ⟨hfull, ⟨x, hx, hnew⟩, hothers⟩ := hc.dropped h hb hdropped hforget hpath
  -- The other bindings and the new handle have all been used since.
  let others := (c.bindings.map Binding.handle).toFinset.erase b.handle
  have hcard : others.card + 1 = c.bindings.length := by
    rw [Finset.card_erase_add_one (by simpa using ⟨b, hb, rfl⟩),
      List.toFinset_card_of_nodup hc.handles_nodup, List.length_map]
  have hfresh : x ∉ others := by
    intro hmem
    obtain ⟨b', hb', rfl⟩ : ∃ b' ∈ c.bindings, b'.handle = x := by
      simpa using Finset.mem_of_mem_erase hmem
    exact hnew (hc.hasIssued b' hb')
  have hused : insert x others ⊆
      (since ++ (c.usedBy? call).toList).toFinset.erase b.handle := by
    refine Finset.insert_subset (Finset.mem_erase.2 ⟨?_, by simp [hx]⟩) fun y hy => ?_
    · rintro rfl
      exact hnew (hc.hasIssued b hb)
    · obtain ⟨hne, hy⟩ := Finset.mem_erase.1 hy
      obtain ⟨b', hb', rfl⟩ : ∃ b' ∈ c.bindings, b'.handle = y := by simpa using hy
      have hyounger := (hothers b' hb' fun heq => hne (by rw [heq])).2
      have hsince := FileHandle.mem_of_age_lt hyounger
      exact Finset.mem_erase.2 ⟨hne, by simp [hsince]⟩
  have hle := Finset.card_le_card hused
  rwa [Finset.card_insert_of_notMem hfresh, hcard, hfull] at hle

/-- A binding that was just used stays until as many other handles as there is room for have been
used, unless it is forgotten. -/
theorem WellFormed.mem_after (hc : c.WellFormed) (h : c.Ordered (used ++ [b.handle]))
    (hb : b ∈ c.bindings) {calls : List CacheCall} (hforget : CacheCall.forget b.handle ∉ calls)
    (hpath : ∀ p, CacheCall.forgetPath p ∈ calls → ¬p.location <+: b.path.location)
    (hfew : ((c.uses calls).toFinset.erase b.handle).card < c.capacity) :
    b ∈ (c.after calls).bindings := by
  -- The induction adds a call behind the others, so that the uses of all of them can be counted.
  induction calls using List.reverseRecOn with
  | nil => exact hb
  | append_singleton calls call ih =>
    obtain ⟨hwell, hlater⟩ := hc.after calls
    have hordered : (c.after calls).Ordered (used ++ b.handle :: c.uses calls) := by
      simpa using hc.ordered_after h calls
    have huses : c.uses (calls ++ [call]) =
        c.uses calls ++ ((c.after calls).usedBy? call).toList := by
      simp [uses_append, HandleCache.uses]
    rw [huses] at hfew
    have hsub : (c.uses calls).toFinset.erase b.handle ⊆
        (c.uses calls ++ ((c.after calls).usedBy? call).toList).toFinset.erase b.handle := by
      rw [List.toFinset_append]
      exact Finset.erase_subset_erase _ Finset.subset_union_left
    have hmem : b ∈ (c.after calls).bindings :=
      ih (fun hmem => hforget (by simp [hmem])) (fun p hp => hpath p (by simp [hp]))
        (Nat.lt_of_le_of_lt (Finset.card_le_card hsub) hfew)
    rw [after_append]
    by_contra hdropped
    have hle := hwell.capacity_le_of_dropped hordered hmem hdropped
      (fun heq => hforget (by simp [heq])) (fun p hp => hpath p (by simp [hp]))
    rw [hlater.capacity_eq] at hle
    exact absurd hfew (Nat.not_lt.2 hle)

/-- Where nothing is forgotten, what has been used after a binding that is still there is there. -/
theorem WellFormed.mem_of_mem_uses (hc : c.WellFormed) (h : c.Ordered (used ++ [b.handle]))
    (hb : b ∈ c.bindings) {calls : List CacheCall} (hforget : ∀ x, CacheCall.forget x ∉ calls)
    (hpath : ∀ p, CacheCall.forgetPath p ∉ calls) (hnot : b.handle ∉ c.uses calls)
    (hlive : b ∈ (c.after calls).bindings) :
    ∀ x ∈ c.uses calls, ∃ b' ∈ (c.after calls).bindings, b'.handle = x := by
  induction calls using List.reverseRecOn with
  | nil => exact fun x hx => absurd hx List.not_mem_nil
  | append_singleton calls call ih =>
    obtain ⟨hwell, hlater⟩ := hc.after calls
    have hordered : (c.after calls).Ordered (used ++ b.handle :: c.uses calls) := by
      simpa using hc.ordered_after h calls
    rw [uses_append, List.mem_append, not_or] at hnot
    rw [after_append] at hlive
    have hmem : b ∈ (c.after calls).bindings := (hwell.next call).2.mem_of_mem b hlive
      ((hc.hasIssued b hb).later hlater)
    intro x hx
    rw [uses_append, List.mem_append] at hx
    rw [after_append]
    rcases hx with hx | hx
    · obtain ⟨b', hb', rfl⟩ := ih (fun x hx => hforget x (by simp [hx]))
        (fun p hp => hpath p (by simp [hp])) hnot.1 hmem x hx
      by_contra hgone
      have hdropped : b' ∉ ((c.after calls).next call).bindings := fun hb'' =>
        hgone ⟨b', hb'', rfl⟩
      obtain ⟨-, -, hothers⟩ := hwell.dropped hordered hb' hdropped
        (fun heq => hforget b'.handle (by simp [heq])) (fun p hp => absurd hp (by
          rintro rfl
          exact hpath p (by simp)))
      -- What would be dropped is older than the binding that stays, but it was used after it.
      have holder := (hothers b hmem fun heq => hnot.1 (heq ▸ hx)).2
      have hyounger := FileHandle.age_lt_of_mem (used ++ [b.handle]) hnot.1 hx
      rw [List.append_assoc, List.singleton_append] at hyounger
      omega
    · have hused : (c.after calls).usedBy? call = some x := by simpa [HandleCache.uses] using hx
      obtain ⟨b', hb', hhandle, -⟩ := hwell.mem_of_usedBy? hused
      exact ⟨b', hb', hhandle⟩

/-- Where nothing is forgotten, a binding stays no longer than until as many other handles as there
is room for have been used. -/
theorem WellFormed.card_uses_lt (hc : c.WellFormed) (h : c.Ordered (used ++ [b.handle]))
    (hb : b ∈ c.bindings) {calls : List CacheCall} (hforget : ∀ x, CacheCall.forget x ∉ calls)
    (hpath : ∀ p, CacheCall.forgetPath p ∉ calls) (hnot : b.handle ∉ c.uses calls)
    (hlive : b ∈ (c.after calls).bindings) : (c.uses calls).toFinset.card < c.capacity := by
  obtain ⟨hwell, hlater⟩ := hc.after calls
  have hcapacity := hlater.capacity_eq
  have hall := hc.mem_of_mem_uses h hb hforget hpath hnot hlive
  have hsub : insert b.handle (c.uses calls).toFinset ⊆
      ((c.after calls).bindings.map Binding.handle).toFinset := by
    intro x hx
    rcases Finset.mem_insert.1 hx with rfl | hx
    · simpa using ⟨b, hlive, rfl⟩
    · simpa using hall x (List.mem_toFinset.1 hx)
  have hle := (Finset.card_le_card hsub).trans (List.toFinset_card_le _)
  rw [Finset.card_insert_of_notMem (by simpa using hnot), List.length_map] at hle
  have := hwell.length_le
  omega

/-- The bindings of a cache are ordered as if each of them had been used once. -/
theorem WellFormed.ordered (hc : c.WellFormed) :
    c.Ordered (c.bindings.map Binding.handle).reverse := by
  refine ⟨List.pairwise_iff_getElem.2 fun i j hi hj hlt => ?_, fun b hb => ?_⟩
  · have hage : ∀ k (hk : k < c.bindings.length),
        c.bindings[k].handle.age (c.bindings.map Binding.handle).reverse = k := by
      intro k hk
      have hindex := hc.handles_nodup.idxOf_getElem k (by simpa using hk)
      simpa [FileHandle.age] using hindex
    rw [hage i hi, hage j hj]
    exact hlt
  · simpa using ⟨b, hb, rfl⟩

/-- What becomes of a handle when others are issued behind it. -/
theorem WellFormed.fate_of_issued (hc : c.WellFormed) (p : Path) (paths : List Path) :
    let h := (c.issue p).1
    let others := (c.issue p).2.uses (paths.map .issue)
    let c' := (c.issue p).2.after (paths.map .issue)
    (∀ q, (c'.resolve h).1 = some q → q.SamePlace p) ∧
      (h ∉ others → ((∃ q, (c'.resolve h).1 = some q) ↔ others.toFinset.card < c.capacity)) := by
  intro h others c'
  obtain ⟨hwell, hlater⟩ := hc.next (.issue p)
  have hused : c.usedBy? (.issue p) = some h := rfl
  obtain ⟨b, hb, hhandle, hplace, -⟩ := hc.mem_of_usedBy? hused
  have hordered := hc.ordered_next hc.ordered (.issue p)
  rw [hused, Option.toList_some, ← hhandle] at hordered
  obtain ⟨hwell', hlater'⟩ := hwell.after (paths.map .issue)
  have hforget : ∀ x, CacheCall.forget x ∉ paths.map .issue := by simp
  have hpath : ∀ q, CacheCall.forgetPath q ∉ paths.map .issue := by simp
  have hsame : ∀ q, (c'.resolve h).1 = some q → ⟨h, q⟩ = b := by
    intro q hq
    have hmem : ⟨h, q⟩ ∈ c'.bindings := (resolve_eq_some hq).1
    have hissued : (c.next (.issue p)).HasIssued h := hhandle ▸ hwell.hasIssued b hb
    exact hwell.eq_of_handle_eq (hlater'.mem_of_mem _ hmem hissued) hb hhandle.symm
  refine ⟨fun q hq => ?_, fun hnot => ⟨fun ⟨q, hq⟩ => ?_, fun hfew => ?_⟩⟩
  · have hplace : b.path.SamePlace p := hplace p rfl
    rwa [← hsame q hq] at hplace
  · rw [← hlater.capacity_eq]
    have hlive : b ∈ c'.bindings := hsame q hq ▸ (resolve_eq_some hq).1
    exact hwell.card_uses_lt hordered hb hforget hpath (hhandle ▸ hnot) hlive
  · rw [← hlater.capacity_eq] at hfew
    have hle : (others.toFinset.erase b.handle).card ≤ others.toFinset.card :=
      Finset.card_erase_le
    have hlive := hwell.mem_after hordered hb (hforget _) (fun q hq => absurd hq (hpath q))
      (Nat.lt_of_le_of_lt hle hfew)
    exact ⟨b.path, hhandle ▸ hwell'.resolve_eq hlive⟩

/-! ## Behind any sequence of calls -/

/-- A handle that was used leads to one path as long as few others are used. -/
theorem WellFormed.retained (hc : c.WellFormed) (h : c.Ordered used) {call : CacheCall}
    {x : FileHandle} (hused : c.usedBy? call = some x) :
    ∃ p, ((c.next call).resolve x).1 = some p ∧ (∀ q, call = .issue q → p.SamePlace q) ∧
      (call = .resolve x → (c.resolve x).1 = some p) ∧
      ∀ calls, CacheCall.forget x ∉ calls →
        (∀ q, CacheCall.forgetPath q ∈ calls → ¬q.location <+: p.location) →
        (((c.next call).uses calls).toFinset.erase x).card < c.capacity →
        (((c.next call).after calls).resolve x).1 = some p := by
  obtain ⟨hwell, hlater⟩ := hc.next call
  obtain ⟨b, hb, rfl, hissue, hresolve⟩ := hc.mem_of_usedBy? hused
  refine ⟨b.path, hwell.resolve_eq hb, hissue, fun heq => hc.resolve_eq (hresolve heq),
    fun calls hforget hpath hfew => ?_⟩
  have hordered := hc.ordered_next h call
  rw [hused, Option.toList_some] at hordered
  rw [← hlater.capacity_eq] at hfew
  exact (hwell.after calls).1.resolve_eq (hwell.mem_after hordered hb hforget hpath hfew)

/-- A new handle in a full cache takes the place of the binding that has not been used for the
longest time. -/
theorem WellFormed.replaced (hc : c.WellFormed) (h : c.Ordered used) {p : Path}
    (hfree : c.handleAt? p.location = none) (hfull : c.bindings.length = c.capacity) :
    ∃ victim ∈ c.bindings,
      (∀ b ∈ c.bindings, b.handle ∈ used ∧
        (b ≠ victim → b.handle.age used < victim.handle.age used)) ∧
      ∀ x b, (c.issue p).2.binding? x = some b ↔
        (c.binding? x = some b ∧ b ≠ victim) ∨ x = (c.issue p).1 ∧ b = ⟨x, p⟩ := by
  have hwell := (hc.issue p).1
  obtain ⟨front, last, hlast, hnext⟩ :=
    hc.issue_full (bindingOf?_eq_none_of_handleAt? hfree) hfull
  have hpairwise := h.pairwise
  rw [hlast, List.pairwise_append] at hpairwise
  have hnodup := hc.handles_nodup.of_map
  rw [hlast, List.nodup_append] at hnodup
  have hfront : ∀ b, b ∈ front ↔ b ∈ c.bindings ∧ b ≠ last := by
    intro b
    rw [hlast, List.mem_append, List.mem_singleton]
    constructor
    · exact fun hb => ⟨Or.inl hb, hnodup.2.2 b hb last (by simp)⟩
    · exact fun hb => hb.1.resolve_right hb.2
  refine ⟨last, by simp [hlast], fun b hb => ⟨h.mem_used b hb, fun hne => ?_⟩, fun x b => ?_⟩
  · exact hpairwise.2.2 b ((hfront b).2 ⟨hb, hne⟩) last (by simp)
  · rw [hwell.binding?_eq_some_iff, hc.binding?_eq_some_iff, hnext, List.mem_cons, hfront]
    constructor
    · rintro ⟨rfl | ⟨hb, hne⟩, rfl⟩
      · exact Or.inr ⟨rfl, rfl⟩
      · exact Or.inl ⟨⟨hb, rfl⟩, hne⟩
    · rintro (⟨⟨hb, rfl⟩, hne⟩ | ⟨rfl, rfl⟩)
      · exact ⟨Or.inr ⟨hb, hne⟩, rfl⟩
      · exact ⟨Or.inl rfl, rfl⟩

/-- Behind any sequence of calls, a handle that is used leads to one path until as many other
handles as there is room for have been used, unless it is forgotten before.  A new handle in a full
cache takes the place of the one live handle that has not been used for the longest time, and where
there is room or no new handle is needed, no binding disappears. -/
theorem least_recently_used_after (limit : Nat) (ids : HandleSource) (before : List CacheCall) :
    let c := (empty limit ids).after before
    let used := (empty limit ids).uses before
    (∀ call h, c.usedBy? call = some h → ∃ p, ((c.next call).resolve h).1 = some p ∧
      (∀ q, call = .issue q → p.SamePlace q) ∧
      (call = .resolve h → (c.resolve h).1 = some p) ∧
      ∀ calls, CacheCall.forget h ∉ calls →
        (∀ q, CacheCall.forgetPath q ∈ calls → ¬q.location <+: p.location) →
        (((c.next call).uses calls).toFinset.erase h).card < max limit 1 →
        (((c.next call).after calls).resolve h).1 = some p) ∧
    (∀ p, c.handleAt? p.location = none → c.bindings.length = max limit 1 →
      ∃ victim ∈ c.bindings,
        (∀ b ∈ c.bindings, b.handle ∈ used ∧
          (b ≠ victim → b.handle.age used < victim.handle.age used)) ∧
        ∀ h b, (c.issue p).2.binding? h = some b ↔
          (c.binding? h = some b ∧ b ≠ victim) ∨ h = (c.issue p).1 ∧ b = ⟨h, p⟩) ∧
    ∀ p, c.handleAt? p.location ≠ none ∨ c.bindings.length < max limit 1 →
      ∀ h b, c.binding? h = some b → (c.issue p).2.binding? h = some b := by
  intro c used
  obtain ⟨hc, hlater⟩ := (wellFormed_empty limit ids).after before
  have hordered : c.Ordered used :=
    (wellFormed_empty limit ids).ordered_after (ordered_empty limit ids) before
  rw [show max limit 1 = c.capacity from hlater.capacity_eq.symm]
  refine ⟨fun call h => hc.retained hordered, fun p => hc.replaced hordered,
    fun p hroom h b hb => ?_⟩
  obtain ⟨hmem, rfl⟩ := hc.binding?_eq_some_iff.1 hb
  have hroom' : c.bindingOf? p.location ≠ none ∨ c.bindings.length < c.capacity := by
    refine hroom.imp_left fun hsome hnone => hsome ?_
    refine Option.eq_none_iff_forall_ne_some.2 fun x hx => ?_
    obtain ⟨b', hb', -, hplace⟩ := hc.handleAt?_eq_some_iff.1 hx
    exact hc.bindingOf?_eq_none_iff.1 hnone b' hb' hplace
  exact (hc.issue p).1.binding?_eq_some_iff.2 ⟨hc.issue_keeps hroom' hmem, rfl⟩

/-- There is room for two handles.  A use saves the older one when a third handle is issued, which
takes the place of the other one; before, when there was room, the second took the place of none. -/
theorem least_recently_used_after_use :
    let path (name : UInt8) := Path.root.child [name]
    let h := HandleSource.uuids.draw
    let one := (empty 2 .uuids).after [.issue (path 0x61)]
    let two := (empty 2 .uuids).after [.issue (path 0x61), .issue (path 0x62), .resolve (h 0)]
    let third := CacheCall.issue (path 0x63)
    (two.usedBy? (.resolve (h 0)) = some (h 0) ∧
        (((two.next (.resolve (h 0))).uses [third]).toFinset.erase (h 0)).card < 2 ∧
        two.handleAt? (path 0x63).location = none ∧ two.bindings.length = 2 ∧
        one.bindings.length < 2 ∧ one.binding? (h 0) = some ⟨h 0, path 0x61⟩) ∧
      (((two.next (.resolve (h 0))).after [third]).resolve (h 0)).1 = some (path 0x61) ∧
      (∀ x b, (two.issue (path 0x63)).2.binding? x = some b ↔
        (two.binding? x = some b ∧ b ≠ ⟨h 1, path 0x62⟩) ∨
          x = (two.issue (path 0x63)).1 ∧ b = ⟨x, path 0x63⟩) ∧
      (one.issue (path 0x62)).2.binding? (h 0) = some ⟨h 0, path 0x61⟩ := by
  intro path h one two third
  have hused : two.usedBy? (.resolve (h 0)) = some (h 0) := by decide
  have hfew : (((two.next (.resolve (h 0))).uses [third]).toFinset.erase (h 0)).card < 2 := by
    decide
  have hfree : two.handleAt? (path 0x63).location = none := by decide
  have hfull : two.bindings.length = 2 := by decide
  have hroom : one.bindings.length < 2 := by decide
  have hbound : one.binding? (h 0) = some ⟨h 0, path 0x61⟩ := by decide
  obtain ⟨hretained, hreplaced, -⟩ := least_recently_used_after 2 .uuids
    [.issue (path 0x61), .issue (path 0x62), .resolve (h 0)]
  obtain ⟨-, -, hkeeps⟩ := least_recently_used_after 2 .uuids [.issue (path 0x61)]
  obtain ⟨p, -, -, hresolves, hstays⟩ := hretained (.resolve (h 0)) (h 0) hused
  obtain rfl : path 0x61 = p := by
    have hfirst : (two.resolve (h 0)).1 = some (path 0x61) := by decide
    exact Option.some.inj (hfirst.symm.trans (hresolves rfl))
  obtain ⟨victim, hvictim, holdest, hbindings⟩ := hreplaced (path 0x63) hfree hfull
  obtain rfl : victim = ⟨h 1, path 0x62⟩ := by
    have hlive : two.bindings = [⟨h 0, path 0x61⟩, ⟨h 1, path 0x62⟩] := by decide
    rw [hlive] at hvictim holdest
    rcases List.mem_pair.1 hvictim with rfl | rfl
    · exact absurd ((holdest ⟨h 1, path 0x62⟩ (by simp)).2 (by decide)) (by decide)
    · rfl
  exact ⟨⟨hused, hfew, hfree, hfull, hroom, hbound⟩,
    hstays [third] (by decide) (fun _ hq => by simp [third] at hq) hfew, hbindings,
    hkeeps (path 0x62) (Or.inr hroom) _ _ hbound⟩

end HandleCache

end NfsServer
