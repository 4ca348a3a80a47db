import NfsServer.Proofs.Handle.Table

/-!
# A cache behind any sequence of calls

Each of the four calls keeps a cache well-formed, and so its two tables agree behind any sequence of
calls (`HandleCache.tablesAgree_after`).  What a single call changes is said there in terms of
`HandleCache.binding?`; the table of places follows, since it is the inverse.
-/

namespace NfsServer

/-- What a cache can be asked. -/
inductive CacheCall
  | issue (p : Path)
  | resolve (h : FileHandle)
  | forget (h : FileHandle)
  | forgetPath (p : Path)
  deriving DecidableEq, Repr

namespace HandleCache

variable {c : HandleCache}

/-- The cache behind a call. -/
def next (c : HandleCache) : CacheCall → HandleCache
  | .issue p => (c.issue p).2
  | .resolve h => (c.resolve h).2
  | .forget h => c.forget h
  | .forgetPath p => c.forgetPath p

/-- The cache behind a sequence of calls. -/
def after (c : HandleCache) (calls : List CacheCall) : HandleCache := calls.foldl next c

/-- The handle that a call gives out. -/
def givenBy? (c : HandleCache) : CacheCall → Option FileHandle
  | .issue p => some (c.issue p).1
  | .resolve _ | .forget _ | .forgetPath _ => none

/-- The handles that a sequence of calls gives out. -/
def given (c : HandleCache) : List CacheCall → List FileHandle
  | [] => []
  | call :: rest => (c.givenBy? call).toList ++ (c.next call).given rest

theorem after_append (c : HandleCache) (calls calls' : List CacheCall) :
    c.after (calls ++ calls') = (c.after calls).after calls' := List.foldl_append

/-! ## Well-formedness -/

/-- A call keeps a cache well-formed, and revives no handle. -/
theorem WellFormed.next (hc : c.WellFormed) (call : CacheCall) :
    (c.next call).WellFormed ∧ c.Later (c.next call) := by
  cases call with
  | issue p =>
    obtain ⟨hwell, hlater, -, -⟩ := hc.issue p
    exact ⟨hwell, hlater⟩
  | resolve h =>
    obtain ⟨hwell, hlater, -⟩ := hc.resolve h
    exact ⟨hwell, hlater⟩
  | forget h => exact ⟨hc.forget h, c.later_forget h⟩
  | forgetPath p => exact ⟨hc.forgetPath p, c.later_forgetPath p⟩

theorem WellFormed.after (hc : c.WellFormed) (calls : List CacheCall) :
    (c.after calls).WellFormed ∧ c.Later (c.after calls) := by
  induction calls generalizing c with
  | nil => exact ⟨hc, .refl c⟩
  | cons call calls ih =>
    obtain ⟨hwell, hlater⟩ := hc.next call
    obtain ⟨hwell', hlater'⟩ := ih hwell
    exact ⟨hwell', hlater.trans hlater'⟩

/-- What has been given out counts as issued. -/
theorem WellFormed.hasIssued_given (hc : c.WellFormed) {calls : List CacheCall} {h : FileHandle}
    (hh : h ∈ c.given calls) : (c.after calls).HasIssued h := by
  induction calls generalizing c with
  | nil => cases hh
  | cons call calls ih =>
    obtain ⟨hwell, -⟩ := hc.next call
    rcases List.mem_append.1 hh with hgiven | hrest
    · have hissued : (c.next call).HasIssued h := by
        cases call with
        | issue p =>
          obtain ⟨hissue, -, ⟨b, hb, hhandle, -⟩, -⟩ := hc.issue p
          obtain rfl : h = (c.issue p).1 := by simpa [givenBy?] using hgiven
          exact hhandle ▸ hissue.hasIssued b hb
        | resolve | forget | forgetPath => simp [givenBy?] at hgiven
      exact hissued.later (hwell.after calls).2
    · exact ih hwell hrest

/-! ## The two tables -/

/-- The tables are inverse to each other, and each of them holds no more than the capacity. -/
structure TablesAgree (c : HandleCache) (capacity : Nat) : Prop where
  inverse : ∀ l h, c.handleAt? l = some h ↔ ∃ b, c.binding? h = some b ∧ b.path.location = l
  handles_nodup : (c.bindings.map Binding.handle).Nodup
  places_nodup : (c.places.map Prod.fst).Nodup
  length_bindings_le : c.bindings.length ≤ capacity
  length_places_le : c.places.length ≤ capacity

theorem WellFormed.tablesAgree (hc : c.WellFormed) : c.TablesAgree c.capacity where
  inverse := by
    intro l h
    simp only [hc.handleAt?_eq_some_iff, hc.binding?_eq_some_iff, and_assoc]
  handles_nodup := hc.handles_nodup
  places_nodup := by
    rw [(hc.places_perm.map Prod.fst).nodup_iff, List.map_map]
    exact hc.places_nodup
  length_bindings_le := hc.length_le
  length_places_le := by
    rw [hc.places_perm.length_eq, List.length_map]
    exact hc.length_le

/-- A handle that was just issued leads back to the place of the path. -/
theorem WellFormed.resolve_issue (hc : c.WellFormed) (p : Path) :
    ∃ q, ((c.issue p).2.resolve (c.issue p).1).1 = some q ∧ q.SamePlace p ∧
      (c.handleAt? p.location = none → q = p) := by
  obtain ⟨hwell, -, ⟨b, hb, hhandle, hplace⟩, hmem⟩ := hc.issue p
  refine ⟨b.path, hhandle ▸ hwell.resolve_eq hb, hplace, fun hfree => ?_⟩
  refine (hmem b hb).resolve_left fun hold => ?_
  have hsome := hc.handleAt?_eq_some_iff.2 ⟨b, hold, rfl, hplace⟩
  rw [hfree] at hsome
  cases hsome

theorem WellFormed.issue_eq_of_handleAt? (hc : c.WellFormed) {p : Path} {h : FileHandle}
    (hh : c.handleAt? p.location = some h) : (c.issue p).1 = h := by
  obtain ⟨b, hb, rfl, hplace⟩ := hc.handleAt?_eq_some_iff.1 hh
  rw [issue_of_bound (hc.bindingOf?_eq_some_iff.2 ⟨hb, hplace⟩)]

theorem bindingOf?_eq_none_of_handleAt? {l : Location} (hfree : c.handleAt? l = none) :
    c.bindingOf? l = none := by
  rw [bindingOf?, hfree]
  rfl

/-- Behind any sequence of calls the two tables are inverse to each other and within the limit.  An
issued handle leads back to the path; it is the live handle of the place, or one that was never
given out.  To forget a path removes exactly what lies at or below it, to forget a handle removes at
most its binding, and what is not a live handle is stale and changes nothing. -/
theorem tablesAgree_after (limit : Nat) (ids : HandleSource) (calls : List CacheCall) :
    let c := (empty limit ids).after calls
    c.TablesAgree (max limit 1) ∧
      (∀ p, ∃ q, ((c.issue p).2.resolve (c.issue p).1).1 = some q ∧ q.SamePlace p ∧
        (c.handleAt? p.location = none → q = p)) ∧
      (∀ p h, c.handleAt? p.location = some h → (c.issue p).1 = h) ∧
      (∀ p, c.handleAt? p.location = none → (c.issue p).1 ∉ (empty limit ids).given calls) ∧
      (∀ p h b, (c.forgetPath p).binding? h = some b ↔
        c.binding? h = some b ∧ ¬p.location <+: b.path.location) ∧
      (∀ h h' b, (c.forget h).binding? h' = some b ↔ c.binding? h' = some b ∧ h' ≠ h) ∧
      ∀ h, c.binding? h = none →
        (HandleTable.cached c).resolve h = (.error .stale, .cached c) ∧ c.forget h = c := by
  intro c
  obtain ⟨hc, hlater⟩ := (wellFormed_empty limit ids).after calls
  have hagree : c.TablesAgree (max limit 1) := by
    rw [show max limit 1 = c.capacity from hlater.capacity_eq.symm]
    exact hc.tablesAgree
  refine ⟨hagree, hc.resolve_issue, fun p h => hc.issue_eq_of_handleAt?, fun p hfree hgiven => ?_,
    fun p h b => ?_, fun h h' b => ?_, fun h hdead => ⟨?_, ?_⟩⟩
  · rw [issue_of_not_bound (bindingOf?_eq_none_of_handleAt? hfree)] at hgiven
    exact c.not_hasIssued_next ((wellFormed_empty limit ids).hasIssued_given hgiven)
  · rw [(hc.forgetPath p).binding?_eq_some_iff, hc.binding?_eq_some_iff, hc.mem_forgetPath_iff]
    exact and_right_comm
  · rw [(hc.forget h).binding?_eq_some_iff, hc.binding?_eq_some_iff, mem_forget_iff]
    constructor
    · rintro ⟨⟨hb, hne⟩, rfl⟩
      exact ⟨⟨hb, rfl⟩, hne⟩
    · rintro ⟨⟨hb, rfl⟩, hne⟩
      exact ⟨⟨hb, hne⟩, rfl⟩
  · have hstale : c.resolve h = (none, c) := by rw [HandleCache.resolve, hdead]
    rw [HandleTable.resolve_cached, hstale]
    rfl
  · exact forget_of_not_bound (binding?_eq_none_iff.1 hdead)

/-- Two paths get handles, and the first one is forgotten: its handle is stale and does not come
back, while the second one keeps its own. -/
theorem tablesAgree_after_forgetPath :
    let path (name : UInt8) := Path.root.child [name]
    let h := HandleSource.uuids.draw
    let start := empty 2 .uuids
    let calls : List CacheCall := [.issue (path 0x61), .issue (path 0x62), .forgetPath (path 0x61)]
    let c := start.after calls
    (c.handleAt? (path 0x61).location = none ∧ c.handleAt? (path 0x62).location = some (h 1) ∧
        c.binding? (h 0) = none ∧ start.given calls = [h 0, h 1]) ∧
      c.TablesAgree 2 ∧ (c.issue (path 0x62)).1 = h 1 ∧
      (c.issue (path 0x61)).1 ∉ start.given calls ∧
      ((c.issue (path 0x61)).2.resolve (c.issue (path 0x61)).1).1 = some (path 0x61) ∧
      (HandleTable.cached c).resolve (h 0) = (.error .stale, .cached c) ∧ c.forget (h 0) = c := by
  intro path h start calls c
  have hfree : c.handleAt? (path 0x61).location = none := by decide
  have hplace : c.handleAt? (path 0x62).location = some (h 1) := by decide
  have hdead : c.binding? (h 0) = none := by decide
  obtain ⟨hagree, hleads, hsame, hnew, -, -, hstale⟩ := tablesAgree_after 2 .uuids calls
  obtain ⟨q, hq, -, hpath⟩ := hleads (path 0x61)
  obtain rfl := hpath hfree
  exact ⟨⟨hfree, hplace, hdead, by decide⟩, hagree, hsame _ _ hplace, hnew _ hfree, hq,
    hstale _ hdead⟩

/-- Components count, not bytes: `/dirt` does not lie below `/dir`. -/
example : ¬(Path.mk [0x2F, 0x64, 0x69, 0x72]).location <+:
    (Path.mk [0x2F, 0x64, 0x69, 0x72, 0x74]).location := by decide

end HandleCache

end NfsServer
