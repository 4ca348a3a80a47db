import NfsServer.Proofs.Handle.Cache

/-!
# Handles of a table

What holds of the handles of a cache in terms of handle tables.  The text of a path stands for that
path at all times, so that of a table of such handles there is nothing to show.
-/

namespace NfsServer

namespace HandleTable

variable {t t' t'' : HandleTable}

/-- The bindings that can end. -/
def bindings : HandleTable → List Binding
  | pathText => []
  | cached c => c.bindings

/-- Whether a handle has a meaning, or once had. -/
def HasIssued : HandleTable → FileHandle → Prop
  | pathText, _ => True
  | cached c, h => c.HasIssued h

/-- The invariant of a table. -/
def WellFormed : HandleTable → Prop
  | pathText => True
  | cached c => c.WellFormed

/-- A table of the same kind in which no handle that was issued stands for something else. -/
def Later : HandleTable → HandleTable → Prop
  | pathText, pathText => True
  | cached c, cached c' => c.Later c'
  | _, _ => False

theorem Later.refl (t : HandleTable) : t.Later t := by
  cases t with
  | pathText => trivial
  | cached c => exact HandleCache.Later.refl c

theorem Later.trans (h : t.Later t') (h' : t'.Later t'') : t.Later t'' := by
  cases t <;> cases t' <;> cases t'' <;> try exact h.elim
  · trivial
  · exact h'.elim
  · exact h'.elim
  · exact HandleCache.Later.trans h h'

/-- Tables do not change their kind. -/
theorem Later.cached_iff (h : t.Later t') : (∃ c, t = cached c) ↔ ∃ c, t' = cached c := by
  cases t <;> cases t' <;> try exact h.elim
  · exact Iff.rfl
  · exact ⟨fun _ => ⟨_, rfl⟩, fun _ => ⟨_, rfl⟩⟩

theorem HasIssued.later {h : FileHandle} (ht : t.HasIssued h) (hlater : t.Later t') :
    t'.HasIssued h := by
  cases t <;> cases t' <;> try exact hlater.elim
  · trivial
  · exact HandleCache.HasIssued.later ht hlater

theorem Later.mem_of_mem (h : t.Later t') {b : Binding} (hb : b ∈ t'.bindings)
    (hissued : t.HasIssued b.handle) : b ∈ t.bindings := by
  cases t <;> cases t' <;> try exact h.elim
  · exact hb
  · exact HandleCache.Later.mem_of_mem h b hb hissued

theorem WellFormed.hasIssued (h : t.WellFormed) {b : Binding} (hb : b ∈ t.bindings) :
    t.HasIssued b.handle := by
  cases t with
  | pathText => trivial
  | cached c => exact HandleCache.WellFormed.hasIssued h b hb

theorem WellFormed.eq_of_handle_eq (h : t.WellFormed) {b b' : Binding} (hb : b ∈ t.bindings)
    (hb' : b' ∈ t.bindings) (heq : b.handle = b'.handle) : b = b' := by
  cases t with
  | pathText => cases hb
  | cached c => exact HandleCache.WellFormed.eq_of_handle_eq h hb hb' heq

/-! ## The operations -/

theorem WellFormed.issue (h : t.WellFormed) (p : Path) :
    (t.issue p).2.WellFormed ∧ t.Later (t.issue p).2 ∧
      ∀ b ∈ (t.issue p).2.bindings, b ∈ t.bindings ∨ b.path = p := by
  cases t with
  | pathText => exact ⟨trivial, trivial, fun _ hb => absurd hb List.not_mem_nil⟩
  | cached c =>
    obtain ⟨hwell, hlater, -, hmem⟩ := HandleCache.WellFormed.issue h p
    exact ⟨hwell, hlater, hmem⟩

theorem WellFormed.hasIssued_issue (h : t.WellFormed) (p : Path) :
    (t.issue p).2.HasIssued (t.issue p).1 := by
  cases t with
  | pathText => trivial
  | cached c =>
    obtain ⟨hwell, -, ⟨b, hb, hhandle, -⟩, -⟩ := HandleCache.WellFormed.issue h p
    exact hhandle ▸ hwell.hasIssued b hb

/-- A place that has a live handle gets no other. -/
theorem WellFormed.issue_eq (h : t.WellFormed) {b : Binding} (hb : b ∈ t.bindings) {p : Path}
    (hp : b.path.location = p.location) : (t.issue p).1 = b.handle := by
  cases t with
  | pathText => cases hb
  | cached c =>
    have hbound := (HandleCache.WellFormed.bindingOf?_eq_some_iff h).2 ⟨hb, hp⟩
    exact congrArg Prod.fst (HandleCache.issue_of_bound hbound)

/-- The handle that has just been issued is live. -/
theorem WellFormed.exists_binding_issue (h : t.WellFormed) (ht : ∃ c, t = cached c) (p : Path) :
    ∃ b ∈ (t.issue p).2.bindings, b.handle = (t.issue p).1 ∧ b.path.location = p.location := by
  obtain ⟨c, rfl⟩ := ht
  exact (HandleCache.WellFormed.issue h p).2.2.1

theorem resolve_cached (c : HandleCache) (h : FileHandle) :
    (cached c).resolve h =
      ((c.resolve h).1.elim (.error .stale) .ok, cached (c.resolve h).2) := by
  unfold resolve
  dsimp only
  split
  · next heq => rw [heq]; rfl
  · next heq => rw [heq]; rfl

theorem WellFormed.resolve_eq (ht : t.WellFormed) {b : Binding} (hb : b ∈ t.bindings) :
    (t.resolve b.handle).1 = .ok b.path := by
  cases t with
  | pathText => cases hb
  | cached c =>
    rw [resolve_cached, HandleCache.WellFormed.resolve_eq ht hb]
    rfl

theorem resolve_cached_eq_ok_iff {c : HandleCache} {h : FileHandle} {p : Path} :
    ((cached c).resolve h).1 = .ok p ↔ (c.resolve h).1 = some p := by
  rw [resolve_cached]
  cases (c.resolve h).1 <;> simp

theorem mem_of_resolve_eq_ok {c : HandleCache} {h : FileHandle} {p : Path}
    (hp : ((cached c).resolve h).1 = .ok p) : ⟨h, p⟩ ∈ (cached c).bindings :=
  (HandleCache.resolve_eq_some (resolve_cached_eq_ok_iff.1 hp)).1

theorem mem_bindings_of_resolve {h : FileHandle} {p : Path} (ht : ∃ c, t = cached c)
    (hp : (t.resolve h).1 = .ok p) : ⟨h, p⟩ ∈ t.bindings := by
  obtain ⟨c, rfl⟩ := ht
  exact mem_of_resolve_eq_ok hp

/-- A handle that has just been issued stands for the place of its path, if the path is absolute and
its text can be read. -/
theorem WellFormed.resolve_issue (h : t.WellFormed) {p : Path}
    (habsolute : p.text.head? = some Path.slash) (htext : Utf8.isValid p.text = true) :
    ∃ r, ((t.issue p).2.resolve (t.issue p).1).1 = .ok r ∧ r.location = p.location := by
  cases t with
  | pathText =>
    refine ⟨p, ?_, rfl⟩
    show (pathText.resolve ⟨p.text⟩).1 = .ok p
    unfold resolve
    dsimp only
    rw [habsolute, htext]
    rfl
  | cached c =>
    obtain ⟨b, hb, hhandle, hplace⟩ := h.exists_binding_issue ⟨c, rfl⟩ p
    exact ⟨b.path, hhandle ▸ (h.issue p).1.resolve_eq hb, hplace⟩

/-- As long as a handle is good it stands for one path. -/
theorem Later.eq_of_resolve_eq_ok (hlater : t.Later t') (ht : t.WellFormed) {h : FileHandle}
    {p p' : Path} (hp : (t.resolve h).1 = .ok p) (hp' : (t'.resolve h).1 = .ok p') : p = p' := by
  cases t <;> cases t' <;> try exact hlater.elim
  · exact Except.ok.inj (hp.symm.trans hp')
  · have hmem := mem_of_resolve_eq_ok hp
    have hissued := ht.hasIssued hmem
    have hmem' := hlater.mem_of_mem (mem_of_resolve_eq_ok hp') hissued
    exact congrArg Binding.path (ht.eq_of_handle_eq hmem hmem' rfl)

theorem resolve_of_not_bound {c : HandleCache} {h : FileHandle}
    (hdead : ∀ b ∈ c.bindings, b.handle ≠ h) : ((cached c).resolve h).1 = .error .stale := by
  rw [resolve_cached]
  rcases heq : (c.resolve h).1 with _ | p
  · rfl
  · exact absurd rfl (hdead _ (HandleCache.resolve_eq_some heq).1)

theorem resolve_pathText (h : FileHandle) : (pathText.resolve h).2 = pathText := by
  unfold resolve
  dsimp only
  split <;> rfl

theorem WellFormed.resolve (ht : t.WellFormed) (h : FileHandle) :
    (t.resolve h).2.WellFormed ∧ t.Later (t.resolve h).2 ∧
      ∀ b, b ∈ (t.resolve h).2.bindings ↔ b ∈ t.bindings := by
  cases t with
  | pathText =>
    rw [resolve_pathText]
    exact ⟨trivial, trivial, fun _ => Iff.rfl⟩
  | cached c =>
    obtain ⟨hwell, hlater, hperm⟩ := HandleCache.WellFormed.resolve ht h
    rw [resolve_cached]
    exact ⟨hwell, hlater, fun _ => hperm.mem_iff⟩

/-- A good handle stays good when some handle is looked up. -/
theorem WellFormed.resolve_after (ht : t.WellFormed) {h : FileHandle} {p : Path}
    (hp : (t.resolve h).1 = .ok p) (h' : FileHandle) :
    ((t.resolve h').2.resolve h).1 = .ok p := by
  cases t with
  | pathText => rwa [resolve_pathText]
  | cached c =>
    obtain ⟨hwell, -, hmem⟩ := ht.resolve h'
    exact hwell.resolve_eq ((hmem _).2 (mem_of_resolve_eq_ok hp))

theorem WellFormed.forgetPath (h : t.WellFormed) (p : Path) :
    (t.forgetPath p).WellFormed ∧ t.Later (t.forgetPath p) ∧
      ∀ b, b ∈ (t.forgetPath p).bindings → b ∈ t.bindings ∧ ¬p.location <+: b.path.location := by
  cases t with
  | pathText => exact ⟨trivial, trivial, fun _ hb => absurd hb List.not_mem_nil⟩
  | cached c =>
    exact ⟨HandleCache.WellFormed.forgetPath h p, c.later_forgetPath p,
      fun _ hb => (HandleCache.WellFormed.mem_forgetPath_iff h).1 hb⟩

/-- Some forgetting after which nothing at or below the places is bound. -/
def Clears (places : List Location) (forget : HandleTable → HandleTable) : Prop :=
  ∀ t, t.WellFormed → (forget t).WellFormed ∧ t.Later (forget t) ∧
    ∀ b ∈ (forget t).bindings, b ∈ t.bindings ∧ ∀ l ∈ places, ¬l <+: b.path.location

theorem clears_forgetPath (p : Path) : Clears [p.location] (·.forgetPath p) := by
  intro t ht
  obtain ⟨hwell, hlater, hmem⟩ := ht.forgetPath p
  refine ⟨hwell, hlater, fun b hb => ⟨(hmem b hb).1, fun l hl => ?_⟩⟩
  rw [List.mem_singleton.1 hl]
  exact (hmem b hb).2

theorem Clears.append {places places' : List Location} {forget forget' : HandleTable → HandleTable}
    (h : Clears places forget) (h' : Clears places' forget') :
    Clears (places ++ places') fun t => forget' (forget t) := by
  intro t ht
  obtain ⟨hwell, hlater, hmem⟩ := h t ht
  obtain ⟨hwell', hlater', hmem'⟩ := h' (forget t) hwell
  refine ⟨hwell', hlater.trans hlater', fun b hb => ?_⟩
  obtain ⟨hb', hoff'⟩ := hmem' b hb
  obtain ⟨hb'', hoff⟩ := hmem b hb'
  exact ⟨hb'', fun l hl => (List.mem_append.1 hl).elim (hoff l) (hoff' l)⟩

end HandleTable

end NfsServer
