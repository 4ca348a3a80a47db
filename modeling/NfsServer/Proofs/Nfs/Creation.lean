import NfsServer.Proofs.Nfs.Failures

/-!
# Objects that are made and then changed

A file or a directory is made first and gets the attributes that were asked for afterwards
(`Nfs.Creation`).  If the store refuses the size that was asked for, the call fails although the
object is there by then: it is stranded (`Creation.StrandsAt`).  This is the only case in which such
a call fails and leaves something behind (`ends_create`, `ends_makeDirectory`).
-/

namespace NfsServer

namespace Memory

variable {m : Memory} {now : Time} {l : Location} {mode : UInt32} {contents : Contents}

/-! ## Free places -/

/-- A new object can be put at the place: nothing is there, and it lies in an existing directory. -/
structure IsFree (m : Memory) (l : Location) : Prop where
  parent : m.checkParent l = .ok ()
  vacant : m.find? l = none

theorem create_of_isFree (h : m.IsFree l) (exclusive : Bool) :
    m.create now l mode exclusive = m.add now l mode (.file []) := by
  unfold create
  rw [h.parent, h.vacant]
  rfl

theorem addNew_of_isFree (h : m.IsFree l) :
    m.addNew now l mode contents = m.add now l mode contents := by
  unfold addNew
  rw [h.parent, h.vacant]
  rfl

/-- What is put at a free place is there afterwards. -/
theorem find?_insert_self (m : Memory) (now : Time) (l : Location) (mode : UInt32)
    (contents : Contents) :
    ∃ o, (m.insert now l mode contents).find? l = some o ∧ o.contents = contents := by
  unfold insert touchParent
  rw [find?_modify]
  have hnew : Memory.find? { m with
      objects := (l, m.newObject now mode contents) :: m.objects, nextId := m.nextId + 1 } l =
        some (m.newObject now mode contents) := List.lookup_cons_self
  rw [hnew]
  split
  · exact ⟨_, rfl, rfl⟩
  · exact ⟨_, rfl, rfl⟩

theorem insert_ne_self : m.insert now l mode contents ≠ m :=
  fun h => Nat.succ_ne_self m.nextId (congrArg nextId h)

/-! ## Sizes -/

/-- What holds the given contents cannot get a size: it is too large for a file, there is no room
for it, or what would get it is no file. -/
def RefusesSize (m : Memory) (contents : Contents) (n : Nat) : Prop :=
  m.maxFileSize < n ∨ match contents with
    | .file data => data.length < n ∧ allocationLimit ≤ n
    | .directory | .symlink _ => True

/-- Nothing but a size keeps the attributes of an object from being changed. -/
theorem setAttributes_eq_error_iff (now : Time) {o : Object} (ho : m.find? l = some o)
    (changes : AttributeChanges) :
    (∃ e, m.setAttributes now l changes = .error e) ↔
      ∃ n, changes.size = some n ∧ m.RefusesSize o.contents n := by
  have hget : m.get l = .ok o := get_eq_ok_iff.2 ho
  obtain ⟨contents, kind, mode, size, accessed, modified, changed, fileId⟩ := o
  unfold setAttributes RefusesSize
  rw [hget]
  cases hsize : changes.size with
  | none =>
    refine iff_of_false (fun ⟨e, h⟩ => ?_) fun ⟨n, h, _⟩ => nomatch h
    cases h
  | some n =>
    simp only [Option.any_some, decide_eq_true_eq, Option.some.injEq, exists_eq_left']
    by_cases hlarge : m.maxFileSize < n
    · rw [if_pos hlarge]
      exact iff_of_true ⟨_, rfl⟩ (Or.inl hlarge)
    · rw [if_neg hlarge]
      cases contents with
      | directory => exact iff_of_true ⟨_, rfl⟩ (Or.inr trivial)
      | symlink target => exact iff_of_true ⟨_, rfl⟩ (Or.inr trivial)
      | file data =>
        by_cases hroom : data.length < n ∧ allocationLimit ≤ n
        · refine iff_of_true ⟨.storageFull, ?_⟩ (Or.inr hroom)
          show (checkRoom data n >>= _) = _
          rw [checkRoom, if_pos hroom]
          rfl
        · refine iff_of_false (fun ⟨e, h⟩ => ?_) fun h => h.elim hlarge hroom
          replace h : (checkRoom data n >>= _) = _ := h
          rw [checkRoom, if_neg hroom] at h
          cases h

end Memory

namespace Nfs

open Program

variable {now : Time} {b : Backend Memory}

/-! ## Making and changing -/

/-- A request that puts an object at a free place and changes nothing if the place is not free. -/
structure Adds (path : Path) (mode : UInt32) (contents : Contents)
    (r : StoreRequest (Except StoreError Metadata)) : Prop where
  perform_of_isFree : ∀ {now : Time} {m : Memory}, m.IsFree path.location →
    Memory.perform now r m =
      (.ok (m.newObject now mode contents).metadata, m.insert now path.location mode contents)
  perform_of_not_isFree : ∀ {now : Time} {m : Memory}, ¬m.IsFree path.location →
    (Memory.perform now r m).2 = m

theorem adds_create (path : Path) (mode : UInt32) (exclusive : Bool) :
    Adds path mode (.file []) (.create path mode exclusive) where
  perform_of_isFree h := congrArg (Memory.answer _) (Memory.create_of_isFree h exclusive)
  perform_of_not_isFree {now m} h := by
    refine (Memory.answer_snd m).elim id ?_
    rintro ⟨a, hcreate⟩
    obtain ⟨hparent, ⟨hvacant, -, -⟩ | ⟨-, -, hkept⟩⟩ := Memory.create_ok hcreate
    · exact absurd ⟨hparent, hvacant⟩ h
    · exact hkept

theorem adds_makeDirectory (path : Path) (mode : UInt32) :
    Adds path mode .directory (.makeDirectory path mode) where
  perform_of_isFree h := congrArg (Memory.answer _) (Memory.addNew_of_isFree h)
  perform_of_not_isFree {now m} h := by
    refine (Memory.answer_snd m).elim id ?_
    rintro ⟨a, hadd⟩
    obtain ⟨hparent, hvacant, -, -⟩ := Memory.addNew_ok hadd
    exact absurd ⟨hparent, hvacant⟩ h

theorem spares_applyChanges (path : Path) (m : Metadata) (changes : AttributeChanges) :
    (applyChanges path m changes).Spares (fun a => ∃ e, a = .error e) now b := by
  unfold applyChanges
  split
  · exact spares_pure _
  · exact spares_attempt (StoreRequest.isAtomic_setAttributes path changes)

theorem applyChanges_fails_iff (now : Time) (b : Backend Memory) {path : Path} {o : Object}
    (ho : b.store.find? path.location = some o) (m : Metadata) (changes : AttributeChanges) :
    (∃ e, ((applyChanges path m changes).run now b).1 = .error e) ↔
      ∃ n, changes.size = some n ∧ b.store.RefusesSize o.contents n := by
  unfold applyChanges
  split
  · next hempty =>
    have hnone : changes = ⟨none, none, none, none⟩ := of_decide_eq_true hempty
    subst hnone
    exact iff_of_false (fun ⟨_, h⟩ => nomatch h) fun ⟨_, h, _⟩ => nomatch h
  · rw [← Memory.setAttributes_eq_error_iff now ho]
    show (∃ e, report (Memory.answer b.store (b.store.setAttributes now path.location changes)).1 =
      .error e) ↔ _
    cases b.store.setAttributes now path.location changes with
    | error e => exact iff_of_true ⟨_, rfl⟩ ⟨_, rfl⟩
    | ok a => exact iff_of_false (fun ⟨_, h⟩ => nomatch h) fun ⟨_, h⟩ => nomatch h

/-- An object that is made at a free place stays when it cannot get its size. -/
theorem ends_makeThenChange (now : Time) (b : Backend Memory) {path : Path} {mode : UInt32}
    {contents : Contents} {r : Path → StoreRequest (Except StoreError Metadata)}
    (hr : Adds path mode contents (r path)) (changes : AttributeChanges) :
    (makeThenChange r changes path).Ends now b fun a b' =>
      let strands := b.store.IsFree path.location ∧
        ∃ n, changes.size = some n ∧ b.store.RefusesSize contents n
      ((∃ e, a = .error e) → ¬strands → b'.store = b.store) ∧
        (strands → (∃ e, a = .error e) ∧
          b'.store = b.store.insert now path.location mode contents) := by
  unfold Ends makeThenChange
  rw [run_bind]
  -- What the request leaves decides everything else.
  have hattempt : (attempt (r path)).run now b = (report (Memory.perform now (r path) b.store).1,
      { b with store := (Memory.perform now (r path) b.store).2 }) := rfl
  rw [hattempt]
  by_cases hfree : b.store.IsFree path.location
  · rw [hr.perform_of_isFree hfree]
    obtain ⟨o, ho, hcontents⟩ := b.store.find?_insert_self now path.location mode contents
    let b' : Backend Memory := { b with store := b.store.insert now path.location mode contents }
    have hfails := applyChanges_fails_iff now b' ho (b.store.newObject now mode contents).metadata
      changes
    rw [hcontents] at hfails
    refine ⟨fun hfailed hstrands => absurd ⟨hfree, hfails.1 hfailed⟩ hstrands, fun hstrands => ?_⟩
    have hfailed := hfails.2 hstrands.2
    exact ⟨hfailed, (spares_applyChanges path _ changes hfailed).store⟩
  · rw [hr.perform_of_not_isFree hfree]
    refine ⟨fun hfailed _ => ?_, fun hstrands => absurd hstrands.1 hfree⟩
    cases hmade : (Memory.perform now (r path) b.store).1 with
    | error e => rfl
    | ok m =>
      rw [hmade] at hfailed
      exact (spares_applyChanges path m changes hfailed).store

/-! ## Creations -/

/-- What a call asks to be made in a directory. -/
structure Creation where
  entry : EntryName
  mode : UInt32
  contents : Contents
  size : Option UInt64

namespace Creation

/-- The creation of a file. -/
def ofCreate (args : CreateArgs) : Creation where
  entry := args.entry
  mode := args.how.requested.mode.getD defaultFileMode
  contents := .file []
  size := args.how.requested.size

/-- The creation of a directory. -/
def ofMakeDirectory (args : MakeDirectoryArgs) : Creation where
  entry := args.entry
  mode := args.requested.mode.getD defaultDirectoryMode
  contents := .directory
  size := args.requested.size

/-- The object can be made at the path, but it cannot get the size that is asked for. -/
structure StrandsAt (c : Creation) (b : Backend Memory) (path : Path) : Prop where
  entry : EntryAt b c.entry path
  free : b.store.IsFree path.location
  refused : ∃ n, c.size = some n ∧ b.store.RefusesSize c.contents n.toNat

/-- When a call ends in failure or not, the store behind it is what it was or holds a stranded
object. -/
structure LeavesBehind (c : Creation) (now : Time) (b : Backend Memory) (failed : Prop)
    (store : Memory) : Prop where
  nothing : failed → (∀ path, ¬c.StrandsAt b path) → store = b.store
  stranded : ∀ path, c.StrandsAt b path →
    failed ∧ store = b.store.insert now path.location c.mode c.contents

end Creation

theorem ends_addEntry_makeThenChange (hb : b.handles.WellFormed) (c : Creation)
    {r : Path → StoreRequest (Except StoreError Metadata)}
    (hr : ∀ path, Adds path c.mode c.contents (r path)) {changes : AttributeChanges}
    (hsize : changes.size = c.size.map UInt64.toNat) :
    (addEntry c.entry (makeThenChange r changes)).Ends now b fun o b' =>
      c.LeavesBehind now b o.IsFailed b'.store := by
  have hrefused : ∀ m : Memory, (∃ n, changes.size = some n ∧ m.RefusesSize c.contents n) ↔
      ∃ n, c.size = some n ∧ m.RefusesSize c.contents n.toNat := by
    intro m
    rw [hsize]
    cases c.size <;> simp
  refine (ends_addEntry hb c.entry _).mono fun o b' hadded => ?_
  cases hadded with
  | refused hsame hnowhere =>
    exact ⟨fun _ _ => hsame.store, fun path h => absurd h.entry (hnowhere path)⟩
  | @failed _ _ path b₁ _ hsame hentry hmake =>
    have hends := ends_makeThenChange now b₁ (hr path) changes
    unfold Ends at hends
    rw [hmake, hsame.store, hrefused] at hends
    refine ⟨fun _ hnowhere => hends.1 ⟨_, rfl⟩ fun h => hnowhere path ⟨hentry, h.1, h.2⟩, ?_⟩
    intro path' hstrands
    obtain rfl := hentry.unique hstrands.entry
    exact ⟨nofun, (hends.2 ⟨hstrands.free, hstrands.refused⟩).2⟩
  | @made _ _ path b₁ _ hsame hentry hmake =>
    have hends := ends_makeThenChange now b₁ (hr path) changes
    unfold Ends at hends
    rw [hmake, hsame.store, hrefused] at hends
    refine ⟨fun hfailed => absurd hfailed (Outcome.not_isFailed_ok _), fun path' hstrands => ?_⟩
    obtain rfl := hentry.unique hstrands.entry
    obtain ⟨⟨e, herror⟩, -⟩ := hends.2 ⟨hstrands.free, hstrands.refused⟩
    cases herror

theorem ends_create (hb : b.handles.WellFormed) (args : CreateArgs) :
    (create now args).Ends now b fun o b' =>
      (Creation.ofCreate args).LeavesBehind now b o.IsFailed b'.store :=
  ends_addEntry_makeThenChange hb (.ofCreate args) (fun path => adds_create path _ _) rfl

theorem ends_makeDirectory (hb : b.handles.WellFormed) (args : MakeDirectoryArgs) :
    (makeDirectory now args).Ends now b fun o b' =>
      (Creation.ofMakeDirectory args).LeavesBehind now b o.IsFailed b'.store :=
  ends_addEntry_makeThenChange hb (.ofMakeDirectory args) (fun path => adds_makeDirectory path _)
    rfl

end Nfs

end NfsServer
