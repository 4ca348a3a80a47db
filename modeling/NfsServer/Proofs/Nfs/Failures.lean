import NfsServer.Proofs.Frame
import NfsServer.Proofs.Nfs.Changes
import NfsServer.Proofs.Nfs.Directories

/-!
# Failed calls leave no trace

A procedure that checks everything before its first change leaves store and live handles as they
were when it fails (`Program.Spares`).  The making of an object in a directory is cut into three
cases (`EntryAdded`), since the program that makes it may itself be one of several steps.
-/

namespace NfsServer.Nfs

open Program

variable {α β : Type} {now : Time} {b : Backend Memory}

/-- The result of a call that does not succeed. -/
def Outcome.IsFailed {φ : Type} (o : Outcome α φ) : Prop := o.status ≠ .ok

theorem Outcome.not_isFailed_ok {φ : Type} (a : α) : ¬(Outcome.ok a : Outcome α φ).IsFailed :=
  fun h => h rfl

/-- A name that is not found leaves everything as it was, and what is found has the handle that the
client gets. -/
theorem ends_lookup (hb : b.handles.WellFormed) (entry : EntryName) :
    (lookup entry).Ends now b fun o b' =>
      match o with
      | .ok r => b'.handles.HasIssued r.object
      | .failed _ _ => b.Same b' := by
  apply ends_resolve_then hb
  intro r b' _ hsame
  cases r with
  | error e => exact hsame
  | ok directory =>
    refine ends_query_then (asks_attempt (by trivial)) fun dm _ => ?_
    cases dm with
    | error e => exact hsame
    | ok dm =>
      dsimp only
      split
      · exact hsame
      · refine ends_query_then (asks_attempt (by trivial)) fun m _ => ?_
        cases m with
        | error e => exact hsame
        | ok m => exact ends_issue_then (hsame.wellFormed hb) fun _ _ _ hissued => hissued

theorem spares_lookup (hb : b.handles.WellFormed) (entry : EntryName) :
    (lookup entry).Spares Outcome.IsFailed now b := by
  refine (ends_lookup hb entry).mono fun o b' hends hfailed => ?_
  cases o with
  | ok r => exact absurd hfailed (Outcome.not_isFailed_ok r)
  | failed e attributes => exact hends

/-! ## Objects -/

/-- A procedure that does nothing on a store that refuses changes. -/
theorem spares_unless_readOnly {F : α → Prop} (a : α) {p : Program α} (hp : p.Spares F now b) :
    (isReadOnly >>= fun readOnly => if readOnly then pure a else p).Spares F now b := by
  apply spares_query_then asks_isReadOnly
  intro readOnly
  split
  · exact spares_pure a
  · exact hp

/-- A procedure that ends with a look at the store. -/
theorem spares_query_pure {F : α → Prop} {p : Program β} (hp : p.Asks Request.IsQuery)
    (k : β → α) : (p >>= fun x => pure (k x)).Spares F now b :=
  spares_query_then hp fun _ => spares_pure _

theorem spares_setAttributes (hb : b.handles.WellFormed) (args : SetAttributesArgs) :
    (setAttributes now args).Spares Outcome.IsFailed now b := by
  apply spares_unless_readOnly
  apply spares_resolve_then hb
  intro r b' _
  cases r with
  | error e => exact spares_pure _
  | ok path =>
    refine spares_query_then (asks_wccOf? path) fun before => ?_
    split
    · exact spares_query_pure (asks_wccSince before path) _
    · refine (spares_attempt (StoreRequest.isAtomic_setAttributes path _)).bind ?_ ?_
      · rintro _ b'' ⟨e, rfl⟩ -
        exact spares_query_pure (asks_wccSince before path) _
      · intro m b'' hm
        cases m with
        | error e => exact absurd ⟨e, rfl⟩ hm
        | ok m => exact Outcome.not_isFailed_ok _

theorem spares_write (hb : b.handles.WellFormed) (verifier : FixedBytes 8) (args : WriteArgs) :
    (write verifier args).Spares (fun r => ∀ a, r ≠ .results (.ok a)) now b := by
  unfold write
  split
  · exact spares_pure _
  · apply spares_unless_readOnly
    apply spares_resolve_then hb
    intro r b' _
    cases r with
    | error e => exact spares_pure _
    | ok path =>
      refine spares_query_then (asks_wccOf? path) fun before => ?_
      refine (spares_attempt (StoreRequest.isAtomic_write path _ _)).bind ?_ ?_
      · rintro _ b'' ⟨e, rfl⟩ -
        exact spares_query_pure (asks_wccSince before path) _
      · intro m b'' hm
        cases m with
        | error e => exact absurd ⟨e, rfl⟩ hm
        | ok m => exact fun hfailed => hfailed _ rfl

/-! ## New entries -/

/-- The path at which a new entry would be made: the store admits changes, the handle stands for a
directory, and the name is good. -/
structure EntryAt (b : Backend Memory) (entry : EntryName) (path : Path) : Prop where
  writable : b.store.isReadOnly = false
  named : ∃ directory, (b.handles.resolve entry.directory).1 = .ok directory ∧
    entryPath directory entry.name = .ok path

theorem EntryAt.unique {entry : EntryName} {path path' : Path} (h : EntryAt b entry path)
    (h' : EntryAt b entry path') : path = path' := by
  obtain ⟨directory, hdirectory, hpath⟩ := h.named
  obtain ⟨directory', hdirectory', hpath'⟩ := h'.named
  obtain rfl := Except.ok.inj (hdirectory.symm.trans hdirectory')
  exact Except.ok.inj (hpath.symm.trans hpath')

/-- How the making of an object in a directory ends, and what it leaves. -/
inductive EntryAdded (now : Time) (b : Backend Memory) (entry : EntryName)
    (make : Path → Program (Except NfsError Metadata)) :
    Outcome CreateResult WccData → Backend Memory → Prop
  /-- Nothing is tried. -/
  | refused {e : NfsError} {wcc : WccData} {b' : Backend Memory} (hsame : b.Same b')
      (hnowhere : ∀ path, ¬EntryAt b entry path) : EntryAdded now b entry make (.failed e wcc) b'
  /-- The making fails. -/
  | failed {e : NfsError} {wcc : WccData} {path : Path} {b' b'' : Backend Memory}
      (hsame : b.Same b') (hentry : EntryAt b entry path)
      (hmake : (make path).run now b' = (.error e, b'')) :
      EntryAdded now b entry make (.failed e wcc) b''
  /-- The object is made and gets a handle. -/
  | made {m : Metadata} {wcc : WccData} {path : Path} {b' b'' : Backend Memory}
      (hsame : b.Same b') (hentry : EntryAt b entry path)
      (hmake : (make path).run now b' = (.ok m, b'')) :
      EntryAdded now b entry make
        (.ok ⟨some (b''.handles.issue path).1, some (m.attributesAt path), wcc⟩)
        { b'' with handles := (b''.handles.issue path).2 }

theorem ends_addEntry (hb : b.handles.WellFormed) (entry : EntryName)
    (make : Path → Program (Except NfsError Metadata)) :
    (addEntry entry make).Ends now b (EntryAdded now b entry make) := by
  apply ends_query_then asks_isReadOnly
  intro readOnly hreadOnly
  split
  · next hrefused =>
    subst hrefused
    exact .refused (.refl b) fun _ h => absurd (h.writable.symm.trans hreadOnly.symm) (by decide)
  · next hwritable =>
    have hwritable : b.store.isReadOnly = false :=
      hreadOnly.symm.trans (Bool.eq_false_iff.2 hwritable)
    apply ends_resolve_then hb
    intro r b' hresolve hsame
    cases r with
    | error e =>
      refine .refused hsame fun _ ⟨_, _, hdirectory, _⟩ => ?_
      cases hresolve.trans hdirectory
    | ok directory =>
      refine ends_query_then (asks_wccOf? directory) fun before _ => ?_
      cases hpath : entryPath directory entry.name with
      | error e =>
        have hnowhere : ∀ path, ¬EntryAt b entry path := by
          rintro path ⟨-, directory', hdirectory, hpath'⟩
          obtain rfl := Except.ok.inj (hresolve.trans hdirectory)
          cases hpath.symm.trans hpath'
        show (wccSince before directory >>= fun wcc => pure (Outcome.failed e wcc)).Ends now b' _
        exact ends_query_then (asks_wccSince before directory) fun wcc _ =>
          .refused hsame hnowhere
      | ok path =>
        have hentry : EntryAt b entry path := ⟨hwritable, directory, hresolve.symm, hpath⟩
        -- The making may take several steps; its run gets a name so that the cases can speak of it.
        cases hmake : (make path).run now b' with
        | mk made b'' =>
          have hmakeAt : (makeAt (.ok path) make).Ends now b' fun a b₃ =>
              a = made.map (path, ·) ∧ b₃ = b'' := by
            unfold Ends makeAt
            dsimp only
            rw [run_bind, hmake]
            cases made <;> exact ⟨rfl, rfl⟩
          refine hmakeAt.bind ?_
          rintro _ _ ⟨rfl, rfl⟩
          refine ends_query_then (asks_wccSince before directory) fun wcc _ => ?_
          cases made with
          | error e => exact .failed hsame hentry hmake
          | ok m => exact .made hsame hentry hmake

/-- An object is made in one step or not at all. -/
theorem spares_addEntry (hb : b.handles.WellFormed) (entry : EntryName)
    {make : Path → Program (Except NfsError Metadata)}
    (hmake : ∀ path b', (make path).Spares (fun a => ∃ e, a = .error e) now b') :
    (addEntry entry make).Spares Outcome.IsFailed now b := by
  refine (ends_addEntry hb entry make).mono fun o b' hadded hfailed => ?_
  cases hadded with
  | refused hsame => exact hsame
  | @failed _ _ path b₁ _ hsame _ hrun =>
    have hspared := hmake path b₁
    unfold Spares Ends at hspared
    rw [hrun] at hspared
    exact hsame.trans (hspared ⟨_, rfl⟩)
  | made => exact absurd hfailed (Outcome.not_isFailed_ok _)

theorem spares_makeSymlink (hb : b.handles.WellFormed) (args : SymlinkArgs) :
    (makeSymlink args).Spares Outcome.IsFailed now b :=
  spares_addEntry hb args.entry fun path _ =>
    spares_attempt (StoreRequest.isAtomic_symlink path args.contents.target)

/-- An object that is made in several steps gets a handle only when all of them succeed. -/
theorem bindings_addEntry (hb : b.handles.WellFormed) (entry : EntryName)
    {make : Path → Program (Except NfsError Metadata)}
    (hmake : ∀ path, (make path).Asks Request.IsToStore) :
    (addEntry entry make).Ends now b fun o b' =>
      o.IsFailed → ∀ x, x ∈ b'.handles.bindings ↔ x ∈ b.handles.bindings := by
  refine (ends_addEntry hb entry make).mono fun o b' hadded hfailed => ?_
  cases hadded with
  | refused hsame => exact hsame.mem_bindings
  | @failed _ _ path b₁ _ hsame _ hrun =>
    have hhandles := ((hmake path).handles_run now b₁).1
    rw [hrun] at hhandles
    rw [hhandles]
    exact hsame.mem_bindings
  | made => exact absurd hfailed (Outcome.not_isFailed_ok _)

theorem bindings_create (hb : b.handles.WellFormed) (args : CreateArgs) :
    (create now args).Ends now b fun o b' =>
      o.IsFailed → ∀ x, x ∈ b'.handles.bindings ↔ x ∈ b.handles.bindings :=
  bindings_addEntry hb args.entry fun _ =>
    asks_makeThenChange (r := fun path => .create path _ _) trivial trivial

theorem bindings_makeDirectory (hb : b.handles.WellFormed) (args : MakeDirectoryArgs) :
    (makeDirectory now args).Ends now b fun o b' =>
      o.IsFailed → ∀ x, x ∈ b'.handles.bindings ↔ x ∈ b.handles.bindings :=
  bindings_addEntry hb args.entry fun _ =>
    asks_makeThenChange (r := fun path => .makeDirectory path _) trivial trivial

/-! ## Entries that go -/

theorem spares_dropAt (path : Except NfsError Path)
    {removal : Path → StoreRequest (Except StoreError Unit)} (hatomic : ∀ p, (removal p).IsAtomic) :
    (dropAt path removal).Spares (fun a => ∃ e, a = .error e) now b := by
  cases path with
  | error e => exact spares_pure _
  | ok path =>
    refine (spares_attempt (hatomic path)).bind ?_ ?_
    · rintro _ b' ⟨e, rfl⟩ -
      exact spares_pure _
    · intro a b' ha
      cases a with
      | error e => exact absurd ⟨e, rfl⟩ ha
      | ok u => exact avoids_bind_pure fun _ ⟨_, h⟩ => nomatch h

theorem spares_dropEntry (hb : b.handles.WellFormed) (entry : EntryName)
    (target : Path → Bytes → Except NfsError Path)
    {removal : Path → StoreRequest (Except StoreError Unit)} (hatomic : ∀ p, (removal p).IsAtomic) :
    (dropEntry entry target removal).Spares Outcome.IsFailed now b := by
  apply spares_unless_readOnly
  apply spares_resolve_then hb
  intro r b' _
  cases r with
  | error e => exact spares_pure _
  | ok directory =>
    refine spares_query_then (asks_wccOf? directory) fun before => ?_
    refine (spares_dropAt _ hatomic).bind ?_ ?_
    · rintro _ b'' ⟨e, rfl⟩ -
      exact spares_query_pure (asks_wccSince before directory) _
    · intro removed b'' hremoved
      cases removed with
      | error e => exact absurd ⟨e, rfl⟩ hremoved
      | ok u => exact avoids_bind_pure fun _ => Outcome.not_isFailed_ok _

theorem spares_moveEntry (source target : Except NfsError Path) :
    (moveEntry source target).Spares (fun a => ∃ e, a = .error e) now b := by
  cases source with
  | error e => exact spares_pure _
  | ok source =>
    cases target with
    | error e => exact spares_pure _
    | ok target =>
      refine (spares_attempt (StoreRequest.isAtomic_rename source target)).bind ?_ ?_
      · rintro _ b' ⟨e, rfl⟩ -
        exact spares_pure _
      · intro a b' ha
        cases a with
        | error e => exact absurd ⟨e, rfl⟩ ha
        | ok u => exact fun ⟨_, h⟩ => nomatch h

theorem spares_rename (hb : b.handles.WellFormed) (args : RenameArgs) :
    (rename args).Spares Outcome.IsFailed now b := by
  apply spares_unless_readOnly
  apply spares_resolve_then hb
  intro r b' hsame
  cases r with
  | error e => exact spares_pure _
  | ok source =>
    apply spares_resolve_then (hsame.wellFormed hb)
    intro r b'' _
    cases r with
    | error e => exact spares_pure _
    | ok target =>
      refine spares_query_then (asks_wccOf? source) fun sourceBefore => ?_
      refine spares_query_then (asks_wccOf? target) fun targetBefore => ?_
      refine (spares_moveEntry _ _).bind ?_ ?_
      · rintro _ b₃ ⟨e, rfl⟩ -
        refine spares_query_then (asks_wccSince sourceBefore source) fun sourceWcc => ?_
        exact spares_query_pure (asks_wccSince targetBefore target) _
      · intro moved b₃ hmoved
        cases moved with
        | error e => exact absurd ⟨e, rfl⟩ hmoved
        | ok u =>
          -- Two looks at the store come behind the move; neither can make the call fail.
          unfold Avoids
          rw [run_bind]
          exact avoids_bind_pure fun _ => Outcome.not_isFailed_ok _

/-! ## Directories -/

theorem spares_readDirectoryPlus (hb : b.handles.WellFormed) (args : ReadDirectoryPlusArgs) :
    (readDirectoryPlus args).Spares Outcome.IsFailed now b := by
  refine (ends_listDirectory args.directory args.cookie args.verifier _).mono
    fun o b' hlisted hfailed => ?_
  cases hlisted with
  | refused => exact Backend.same_resolved hb args.directory
  | uncut hcut =>
    dsimp only at hcut
    split at hcut
    · obtain ⟨-, rfl⟩ := Prod.mk.inj hcut
      exact Backend.same_resolved hb args.directory
    · -- Once there is a page, its entries get their handles and nothing can fail.
      rw [run_bind] at hcut
      cases hcut
  | page => exact absurd hfailed (Outcome.not_isFailed_ok _)

end NfsServer.Nfs
