import NfsServer.Proofs.Nfs.Changes
import NfsServer.Proofs.Nfs.Directories

/-!
# Who is told that a handle is stale

On a store that takes changes, a procedure ends with the status of a stale handle exactly if one of
the handles among its arguments is not live (`Program.Blames`).  No other step blames a handle:
whatever a store reports, the status for it is another one (`yields_attempt`), and so is the status
for a bad name, cookie or size.  The commit of data is the one procedure that calls a handle stale
for an object whose attributes cannot be had.
-/

namespace NfsServer

/-- The handle stands for a path. -/
def HandleTable.IsLive (t : HandleTable) (h : FileHandle) : Prop := ∃ x ∈ t.bindings, x.handle = h

instance (t : HandleTable) (h : FileHandle) : Decidable (t.IsLive h) :=
  inferInstanceAs (Decidable (∃ x ∈ t.bindings, x.handle = h))

/-! ## Programs and the values they end with -/

namespace Program

variable {α β : Type} {now : Time} {b : Backend Memory}

/-- Whatever its requests are answered, the program ends with a value of which `P` holds. -/
def Yields (P : α → Prop) : Program α → Prop
  | done a => P a
  | ask _ next => ∀ b, (next b).Yields P

variable {P : α → Prop}

theorem yields_pure {a : α} (h : P a) : (pure a : Program α).Yields P := h

theorem yields_any (p : Program α) : p.Yields fun _ => True := by
  induction p with
  | done a => trivial
  | ask r next ih => exact ih

theorem Yields.bind {p : Program α} {k : α → Program β} {Q : β → Prop} (hp : p.Yields P)
    (hk : ∀ a, P a → (k a).Yields Q) : (p >>= k).Yields Q := by
  induction p with
  | done a => exact hk a hp
  | ask r next ih => exact fun b => ih b (hp b)

/-- A program that begins with one whose value does not matter. -/
theorem yields_then (p : Program α) {k : α → Program β} {Q : β → Prop}
    (hk : ∀ a, (k a).Yields Q) : (p >>= k).Yields Q :=
  (yields_any p).bind fun a _ => hk a

theorem Yields.run {σ : Type} [Store σ] {p : Program α} (h : p.Yields P) (now : Time)
    (b : Backend σ) : P (p.run now b).1 := by
  induction p generalizing b with
  | done a => exact h
  | ask r next ih => exact ih _ (h _) _

/-! ## Blaming handles -/

/-- The program ends with a value that blames a handle exactly if one of the handles is not live. -/
def Blames (blame : α → Prop) (hs : List FileHandle) (now : Time) (p : Program α)
    (b : Backend Memory) : Prop :=
  blame (p.run now b).1 ↔ ∃ h ∈ hs, ¬b.handles.IsLive h

variable {blame : α → Prop} {hs : List FileHandle}

theorem Blames.of_iff {blame' : α → Prop} {p : Program α} (h : p.Blames blame hs now b)
    (hiff : ∀ a, blame' a ↔ blame a) : p.Blames blame' hs now b :=
  (hiff _).trans h

theorem Yields.blames {p : Program α} (h : p.Yields fun a => ¬blame a) :
    p.Blames blame [] now b :=
  iff_of_false (h.run now b) fun ⟨_, hmem, _⟩ => List.not_mem_nil hmem

/-- A program that begins with the path of a handle. -/
theorem blames_resolve_then (hb : b.handles.WellFormed) (hcached : ∃ c, b.handles = .cached c)
    {h : FileHandle} {k : Except Nfs.NfsError Path → Program α}
    (hdead : (k (.error .stale)).Yields blame)
    (hlive : ∀ x ∈ b.handles.bindings, x.handle = h →
      (k (.ok x.path)).Blames blame hs now (b.resolved h)) :
    (resolve h >>= k).Blames blame (h :: hs) now b := by
  have hrun : (resolve h >>= k).run now b =
      (k (b.handles.resolve h).1).run now (b.resolved h) := run_bind now (resolve h) k b
  have hsame := Backend.same_resolved hb h
  unfold Blames
  rw [hrun]
  by_cases hx : b.handles.IsLive h
  · obtain ⟨x, hx, rfl⟩ := hx
    rw [hb.resolve_eq hx]
    refine (hlive x hx rfl).trans ?_
    have hiff : ∀ h, (b.resolved x.handle).handles.IsLive h ↔ b.handles.IsLive h := fun h =>
      exists_congr fun y => and_congr_left' (hsame.mem_bindings y)
    simp only [hiff, List.mem_cons, exists_eq_or_imp]
    exact ⟨Or.inr, fun h => h.resolve_left fun hnot => hnot ⟨x, hx, rfl⟩⟩
  · obtain ⟨c, hc⟩ := hcached
    have hnot : ∀ y ∈ c.bindings, y.handle ≠ h := by
      intro y hy heq
      refine hx ⟨y, ?_, heq⟩
      rw [hc]
      exact hy
    have herror : (b.handles.resolve h).1 = .error .stale := by
      rw [hc]
      exact HandleTable.resolve_of_not_bound hnot
    rw [herror]
    exact iff_of_true (hdead.run now _) ⟨h, List.mem_cons_self, hx⟩

/-- A program that does nothing on a store that refuses changes. -/
theorem blames_unless_readOnly (hwrite : b.store.isReadOnly = false) (a : α) {p : Program α}
    (hp : p.Blames blame hs now b) :
    (Nfs.isReadOnly >>= fun readOnly => if readOnly then pure a else p).Blames blame hs now b := by
  have hrun : (Nfs.isReadOnly >>= fun readOnly => if readOnly then pure a else p).run now b =
      (if b.store.isReadOnly then pure a else p : Program α).run now b := run_bind now _ _ b
  rw [hwrite] at hrun
  unfold Blames
  rw [hrun]
  exact hp

theorem Blames.responding {p : Program α} {blame : Response α → Prop}
    (h : p.Blames (fun a => blame (.results a)) hs now b) : p.responding.Blames blame hs now b := by
  unfold Blames
  rw [run_responding]
  exact h

end Program

/-! ## Errors that blame no handle -/

namespace Nfs

open Program

variable {α φ : Type} {now : Time} {b : Backend Memory}

/-- The result tells that a handle is stale. -/
def Outcome.IsStale (o : Outcome α φ) : Prop := o.status = .failed .stale

theorem Outcome.not_isStale_ok (a : α) : ¬(Outcome.ok a : Outcome α φ).IsStale :=
  Status.noConfusion

theorem Outcome.not_isStale_failed {e : NfsError} (he : e ≠ .stale) (detail : φ) :
    ¬(Outcome.failed e detail : Outcome α φ).IsStale :=
  fun h => he (Status.failed.inj h)

/-- The response tells that a handle is stale. -/
def IsStaleResponse (r : Response (Outcome α φ)) : Prop := ∃ o, r = .results o ∧ o.IsStale

theorem isStaleResponse_results {o : Outcome α φ} :
    IsStaleResponse (.results o) ↔ o.IsStale :=
  ⟨fun ⟨_, h, ho⟩ => Response.results.inj h ▸ ho, fun h => ⟨o, rfl, h⟩⟩

/-- The answer is no error that blames a handle. -/
def Unblamed (r : Except NfsError α) : Prop := ∀ e, r = .error e → e ≠ .stale

theorem unblamed_ok (a : α) : Unblamed (.ok a : Except NfsError α) := fun _ h => nomatch h

theorem unblamed_error {e : NfsError} (he : e ≠ .stale) :
    Unblamed (.error e : Except NfsError α) :=
  fun _ h => Except.error.inj h ▸ he

theorem unblamed_report (r : Except StoreError α) : Unblamed (report r) := by
  cases r with
  | ok a => exact unblamed_ok a
  | error e => cases e <;> exact unblamed_error NfsError.noConfusion

theorem unblamed_entryPath (directory : Path) (name : Bytes) :
    Unblamed (entryPath directory name) := by
  unfold entryPath checkName
  split
  · next e he =>
    split at he
    · exact unblamed_error (Except.error.inj he ▸ NfsError.noConfusion)
    · cases he
  · split
    · exact unblamed_error NfsError.noConfusion
    · exact unblamed_ok _

theorem unblamed_lookupPath (directory : Path) (m : Metadata) (name : Bytes) :
    Unblamed (lookupPath directory m name) := by
  unfold lookupPath
  split
  · exact unblamed_error NfsError.noConfusion
  · split
    · exact unblamed_ok _
    · split
      · exact unblamed_ok _
      · exact unblamed_entryPath directory name

theorem unblamed_removalPath (directory : Path) (name : Bytes) :
    Unblamed (removalPath directory name) := by
  unfold removalPath
  split
  · exact unblamed_error NfsError.noConfusion
  · split
    · exact unblamed_error NfsError.noConfusion
    · exact unblamed_entryPath directory name

theorem unblamed_childEntries (directory : Path) (children : List Child) :
    Unblamed (Listing.childEntries directory children) := by
  fun_induction Listing.childEntries directory children with
  | case1 => exact unblamed_ok []
  | case2 => exact unblamed_error NfsError.noConfusion
  | case3 _ _ _ _ e he ih => exact unblamed_error (ih e he)
  | case4 => exact unblamed_ok _

theorem unblamed_resume (l : Listing) (cookie : UInt64) (verifier : FixedBytes 8) :
    Unblamed (l.resume cookie verifier) := by
  unfold Listing.resume
  split
  · exact unblamed_ok 0
  · split
    · exact unblamed_error NfsError.noConfusion
    · split
      · exact unblamed_ok _
      · exact unblamed_error NfsError.noConfusion

theorem unblamed_page {ε : Type} [Wire ε] (l : Listing) (start : Nat) (budget : PageBudget)
    (make : ListedEntry → UInt64 → ε) : Unblamed (Page.of l start budget make) := by
  unfold Page.of
  dsimp only
  split
  · exact unblamed_error NfsError.noConfusion
  · exact unblamed_ok _

theorem yields_attempt (r : StoreRequest (Except StoreError α)) : (attempt r).Yields Unblamed :=
  yields_then (store r) fun a => yields_pure (unblamed_report a)

/-- A program that begins with one that can fail, but does not blame a handle. -/
theorem yields_either {β : Type} {p : Program (Except NfsError α)} (hp : p.Yields Unblamed)
    {k : Except NfsError α → Program β} {P : β → Prop}
    (herror : ∀ e, e ≠ .stale → (k (.error e)).Yields P) (hok : ∀ a, (k (.ok a)).Yields P) :
    (p >>= k).Yields P := by
  refine hp.bind fun r hr => ?_
  cases r with
  | error e => exact herror e (hr e rfl)
  | ok a => exact hok a

section Procedures

variable (hb : b.handles.WellFormed) (hcached : ∃ c, b.handles = .cached c)
include hb hcached

/-! ## Procedures that change nothing -/

theorem blames_getAttributes (object : FileHandle) :
    (getAttributes object).Blames Outcome.IsStale [object] now b := by
  refine blames_resolve_then hb hcached rfl fun x _ _ => Yields.blames ?_
  exact yields_either (yields_attempt _) (fun _ he => Outcome.not_isStale_failed he ())
    fun m => Outcome.not_isStale_ok _

theorem blames_lookup (entry : EntryName) :
    (lookup entry).Blames Outcome.IsStale [entry.directory] now b := by
  refine blames_resolve_then hb hcached rfl fun x _ _ => Yields.blames ?_
  refine yields_either (yields_attempt _) (fun _ he => Outcome.not_isStale_failed he _)
    fun dm => ?_
  dsimp only
  split
  · next e he =>
    exact Outcome.not_isStale_failed (unblamed_lookupPath x.path dm entry.name e he) _
  · exact yields_either (yields_attempt _) (fun _ he => Outcome.not_isStale_failed he _)
      fun m => yields_then _ fun object => Outcome.not_isStale_ok _

theorem blames_access (args : AccessArgs) :
    (access args).Blames Outcome.IsStale [args.object] now b := by
  refine blames_resolve_then hb hcached rfl fun x _ _ => Yields.blames ?_
  exact yields_either (yields_attempt _) (fun _ he => Outcome.not_isStale_failed he _)
    fun m => yields_then _ fun readOnly => Outcome.not_isStale_ok _

theorem blames_readLink (object : FileHandle) :
    (readLink object).Blames Outcome.IsStale [object] now b := by
  refine blames_resolve_then hb hcached rfl fun x _ _ => Yields.blames ?_
  refine yields_then _ fun attributes => ?_
  exact yields_either (yields_attempt _) (fun _ he => Outcome.not_isStale_failed he _)
    fun target => Outcome.not_isStale_ok _

omit hb hcached in
theorem yields_readData (path : Path) (offset : UInt64) (count : UInt32) :
    (readData path offset count).Yields Unblamed := by
  refine yields_either (yields_attempt _) (fun _ he => unblamed_error he) fun m => ?_
  dsimp only
  split
  · exact unblamed_error NfsError.noConfusion
  · exact yields_attempt _

theorem blames_read (args : ReadArgs) : (read args).Blames Outcome.IsStale [args.file] now b := by
  refine blames_resolve_then hb hcached rfl fun x _ _ => Yields.blames ?_
  exact yields_either (yields_readData x.path args.offset _)
    (fun _ he => yields_then _ fun attributes => Outcome.not_isStale_failed he _)
    fun chunk => yields_then _ fun attributes => Outcome.not_isStale_ok _

theorem blames_fileSystemSpace (object : FileHandle) :
    (fileSystemSpace object).Blames Outcome.IsStale [object] now b := by
  refine blames_resolve_then hb hcached rfl fun x _ _ => Yields.blames ?_
  refine yields_then _ fun attributes => ?_
  exact yields_either (yields_attempt _) (fun _ he => Outcome.not_isStale_failed he _)
    fun s => Outcome.not_isStale_ok _

theorem blames_fileSystemLimits (object : FileHandle) :
    (fileSystemLimits object).Blames Outcome.IsStale [object] now b := by
  refine blames_resolve_then hb hcached rfl fun x _ _ => Yields.blames ?_
  exact yields_then _ fun attributes => yields_then _ fun size => Outcome.not_isStale_ok _

theorem blames_namingLimits (object : FileHandle) :
    (namingLimits object).Blames Outcome.IsStale [object] now b := by
  refine blames_resolve_then hb hcached rfl fun x _ _ => Yields.blames ?_
  exact yields_then _ fun attributes => Outcome.not_isStale_ok _

omit hb hcached in
/-- The attributes of an object that is there can be had. -/
theorem run_attributesOf?_of_idAt (now : Time) {path : Path} {f : Nat}
    (hf : b.store.idAt path.location = some f) :
    ∃ a, ((attributesOf? path).run now b).1 = some a := by
  obtain ⟨o, ho, -⟩ := Memory.idAt_eq_some_iff.1 hf
  have hstat : b.store.stat path.location = .ok o.metadata := Memory.stat_eq_ok_iff.2 ⟨o, ho, rfl⟩
  have hattempt : ((attempt (.stat path)).run now b).1 = .ok o.metadata := congrArg report hstat
  refine ⟨o.metadata.attributesAt path, ?_⟩
  unfold attributesOf?
  rw [run_bind, hattempt]
  rfl

/-- The commit of data needs more than the others: that live handles have objects. -/
theorem blames_commit (hidAt : ∀ x ∈ b.handles.bindings, ∃ f, b.store.idAt x.path.location = some f)
    (verifier : FixedBytes 8) (args : CommitArgs) :
    (commit verifier args).Blames Outcome.IsStale [args.file] now b := by
  refine blames_resolve_then hb hcached rfl fun x hx _ => ?_
  obtain ⟨f, hf⟩ := hidAt x hx
  have hthere : (b.resolved args.file).store.idAt x.path.location = some f := hf
  obtain ⟨a, ha⟩ := run_attributesOf?_of_idAt now hthere
  unfold Blames
  dsimp only
  rw [run_bind, ha]
  exact iff_of_false (Outcome.not_isStale_ok _) fun ⟨_, hmem, _⟩ => List.not_mem_nil hmem

/-! ## Procedures that list directories -/

omit hb hcached in
theorem yields_parentMetadata (directory : Path) (m : Metadata) :
    (Listing.parentMetadata directory m).Yields Unblamed := by
  unfold Listing.parentMetadata
  split
  · exact unblamed_ok m
  · exact yields_attempt _

omit hb hcached in
theorem yields_listingRead (directory : Path) (m : Metadata) :
    (Listing.read directory m).Yields Unblamed := by
  refine yields_either (yields_attempt _) (fun _ he => unblamed_error he) fun children => ?_
  refine yields_either (yields_parentMetadata directory m) (fun _ he => unblamed_error he)
    fun parent => ?_
  dsimp only
  split
  · next e he => exact unblamed_error (unblamed_childEntries directory _ e he)
  · exact unblamed_ok _

omit hb hcached in
theorem yields_listFrom (directory : Path) (m : Metadata) (cookie : UInt64)
    (verifier : FixedBytes 8) : (listFrom directory m cookie verifier).Yields Unblamed := by
  refine yields_either (yields_listingRead directory m) (fun _ he => unblamed_error he)
    fun listing => ?_
  dsimp only
  split
  · next e he => exact unblamed_error (unblamed_resume listing cookie verifier e he)
  · exact unblamed_ok _

theorem blames_listDirectory {ε : Type} (directory : FileHandle) (cookie : UInt64)
    (verifier : FixedBytes 8) {cut : Listing → Nat → Program (Except NfsError (Page ε))}
    (hcut : ∀ listing start, (cut listing start).Yields Unblamed) :
    (listDirectory directory cookie verifier cut).Blames Outcome.IsStale [directory] now b := by
  refine blames_resolve_then hb hcached rfl fun x _ _ => Yields.blames ?_
  refine yields_either (yields_attempt _) (fun _ he => Outcome.not_isStale_failed he _) fun m => ?_
  dsimp only
  split
  · exact Outcome.not_isStale_failed NfsError.noConfusion _
  · refine yields_either (yields_listFrom x.path m cookie verifier)
      (fun _ he => Outcome.not_isStale_failed he _) fun listed => ?_
    exact yields_either (hcut listed.1 listed.2) (fun _ he => Outcome.not_isStale_failed he _)
      fun page => Outcome.not_isStale_ok _

theorem blames_readDirectory (args : ReadDirectoryArgs) :
    (readDirectory args).Blames Outcome.IsStale [args.directory] now b :=
  blames_listDirectory hb hcached args.directory args.cookie args.verifier fun listing start =>
    unblamed_page listing start _ _

theorem blames_readDirectoryPlus (args : ReadDirectoryPlusArgs) :
    (readDirectoryPlus args).Blames Outcome.IsStale [args.directory] now b := by
  refine blames_listDirectory hb hcached args.directory args.cookie args.verifier
    fun listing start => ?_
  dsimp only
  split
  · next e he => exact unblamed_error (unblamed_page listing start _ _ e he)
  · exact yields_then _ fun entries => unblamed_ok _

/-! ## Procedures that change the store -/

variable (hwrite : b.store.isReadOnly = false)
include hwrite

theorem blames_setAttributes (args : SetAttributesArgs) :
    (setAttributes now args).Blames Outcome.IsStale [args.object] now b := by
  refine blames_unless_readOnly hwrite _ ?_
  refine blames_resolve_then hb hcached rfl fun x _ _ => Yields.blames ?_
  refine yields_then _ fun before => ?_
  split
  · exact yields_then _ fun wcc => Outcome.not_isStale_failed NfsError.noConfusion _
  · exact yields_either (yields_attempt _)
      (fun _ he => yields_then _ fun wcc => Outcome.not_isStale_failed he _)
      fun m => Outcome.not_isStale_ok _

/-- Data whose length is not the given one is not looked at any further. -/
theorem blames_write (verifier : FixedBytes 8) {args : WriteArgs}
    (hcount : args.data.length = args.count.toNat) :
    (write verifier args).Blames IsStaleResponse [args.file] now b := by
  unfold write
  rw [if_neg (not_not_intro hcount)]
  refine blames_unless_readOnly hwrite _ ?_
  refine blames_resolve_then hb hcached ⟨_, rfl, rfl⟩ fun x _ _ => Yields.blames ?_
  refine yields_then _ fun before => ?_
  exact yields_either (yields_attempt _)
    (fun _ he => yields_then _ fun wcc =>
      mt isStaleResponse_results.1 (Outcome.not_isStale_failed he _))
    fun m => mt isStaleResponse_results.1 (Outcome.not_isStale_ok _)

omit hb hcached hwrite in
theorem yields_applyChanges (path : Path) (m : Metadata) (changes : AttributeChanges) :
    (applyChanges path m changes).Yields Unblamed := by
  unfold applyChanges
  split
  · exact unblamed_ok m
  · exact yields_attempt _

omit hb hcached hwrite in
theorem yields_makeThenChange (r : Path → StoreRequest (Except StoreError Metadata))
    (changes : AttributeChanges) (path : Path) :
    (makeThenChange r changes path).Yields Unblamed :=
  yields_either (yields_attempt _) (fun _ he => unblamed_error he) fun m =>
    yields_applyChanges path m changes

omit hb hcached hwrite in
theorem yields_makeAt {path : Except NfsError Path} (hpath : Unblamed path)
    {make : Path → Program (Except NfsError Metadata)} (hmake : ∀ p, (make p).Yields Unblamed) :
    (makeAt path make).Yields Unblamed := by
  cases path with
  | error e => exact unblamed_error (hpath e rfl)
  | ok path =>
    exact yields_either (hmake path) (fun _ he => unblamed_error he) fun m => unblamed_ok _

theorem blames_addEntry (entry : EntryName) {make : Path → Program (Except NfsError Metadata)}
    (hmake : ∀ p, (make p).Yields Unblamed) :
    (addEntry entry make).Blames Outcome.IsStale [entry.directory] now b := by
  refine blames_unless_readOnly hwrite _ ?_
  refine blames_resolve_then hb hcached rfl fun x _ _ => Yields.blames ?_
  refine yields_then _ fun before => ?_
  exact yields_either (yields_makeAt (unblamed_entryPath x.path entry.name) hmake)
    (fun _ he => yields_then _ fun wcc => Outcome.not_isStale_failed he _)
    fun made => yields_then _ fun wcc => yields_then _ fun object => Outcome.not_isStale_ok _

omit hb hcached hwrite in
theorem yields_dropAt {path : Except NfsError Path} (hpath : Unblamed path)
    (removal : Path → StoreRequest (Except StoreError Unit)) :
    (dropAt path removal).Yields Unblamed := by
  cases path with
  | error e => exact unblamed_error (hpath e rfl)
  | ok path =>
    exact yields_either (yields_attempt _) (fun _ he => unblamed_error he)
      fun _ => yields_then _ fun _ => unblamed_ok _

theorem blames_dropEntry (entry : EntryName) {target : Path → Bytes → Except NfsError Path}
    (htarget : ∀ directory name, Unblamed (target directory name))
    (removal : Path → StoreRequest (Except StoreError Unit)) :
    (dropEntry entry target removal).Blames Outcome.IsStale [entry.directory] now b := by
  refine blames_unless_readOnly hwrite _ ?_
  refine blames_resolve_then hb hcached rfl fun x _ _ => Yields.blames ?_
  refine yields_then _ fun before => ?_
  exact yields_either (yields_dropAt (htarget x.path entry.name) removal)
    (fun _ he => yields_then _ fun wcc => Outcome.not_isStale_failed he _)
    fun _ => yields_then _ fun wcc => Outcome.not_isStale_ok _

omit hb hcached hwrite in
theorem yields_moveEntry {source target : Except NfsError Path} (hsource : Unblamed source)
    (htarget : Unblamed target) : (moveEntry source target).Yields Unblamed := by
  cases source with
  | error e => exact unblamed_error (hsource e rfl)
  | ok source =>
    cases target with
    | error e => exact unblamed_error (htarget e rfl)
    | ok target =>
      exact yields_either (yields_attempt _) (fun _ he => unblamed_error he)
        fun _ => yields_then _ fun _ => yields_then _ fun _ => unblamed_ok _

theorem blames_rename (args : RenameArgs) :
    (rename args).Blames Outcome.IsStale [args.source.directory, args.target.directory] now b := by
  have hsame := Backend.same_resolved hb args.source.directory
  have hcached' : ∃ c, (b.resolved args.source.directory).handles = .cached c :=
    (hb.resolve args.source.directory).2.1.cached_iff.1 hcached
  refine blames_unless_readOnly hwrite _ ?_
  refine blames_resolve_then hb hcached rfl fun x _ _ => ?_
  refine blames_resolve_then (hsame.wellFormed hb) hcached' rfl fun y _ _ => Yields.blames ?_
  refine yields_then _ fun sourceBefore => yields_then _ fun targetBefore => ?_
  exact yields_either
    (yields_moveEntry (unblamed_entryPath x.path args.source.name)
      (unblamed_entryPath y.path args.target.name))
    (fun _ he => yields_then _ fun sourceWcc => yields_then _ fun targetWcc =>
      Outcome.not_isStale_failed he _)
    fun _ => yields_then _ fun sourceWcc => yields_then _ fun targetWcc => Outcome.not_isStale_ok _

end Procedures

end Nfs

end NfsServer
