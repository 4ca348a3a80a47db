import NfsServer.Proofs.Interleaving.Pool
import NfsServer.Proofs.Rpc.Procedure

/-!
# How procedures deal with handles

The procedures that remove or move entries forget the handles of the places that they have vacated.
All others take nothing away, and those that give out handles look first: a lookup at the object, a
creation at what it has made, a listing at the entries.  So every procedure keeps to one of the two
disciplines (`Rpc.Procedure.isOrderly_perform`), whatever other procedures do between its steps.
-/

namespace NfsServer

/-! ## Rules -/

/-- The request takes nothing away and asks for no handle. -/
def Request.IsPlain {α : Type} (r : Request α) : Prop := r.vacated = [] ∧ r.issued? = none

theorem StoreRequest.IsQuery.vacated_eq_nil {α : Type} {r : StoreRequest α} (h : r.IsQuery) :
    r.vacated = [] := by
  cases r <;> first | rfl | exact h.elim

theorem Request.IsLook.isPlain {α : Type} {r : Request α} (h : r.IsLook) : r.IsPlain := by
  cases r with
  | store r => exact ⟨StoreRequest.IsQuery.vacated_eq_nil h, rfl⟩
  | resolve handle => exact ⟨rfl, rfl⟩
  | issue p => exact h.elim
  | forgetPath p => exact h.elim
  | announce e => exact h.elim

namespace Program

variable {α β ε : Type} {seen : Set Location}

/-- With a success, objects have been seen at the places that go with it. -/
def Shows (places : α → Set Location) (x : Except ε α) (seen : Set Location) : Prop :=
  ∀ a, x = .ok a → places a ⊆ seen

theorem shows_error (places : α → Set Location) (e : ε) (seen : Set Location) :
    Shows places (.error e) seen :=
  fun _ h => nomatch h

theorem shows_ok {places : α → Set Location} {a : α} (h : places a ⊆ seen) :
    Shows places (.ok a : Except ε α) seen := by
  intro a' ha
  obtain rfl := Except.ok.inj ha
  exact h

theorem Asks.plain {p : Program α} (hp : p.Asks Request.IsLook) : p.Asks Request.IsPlain :=
  hp.mono fun hr => hr.isPlain

theorem Asks.plain_query {p : Program α} (hp : p.Asks Request.IsQuery) :
    p.Asks Request.IsPlain :=
  hp.query Request.IsLook.isPlain

section Looks

variable {post : β → Set Location → Prop}

theorem looks_pure {b : β} (h : post b seen) : (pure b : Program β).Looks post seen := h

theorem Looks.bind {mid : α → Set Location → Prop} {p : Program α} {k : α → Program β}
    (hp : p.Looks mid seen)
    (hk : ∀ a seen', seen ⊆ seen' → mid a seen' → (k a).Looks post seen') :
    (p >>= k).Looks post seen := by
  induction p generalizing seen with
  | done a => exact hk a seen subset_rfl hp
  | ask r next ih =>
    obtain ⟨hvacated, hissued, hnext⟩ := hp
    refine ⟨hvacated, hissued, fun now b => ih _ (hnext now b) fun a seen' hseen => ?_⟩
    exact hk a seen' (Set.subset_union_left.trans hseen)

/-- A program that neither takes anything away nor asks for handles need not look. -/
theorem Asks.looks {p : Program β} (hp : p.Asks Request.IsPlain)
    (hpost : ∀ b seen', seen ⊆ seen' → post b seen') : p.Looks post seen := by
  induction p generalizing seen with
  | done b => exact hpost b seen subset_rfl
  | ask r next ih =>
    obtain ⟨⟨hvacated, hissued⟩, hnext⟩ := hp
    refine ⟨hvacated, fun p hp => ?_, fun now b => ih _ (hnext _) fun b' seen' hseen => ?_⟩
    · rw [hissued] at hp
      cases hp
    · exact hpost b' seen' (Set.subset_union_left.trans hseen)

theorem looks_then {p : Program α} (hp : p.Asks Request.IsPlain) {k : α → Program β}
    (hk : ∀ a seen', seen ⊆ seen' → (k a).Looks post seen') : (p >>= k).Looks post seen :=
  Looks.bind (hp.looks fun _ _ hseen => hseen) fun a seen' hseen _ => hk a seen' hseen

/-- A program that begins with one that can fail. -/
theorem Looks.either {places : α → Set Location} {p : Program (Except ε α)}
    (hp : p.Looks (Shows places) seen) {k : Except ε α → Program β}
    (herror : ∀ e seen', (k (.error e)).Looks post seen')
    (hok : ∀ a seen', seen ⊆ seen' → places a ⊆ seen' → (k (.ok a)).Looks post seen') :
    (p >>= k).Looks post seen := by
  refine hp.bind fun x seen' hseen hshows => ?_
  cases x with
  | error e => exact herror e seen'
  | ok a => exact hok a seen' hseen (hshows a rfl)

/-- A request whose success shows that there are objects at certain places. -/
theorem looks_store {r : StoreRequest (Except ε α)} {places : α → Set Location}
    (hvacated : r.vacated = [])
    (hplaces : ∀ now (m : Memory) a, (m.perform now r).1 = .ok a →
      places a ⊆ (m.perform now r).2.places) :
    (Program.store r).Looks (Shows places) seen := by
  refine ⟨hvacated, fun _ h => (nomatch h), fun now b a ha => ?_⟩
  exact (hplaces now b.store a ha).trans Set.subset_union_right

theorem looks_issue_then {p : Path} {k : FileHandle → Program β} (hp : p.location ∈ seen)
    (hk : ∀ h seen', seen ⊆ seen' → (k h).Looks post seen') :
    (Program.issue p >>= k).Looks post seen := by
  refine ⟨rfl, fun p' hp' => ?_, fun now b => hk _ _ Set.subset_union_left⟩
  obtain rfl := Option.some.inj hp'
  exact hp

theorem Looks.responding {p : Program α} (h : p.Looks (fun _ _ => True) seen) :
    p.responding.Looks (fun _ _ => True) seen :=
  h.bind fun _ _ _ _ => looks_pure trivial

end Looks

section CleansUp

theorem cleansUp_pure (a : α) : (pure a : Program α).CleansUp := trivial

theorem WillForget.bind {l : Location} {p : Program α} (hp : p.WillForget l)
    (k : α → Program β) : (p >>= k).WillForget l := by
  induction p with
  | done a => exact hp.elim
  | ask r next ih => exact hp.imp_right fun hnext now b => ih _ (hnext now b)

theorem CleansUp.bind {p : Program α} {k : α → Program β} (hp : p.CleansUp)
    (hk : ∀ a, (k a).CleansUp) : (p >>= k).CleansUp := by
  induction p with
  | done a => exact hk a
  | ask r next ih =>
    refine ⟨hp.1, fun now b => ⟨ih _ (hp.2 now b).1, fun hchanged l hl => ?_⟩⟩
    exact ((hp.2 now b).2 hchanged l hl).bind k

theorem Asks.cleansUp {p : Program α} (hp : p.Asks Request.IsPlain) : p.CleansUp := by
  induction p with
  | done a => trivial
  | ask r next ih =>
    obtain ⟨⟨hvacated, hissued⟩, hnext⟩ := hp
    refine ⟨hissued, fun now b => ⟨ih _ (hnext _), fun _ l hl => ?_⟩⟩
    rw [hvacated] at hl
    cases hl

theorem cleansUp_then {p : Program α} (hp : p.Asks Request.IsPlain) {k : α → Program β}
    (hk : ∀ a, (k a).CleansUp) : (p >>= k).CleansUp :=
  hp.cleansUp.bind hk

theorem CleansUp.responding {p : Program α} (h : p.CleansUp) : p.responding.CleansUp :=
  h.bind fun _ => cleansUp_pure _

/-- A request that either fails and does nothing or takes objects away, and then the forgetting of
the handles of the places that it has vacated. -/
theorem cleansUp_vacate {r : StoreRequest (Except StoreError Unit)} (hatomic : r.IsAtomic)
    {k : Except Nfs.NfsError Unit → Program α} (hk : ∀ x, (k x).CleansUp)
    (hforget : ∀ l ∈ r.vacated, (k (.ok ())).WillForget l) : (Nfs.attempt r >>= k).CleansUp := by
  refine ⟨rfl, fun now b => ⟨hk _, fun hchanged l hl => ?_⟩⟩
  change (k (Nfs.report (b.store.perform now r).1)).WillForget l
  rcases hresult : (b.store.perform now r).1 with e | _
  · exact absurd (hatomic now b.store e hresult) hchanged
  · exact hforget l hl

end CleansUp

theorem IsOrderly.responding {p : Program α} (h : p.IsOrderly seen) :
    p.responding.IsOrderly seen :=
  h.imp Looks.responding CleansUp.responding

theorem Asks.isOrderly {p : Program α} (hp : p.Asks Request.IsPlain) : p.IsOrderly seen :=
  Or.inr hp.cleansUp

end Program

/-! ## Procedures that look -/

namespace Nfs

open Program

variable {α : Type} {now : Time} {seen : Set Location}

theorem looks_attempt {r : StoreRequest (Except StoreError α)} {places : α → Set Location}
    (hvacated : r.vacated = [])
    (hplaces : ∀ now (m : Memory) a, (m.perform now r).1 = .ok a →
      places a ⊆ (m.perform now r).2.places) :
    (attempt r).Looks (Shows places) seen := by
  refine (looks_store hvacated hplaces).bind fun x seen' _ hshows => looks_pure ?_
  intro a ha
  exact hshows a (report_eq_ok ha)

/-- The attributes of an object show that it is there. -/
theorem looks_stat (p : Path) : (attempt (.stat p)).Looks (Shows fun _ => {p.location}) seen :=
  looks_attempt rfl fun _ _ _ h => Set.singleton_subset_iff.2 (Memory.idAt_of_stat h)

/-- A procedure that does nothing on a store that refuses changes. -/
theorem looks_unless_readOnly (a : α) {p : Program α}
    (hp : ∀ seen, p.Looks (fun _ _ => True) seen) :
    (isReadOnly >>= fun readOnly => if readOnly then pure a else p).Looks (fun _ _ => True)
      seen := by
  refine looks_then asks_isReadOnly.plain_query fun readOnly seen' _ => ?_
  split
  · exact looks_pure trivial
  · exact hp seen'

/-- A procedure that begins with the path of a handle. -/
theorem looks_resolve_then (h : FileHandle) {fail : NfsError → α} {k : Path → Program α}
    (hk : ∀ path seen, (k path).Looks (fun _ _ => True) seen) :
    (Program.resolve h >>= fun r => match r with
      | .error e => pure (fail e)
      | .ok path => k path).Looks (fun _ _ => True) seen := by
  refine looks_then (asks_resolve Request.IsLook.isPlain h) fun r seen' _ => ?_
  cases r with
  | error e => exact looks_pure trivial
  | ok path => exact hk path seen'

theorem looks_lookup (entry : EntryName) : (lookup entry).Looks (fun _ _ => True) seen := by
  refine looks_resolve_then entry.directory fun directory seen => ?_
  refine (looks_stat directory).either (fun _ _ => looks_pure trivial) fun dm seen _ _ => ?_
  dsimp only
  split
  · exact looks_pure trivial
  · next path _ =>
    refine (looks_stat path).either (fun _ _ => looks_pure trivial) fun m seen _ hpath => ?_
    exact looks_issue_then (hpath rfl) fun _ _ _ => looks_pure trivial

/-- What is made at a path is there. -/
theorem Makes.looks {path : Path} {r : StoreRequest (Except StoreError Metadata)}
    (h : Makes path r) : (attempt r).Looks (Shows fun _ => {path.location}) seen :=
  looks_attempt h.vacated fun now m a ha => Set.singleton_subset_iff.2 (h.idAt now m a ha)

theorem Makes.looks_then {path : Path} {r : Path → StoreRequest (Except StoreError Metadata)}
    (h : Makes path (r path)) (changes : AttributeChanges) :
    (makeThenChange r changes path).Looks (Shows fun _ => {path.location}) seen := by
  refine h.looks.either (fun e _ => looks_pure (shows_error _ e _)) fun m seen' _ hpath => ?_
  refine (asks_applyChanges ⟨rfl, rfl⟩ m).looks fun x seen'' hseen a _ => ?_
  exact hpath.trans hseen

theorem looks_makeAt (path : Except NfsError Path)
    {make : Path → Program (Except NfsError Metadata)}
    (hmake : ∀ p seen, (make p).Looks (Shows fun _ => {p.location}) seen) :
    (makeAt path make).Looks (Shows fun made => {made.1.location}) seen := by
  cases path with
  | error e => exact looks_pure (shows_error _ e _)
  | ok path =>
    exact (hmake path seen).either (fun e _ => looks_pure (shows_error _ e _))
      fun m seen' _ hpath => looks_pure (shows_ok hpath)

theorem looks_addEntry (entry : EntryName) {make : Path → Program (Except NfsError Metadata)}
    (hmake : ∀ p seen, (make p).Looks (Shows fun _ => {p.location}) seen) :
    (addEntry entry make).Looks (fun _ _ => True) seen := by
  refine looks_unless_readOnly _ fun seen => ?_
  refine looks_resolve_then entry.directory fun directory seen => ?_
  refine looks_then (asks_wccOf? directory).plain_query fun before seen _ => ?_
  refine (looks_makeAt _ hmake).bind fun made seen _ hmade => ?_
  -- The look at the directory comes between the making and the handle: time for others to remove.
  refine looks_then (asks_wccSince before directory).plain_query fun wcc seen' hseen => ?_
  cases made with
  | error e => exact looks_pure trivial
  | ok made =>
    exact looks_issue_then (hseen (hmade made rfl rfl)) fun _ _ _ => looks_pure trivial

theorem looks_create (args : CreateArgs) : (create now args).Looks (fun _ _ => True) seen :=
  looks_addEntry args.entry fun path _ =>
    Makes.looks_then (r := fun path => .create path _ _) (makes_create path _ _) _

theorem looks_makeDirectory (args : MakeDirectoryArgs) :
    (makeDirectory now args).Looks (fun _ _ => True) seen :=
  looks_addEntry args.entry fun path _ =>
    Makes.looks_then (r := fun path => .makeDirectory path _) (makes_makeDirectory path _) _

theorem looks_makeSymlink (args : SymlinkArgs) :
    (makeSymlink args).Looks (fun _ _ => True) seen :=
  looks_addEntry args.entry fun path _ => (makes_symlink path args.contents.target).looks

end Nfs

namespace Listing

open Program

variable {directory : Path} {seen : Set Location}

/-- The places of the entries of a listing. -/
def places (l : Listing) : Set Location := {k | ∃ e ∈ l.entries, e.path.location = k}

/-- The children of a directory are there when they are read. -/
theorem looks_children (directory : Path) :
    (Nfs.attempt (.readDirectory directory)).Looks
      (Shows fun children => {l | ∃ c ∈ children, directory.location ++ [.name c.name] = l})
      seen := by
  refine Nfs.looks_attempt rfl fun now m children h => ?_
  rintro _ ⟨c, hc, rfl⟩
  obtain ⟨o, ho, -⟩ := (Memory.mem_readDirectory_iff h).1 hc
  exact Memory.idAt_of_mem ho

theorem looks_parentMetadata (hdirectory : directory.location ∈ seen) (m : Metadata) :
    (parentMetadata directory m).Looks (Shows fun _ => {directory.parent.location}) seen := by
  unfold parentMetadata
  split
  · next hsame =>
    have hparent : directory.parent.location = directory.location := hsame
    refine looks_pure (shows_ok (Set.singleton_subset_iff.2 ?_))
    rwa [hparent]
  · exact Nfs.looks_stat directory.parent

/-- All entries of a listing have been seen, although not all at once. -/
theorem looks_read (hdirectory : directory.location ∈ seen) (m : Metadata) :
    (read directory m).Looks (Shows places) seen := by
  refine (looks_children directory).either (fun e _ => looks_pure (shows_error _ e _))
    fun children seen' hseen hchildren => ?_
  have hdirectory' : directory.location ∈ seen' := hseen hdirectory
  refine (looks_parentMetadata hdirectory' m).either (fun e _ => looks_pure (shows_error _ e _))
    fun parent seen'' hseen' hparent => ?_
  dsimp only
  split
  · exact looks_pure (shows_error _ _ _)
  · next entries hentries =>
    refine looks_pure (shows_ok ?_)
    rintro _ ⟨e, he, rfl⟩
    rcases List.mem_cons.1 he with rfl | he
    · exact hseen' hdirectory'
    · rcases List.mem_cons.1 he with rfl | he
      · exact hparent rfl
      · obtain ⟨hmap, hpaths⟩ := childEntries_ok hentries
        have hchild : Child.mk e.name e.metadata ∈ children :=
          List.mem_mergeSort.1 (hmap ▸ List.mem_map_of_mem he)
        exact hseen' (hchildren ⟨_, hchild, (Path.location_entry (hpaths e he)).symm⟩)

end Listing

namespace Nfs

open Program

variable {now : Time} {seen : Set Location}

theorem looks_listFrom {directory : Path} (hdirectory : directory.location ∈ seen) (m : Metadata)
    (cookie : UInt64) (verifier : FixedBytes 8) :
    (listFrom directory m cookie verifier).Looks (Shows fun listed => listed.1.places) seen := by
  refine (Listing.looks_read hdirectory m).either (fun e _ => looks_pure (shows_error _ e _))
    fun listing seen' _ hplaces => ?_
  dsimp only
  split
  · exact looks_pure (shows_error _ _ _)
  · exact looks_pure (shows_ok hplaces)

theorem looks_listDirectory {ε : Type} (directory : FileHandle) (cookie : UInt64)
    (verifier : FixedBytes 8) {cut : Listing → Nat → Program (Except NfsError (Page ε))}
    (hcut : ∀ (listing : Listing) start seen, listing.places ⊆ seen →
      (cut listing start).Looks (fun _ _ => True) seen) :
    (listDirectory directory cookie verifier cut).Looks (fun _ _ => True) seen := by
  refine looks_resolve_then directory fun path seen => ?_
  refine (looks_stat path).either (fun _ _ => looks_pure trivial) fun m seen _ hpath => ?_
  dsimp only
  split
  · exact looks_pure trivial
  · refine (looks_listFrom (hpath rfl) m cookie verifier).either (fun _ _ => looks_pure trivial)
      fun listed seen' _ hplaces => ?_
    refine (hcut listed.1 listed.2 seen' hplaces).bind fun page _ _ _ => ?_
    cases page <;> exact looks_pure trivial

/-- Handles for entries that have been seen. -/
theorem looks_attachHandles (entries : List EntryPlus) {listed : List ListedEntry}
    (hlisted : ∀ e ∈ listed, e.path.location ∈ seen) :
    (attachHandles entries listed).Looks (fun _ _ => True) seen := by
  induction entries generalizing listed seen with
  | nil => exact looks_pure trivial
  | cons entry entries ih =>
    cases listed with
    | nil => exact looks_pure trivial
    | cons first rest =>
      refine looks_issue_then (hlisted first List.mem_cons_self) fun handle seen' hseen => ?_
      refine Looks.bind (ih fun e he => ?_) fun _ _ _ _ => looks_pure trivial
      exact hseen (hlisted e (List.mem_cons_of_mem _ he))

theorem looks_readDirectoryPlus (args : ReadDirectoryPlusArgs) :
    (readDirectoryPlus args).Looks (fun _ _ => True) seen := by
  refine looks_listDirectory args.directory args.cookie args.verifier
    fun listing start seen hplaces => ?_
  dsimp only
  split
  · exact looks_pure trivial
  · next page _ =>
    refine (looks_attachHandles page.entries fun e he => ?_).bind fun _ _ _ _ => looks_pure trivial
    exact hplaces ⟨e, List.mem_of_mem_drop he, rfl⟩

end Nfs

namespace Mount

open Program

variable {seen : Set Location}

theorem looks_checkDirectory (path : Path) :
    (checkDirectory path).Looks (Shows fun root => {root.location}) seen := by
  have hstat : (Program.store (.stat path)).Looks (Shows fun _ => {path.location}) seen :=
    looks_store rfl fun _ _ _ h => Set.singleton_subset_iff.2 (Memory.idAt_of_stat h)
  refine hstat.either (fun e _ => looks_pure (shows_error _ _ _)) fun m seen' _ hpath => ?_
  dsimp only
  split
  · exact looks_pure (shows_ok hpath)
  · exact looks_pure (shows_error _ _ _)

theorem looks_mount (exportName : Text) (name : Bytes) :
    (mount exportName name).Looks (fun _ _ => True) seen := by
  unfold mount
  split
  · exact looks_pure trivial
  · split
    · exact looks_pure trivial
    · next path _ =>
      refine (looks_checkDirectory path).either (fun _ _ => looks_pure trivial)
        fun root seen' _ hroot => ?_
      refine looks_issue_then (hroot rfl) fun handle seen'' _ => ?_
      exact looks_then (asks_request ⟨rfl, rfl⟩) fun _ _ _ => looks_pure trivial

end Mount

/-! ## Procedures that clean up -/

namespace Nfs

open Program

variable {α : Type}

/-- A procedure that does nothing on a store that refuses changes. -/
theorem cleansUp_unless_readOnly (a : α) {p : Program α} (hp : p.CleansUp) :
    (isReadOnly >>= fun readOnly => if readOnly then pure a else p).CleansUp := by
  refine cleansUp_then asks_isReadOnly.plain_query fun readOnly => ?_
  split
  · exact cleansUp_pure _
  · exact hp

theorem cleansUp_resolve_then (h : FileHandle) {fail : NfsError → α} {k : Path → Program α}
    (hk : ∀ path, (k path).CleansUp) :
    (Program.resolve h >>= fun r => match r with
      | .error e => pure (fail e)
      | .ok path => k path).CleansUp := by
  refine cleansUp_then (asks_resolve Request.IsLook.isPlain h) fun r => ?_
  cases r with
  | error e => exact cleansUp_pure _
  | ok path => exact hk path

theorem cleansUp_dropAt (path : Except NfsError Path)
    {removal : Path → StoreRequest (Except StoreError Unit)}
    (hvacated : ∀ p, (removal p).vacated = [p.location])
    (hatomic : ∀ p, (removal p).IsAtomic) : (dropAt path removal).CleansUp := by
  cases path with
  | error e => exact cleansUp_pure _
  | ok path =>
    refine cleansUp_vacate (hatomic path) (fun x => ?_) fun l hl => ?_
    · cases x with
      | error e => exact cleansUp_pure _
      | ok _ => exact cleansUp_then (asks_request ⟨rfl, rfl⟩) fun _ => cleansUp_pure _
    · rw [hvacated, List.mem_singleton] at hl
      subst hl
      exact Or.inl (List.prefix_refl _)

theorem cleansUp_dropEntry (entry : EntryName) (target : Path → Bytes → Except NfsError Path)
    {removal : Path → StoreRequest (Except StoreError Unit)}
    (hvacated : ∀ p, (removal p).vacated = [p.location])
    (hatomic : ∀ p, (removal p).IsAtomic) : (dropEntry entry target removal).CleansUp := by
  refine cleansUp_unless_readOnly _ (cleansUp_resolve_then entry.directory fun directory => ?_)
  refine cleansUp_then (asks_wccOf? directory).plain_query fun before => ?_
  refine (cleansUp_dropAt _ hvacated hatomic).bind fun removed => ?_
  refine cleansUp_then (asks_wccSince before directory).plain_query fun wcc => ?_
  cases removed <;> exact cleansUp_pure _

theorem cleansUp_remove (entry : EntryName) : (remove entry).CleansUp :=
  cleansUp_dropEntry entry entryPath (fun _ => rfl) StoreRequest.isAtomic_removeFile

theorem cleansUp_removeDirectory (entry : EntryName) : (removeDirectory entry).CleansUp :=
  cleansUp_dropEntry entry removalPath (fun _ => rfl) StoreRequest.isAtomic_removeDirectory

theorem cleansUp_moveEntry (source target : Except NfsError Path) :
    (moveEntry source target).CleansUp := by
  cases source with
  | error e => exact cleansUp_pure _
  | ok source =>
    cases target with
    | error e => exact cleansUp_pure _
    | ok target =>
      have hplain : ∀ p, (Program.forgetPath p).Asks Request.IsPlain := fun _ =>
        asks_request ⟨rfl, rfl⟩
      refine cleansUp_vacate (StoreRequest.isAtomic_rename source target) (fun x => ?_)
        fun l hl => ?_
      · cases x with
        | error e => exact cleansUp_pure _
        | ok _ =>
          exact cleansUp_then (hplain source) fun _ =>
            cleansUp_then (hplain target) fun _ => cleansUp_pure _
      · rcases List.mem_pair.1 hl with rfl | rfl
        · exact Or.inl (List.prefix_refl _)
        · exact Or.inr fun _ _ => Or.inl (List.prefix_refl _)

theorem cleansUp_rename (args : RenameArgs) : (rename args).CleansUp := by
  refine cleansUp_unless_readOnly _ ?_
  refine cleansUp_resolve_then args.source.directory fun source => ?_
  refine cleansUp_resolve_then args.target.directory fun target => ?_
  refine cleansUp_then (asks_wccOf? source).plain_query fun sourceBefore => ?_
  refine cleansUp_then (asks_wccOf? target).plain_query fun targetBefore => ?_
  refine (cleansUp_moveEntry _ _).bind fun moved => ?_
  refine cleansUp_then (asks_wccSince sourceBefore source).plain_query fun sourceWcc => ?_
  refine cleansUp_then (asks_wccSince targetBefore target).plain_query fun targetWcc => ?_
  cases moved <;> exact cleansUp_pure _

end Nfs

/-! ## All procedures -/

namespace Nfs

open Program

theorem Procedure.isOrderly_perform (now : Time) (verifier : FixedBytes 8) (p : Procedure)
    (args : p.Args) (seen : Set Location) : (p.perform now verifier args).IsOrderly seen := by
  have hlook : ∀ {α : Type} {p : Program α}, p.Asks Request.IsLook →
      p.responding.IsOrderly seen :=
    fun hp => hp.plain.isOrderly.responding
  cases p with
  | null => exact (asks_pure _).isOrderly
  | getAttributes => exact hlook (asks_getAttributes args)
  | setAttributes =>
    have hasks : (Nfs.setAttributes now args).Asks Request.IsPlain :=
      asks_setAttributes Request.IsLook.isPlain fun _ => ⟨rfl, rfl⟩
    exact hasks.isOrderly.responding
  | lookup => exact Or.inl (looks_lookup args).responding
  | access => exact hlook (asks_access args)
  | readLink => exact hlook (asks_readLink args)
  | read => exact hlook (asks_read args)
  | write =>
    exact (asks_write Request.IsLook.isPlain verifier fun _ => ⟨rfl, rfl⟩).isOrderly
  | create => exact Or.inl (looks_create args).responding
  | makeDirectory => exact Or.inl (looks_makeDirectory args).responding
  | makeSymlink => exact Or.inl (looks_makeSymlink args).responding
  | makeNode => exact hlook (asks_makeNode args)
  | remove => exact Or.inr (cleansUp_remove args).responding
  | removeDirectory => exact Or.inr (cleansUp_removeDirectory args).responding
  | rename => exact Or.inr (cleansUp_rename args).responding
  | makeLink => exact hlook (asks_makeLink args)
  | readDirectory => exact hlook (asks_readDirectory args)
  | readDirectoryPlus => exact Or.inl (looks_readDirectoryPlus args).responding
  | fileSystemSpace => exact hlook (asks_fileSystemSpace args)
  | fileSystemLimits => exact hlook (asks_fileSystemLimits args)
  | namingLimits => exact hlook (asks_namingLimits args)
  | commit => exact hlook (asks_commit verifier args)

end Nfs

namespace Mount

open Program

theorem Procedure.isOrderly_perform (exportName : Text) (p : Procedure) (args : p.Args)
    (seen : Set Location) : (p.perform exportName args).IsOrderly seen := by
  cases p with
  | null | listMounts | listExports => exact (asks_pure _).isOrderly
  | mount => exact Or.inl (looks_mount exportName args)
  | unmount | unmountAll => exact Asks.isOrderly (asks_request ⟨rfl, rfl⟩)

end Mount

namespace Rpc

/-- Every procedure keeps to one of the two disciplines. -/
theorem Procedure.isOrderly_perform (now : Time) (verifier : FixedBytes 8) (exportName : Text)
    (p : Procedure) (args : p.Args) (seen : Set Location) :
    (p.perform now verifier exportName args).IsOrderly seen := by
  cases p with
  | nfs p => exact p.isOrderly_perform now verifier args seen
  | mount p => exact (p.isOrderly_perform exportName args seen).responding

end Rpc

end NfsServer
