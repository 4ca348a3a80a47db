import NfsServer.Proofs.Rpc.Attributes
import NfsServer.Proofs.Rpc.Entries
import NfsServer.Proofs.Rpc.Lookup

/-!
# Handles and attributes in replies

A call that finds or makes an object answers with a handle and with attributes, which it has got one
after the other from the cache of handles and from the store.  They go together: the handle leads to
the object with these attributes, and so does the name in the directory (`Backend.Finds`).  A client
that asks on is therefore told the same again (`Server.reply_describes_object`).
-/

namespace NfsServer

theorem Metadata.attributesAt_eq {p p' : Path} (h : p.location = p'.location) (m : Metadata) :
    m.attributesAt p = m.attributesAt p' := by
  rw [attributesAt, attributesAt, h]

namespace Backend

variable {b b' : Backend Memory} {directory : Path} {name : Bytes} {h : FileHandle}
  {a : Nfs.FileAttributes}

/-- The name leads from the directory to an object with these attributes, and the handle stands for
the object. -/
def Finds (b : Backend Memory) (directory : Path) (name : Bytes) (h : FileHandle)
    (a : Nfs.FileAttributes) : Prop :=
  ∃ d path p o, b.store.find? directory.location = some d ∧
    Nfs.lookupPath directory d.metadata name = .ok path ∧ b.StandsFor h p o ∧
    p.location = path.location ∧ a = o.metadata.attributesAt p

/-- What a name leads to is found by the handle that is issued for it. -/
theorem finds_issue (hb : b.handles.WellFormed) {d o : Object} {path : Path}
    (hcached : ∃ c, (b.handles.issue path).2 = .cached c)
    (hd : b.store.find? directory.location = some d)
    (hpath : Nfs.lookupPath directory d.metadata name = .ok path)
    (ho : b.store.find? path.location = some o) :
    ({ b with handles := (b.handles.issue path).2 } : Backend Memory).Finds directory name
      (b.handles.issue path).1 (o.metadata.attributesAt path) := by
  have hcached' := (hb.issue path).2.1.cached_iff.2 hcached
  obtain ⟨x, hx, hhandle, hplace⟩ := hb.exists_binding_issue hcached' path
  refine ⟨d, path, x.path, o, hd, hpath, ⟨?_, ?_⟩, hplace, Metadata.attributesAt_eq hplace.symm _⟩
  · exact hhandle ▸ (hb.issue path).1.resolve_eq hx
  · rwa [hplace]

theorem Finds.isLive (hfinds : b.Finds directory name h a) (hcached : ∃ c, b.handles = .cached c) :
    b.handles.IsLive h := by
  obtain ⟨d, path, p, o, -, -, hobject, -⟩ := hfinds
  exact ⟨⟨h, p⟩, HandleTable.mem_bindings_of_resolve hcached hobject.resolve, rfl⟩

/-- As long as nothing changes, the same is found. -/
theorem Finds.same (hfinds : b.Finds directory name h a) (hb : b.handles.WellFormed)
    (hcached : ∃ c, b.handles = .cached c) (hsame : b.Same b') :
    b'.Finds directory name h a := by
  obtain ⟨d, path, p, o, hd, hpath, hobject, hplace, ha⟩ := hfinds
  have hbound := HandleTable.mem_bindings_of_resolve hcached hobject.resolve
  refine ⟨d, path, p, o, hsame.store ▸ hd, hpath, ⟨?_, hsame.store ▸ hobject.find?⟩, hplace, ha⟩
  exact (hsame.wellFormed hb).resolve_eq ((hsame.mem_bindings _).2 hbound)

/-- As long as the handles are those of a cache: the handle and the attributes are there, and they
belong to what is found by the name where the handle of the directory leads. -/
def Gives (b b' : Backend Memory) (entry : Nfs.EntryName)
    (object : Option FileHandle × Option Nfs.FileAttributes) : Prop :=
  (∃ c, b'.handles = .cached c) → ∃ directory h a,
    (b.handles.resolve entry.directory).1 = .ok directory ∧ object = (some h, some a) ∧
      b'.Finds directory entry.name h a

end Backend

namespace Nfs

open Program

variable {now : Time} {b : Backend Memory} {directory path : Path} {name : Bytes} {h : FileHandle}
  {a : FileAttributes}

/-- A lookup tells what is found. -/
theorem run_lookup_of_finds (hb : b.handles.WellFormed) (hcached : ∃ c, b.handles = .cached c)
    {entry : EntryName} (hdirectory : (b.handles.resolve entry.directory).1 = .ok directory)
    (hfinds : b.Finds directory entry.name h a) :
    ∃ da, ((lookup entry).run now b).1 = .ok ⟨h, some a, da⟩ := by
  obtain ⟨d, path, p, o, hd, hpath, hobject, hplace, rfl⟩ := hfinds
  have hat : b.store.IsDirectoryAt directory d.metadata := by
    refine ⟨Memory.stat_eq_ok_iff.2 ⟨d, hd, rfl⟩, ?_⟩
    by_contra hfile
    rw [lookupPath, if_pos (by simpa using hfile)] at hpath
    cases hpath
  have hstat : b.store.stat path.location = .ok o.metadata :=
    Memory.stat_eq_ok_iff.2 ⟨o, hplace ▸ hobject.find?, rfl⟩
  have hmem := HandleTable.mem_bindings_of_resolve hcached hobject.resolve
  obtain ⟨hwell, -, hbindings⟩ := hb.resolve entry.directory
  have hissue : ((b.handles.resolve entry.directory).2.issue path).1 = h :=
    hwell.issue_eq ((hbindings _).2 hmem) hplace
  have hrun : ((lookup entry).run now b).1 = _ :=
    run_lookup_of_mirrors (Memory.mirrors_self b.store) hdirectory hat entry.name
  rw [hpath] at hrun
  dsimp only at hrun
  rw [hstat, hissue] at hrun
  refine ⟨some (d.metadata.attributesAt directory), hrun.trans ?_⟩
  rw [Metadata.attributesAt_eq hplace]
  rfl

theorem ends_lookup_finds (hb : b.handles.WellFormed) (entry : EntryName) :
    (lookup entry).Ends now b fun r b' => ∀ result, r = .ok result →
      b.Gives b' entry (some result.object, result.attributes) := by
  apply ends_resolve_then hb
  intro r b' hresolve hsame
  cases r with
  | error e => exact ends_pure fun _ h => nomatch h
  | ok directory =>
    refine ends_query_then (asks_attempt (by trivial)) fun dm hdm => ?_
    cases dm with
    | error e => exact ends_pure fun _ h => nomatch h
    | ok dm =>
      obtain ⟨d, hd, rfl⟩ := Memory.stat_eq_ok_iff.1 (report_eq_ok hdm.symm)
      dsimp only
      split
      · exact ends_pure fun _ h => nomatch h
      · next path hpath =>
        refine ends_query_then (asks_attempt (by trivial)) fun m hm => ?_
        cases m with
        | error e => exact ends_pure fun _ h => nomatch h
        | ok m =>
          obtain ⟨o, ho, rfl⟩ := Memory.stat_eq_ok_iff.1 (report_eq_ok hm.symm)
          rintro _ ⟨⟩ hcached
          exact ⟨directory, _, _, hresolve.symm, rfl,
            Backend.finds_issue (hsame.wellFormed hb) hcached hd hpath ho⟩

/-! ## Objects that are made -/

/-- What a request answers are the attributes of the object at the path. -/
def Shows (path : Path) (r : StoreRequest (Except StoreError Metadata)) : Prop :=
  ∀ now m a, (Memory.perform now r m).1 = .ok a →
    (Memory.perform now r m).2.stat path.location = .ok a

theorem shows_create (path : Path) (mode : UInt32) (exclusive : Bool) :
    Shows path (.create path mode exclusive) := by
  intro now m a ha
  obtain ⟨m', hcreate, hm'⟩ := Memory.answer_eq_ok ha
  rw [show (Memory.perform now (.create path mode exclusive) m).2 = m' from hm']
  exact Memory.stat_of_create hcreate

theorem shows_makeDirectory (path : Path) (mode : UInt32) :
    Shows path (.makeDirectory path mode) := by
  intro now m a ha
  obtain ⟨rfl, hgains⟩ := makesNew_makeDirectory now m path mode a ha
  exact hgains.stat

theorem shows_symlink (path : Path) (target : Bytes) : Shows path (.symlink path target) := by
  intro now m a ha
  obtain ⟨rfl, hgains⟩ := makesNew_symlink now m path target a ha
  exact hgains.stat

theorem ends_attempt_shown {r : StoreRequest (Except StoreError Metadata)} (hr : Shows path r) :
    (attempt r).Ends now b fun a b' => ∀ m, a = .ok m → b'.store.stat path.location = .ok m := by
  unfold Ends
  rw [run_attempt]
  exact fun m hm => hr now b.store m (report_eq_ok hm)

theorem ends_makeThenChange_shown {r : Path → StoreRequest (Except StoreError Metadata)}
    (hr : Shows path (r path)) (changes : AttributeChanges) :
    (makeThenChange r changes path).Ends now b fun a b' => ∀ m, a = .ok m →
      b'.store.stat path.location = .ok m := by
  refine (ends_attempt_shown hr).bind fun a b' hshown => ?_
  cases a with
  | error e => exact ends_pure fun m hm => nomatch hm
  | ok m =>
    obtain ⟨o, ho, rfl⟩ := Memory.stat_eq_ok_iff.1 (hshown m rfl)
    refine (ends_applyChanges ho changes).mono fun a b'' happlied m hm => ?_
    obtain ⟨o', happlied, rfl⟩ := happlied m hm
    exact Memory.stat_eq_ok_iff.2 ⟨o', (happlied.replaced ho).here, rfl⟩

/-- The object that has been made is found. -/
theorem ends_addEntry_finds (hb : b.handles.WellFormed) (htree : b.store.IsTree)
    (entry : EntryName)
    {make : Path → Program (Except NfsError Metadata)}
    (hmake : ∀ path (b' : Backend Memory), (make path).Ends now b' fun a b'' =>
      ∀ m, a = .ok m → b''.store.stat path.location = .ok m) :
    (addEntry entry make).Ends now b fun r b' => ∀ result, r = .ok result →
      b.Gives b' entry (result.object, result.attributes) := by
  refine (ends_addEntry hb entry make).mono fun r b' hadded result hr hcached => ?_
  cases hadded with
  | refused | failed => cases hr
  | @made m _ path b₁ b₂ hsame hentry hrun =>
    obtain rfl := Outcome.ok.inj hr
    obtain ⟨directory, hdirectory, hpath⟩ := hentry.named
    have hends := hmake path b₁
    have hhandles := (make path).handles_run now b₁ (hsame.wellFormed hb)
    have htree' := store_run Memory.kept_isTree (make path) now b₁ (hsame.store ▸ htree)
    unfold Ends at hends
    rw [hrun] at hends hhandles htree'
    obtain ⟨o, ho, rfl⟩ := Memory.stat_eq_ok_iff.1 (hends m rfl)
    obtain ⟨d, hd, hkind⟩ := htree'.exists_holder ho (parent?_of_entryPath hpath)
    have hat : b₂.store.IsDirectoryAt directory d.metadata :=
      ⟨Memory.stat_eq_ok_iff.2 ⟨d, hd, rfl⟩, hkind⟩
    obtain ⟨hname, rfl⟩ := entryPath_eq_ok_iff.1 hpath
    refine ⟨directory, _, _, hdirectory, rfl, ?_⟩
    exact Backend.finds_issue hhandles.1 hcached hd (Listing.lookupPath_of_isAccepted hat hname) ho

namespace Procedure

/-- The entry by whose object a call goes or which it makes. -/
def entry? : (p : Procedure) → p.Args → Option EntryName
  | lookup, entry => some entry
  | create, args => some args.entry
  | makeDirectory, args => some args.entry
  | makeSymlink, args => some args.entry
  | null, _ | getAttributes, _ | setAttributes, _ | access, _ | readLink, _ | read, _ | write, _
  | makeNode, _ | remove, _ | removeDirectory, _ | rename, _ | makeLink, _ | readDirectory, _
  | readDirectoryPlus, _ | fileSystemSpace, _ | fileSystemLimits, _ | namingLimits, _
  | commit, _ => none

/-- What results tell of the object of that entry. -/
def object : (p : Procedure) → p.Result → Option FileHandle × Option FileAttributes
  | lookup, r => r.either (fun r => (some r.object, r.attributes)) fun _ => (none, none)
  | create, r => r.either (fun r => (r.object, r.attributes)) fun _ => (none, none)
  | makeDirectory, r => r.either (fun r => (r.object, r.attributes)) fun _ => (none, none)
  | makeSymlink, r => r.either (fun r => (r.object, r.attributes)) fun _ => (none, none)
  | null, _ | getAttributes, _ | setAttributes, _ | access, _ | readLink, _ | read, _ | write, _
  | makeNode, _ | remove, _ | removeDirectory, _ | rename, _ | makeLink, _ | readDirectory, _
  | readDirectoryPlus, _ | fileSystemSpace, _ | fileSystemLimits, _ | namingLimits, _
  | commit, _ => (none, none)

/-- What a procedure gives is in its results. -/
theorem ends_responding_gives {α φ : Type} {q : Program (Outcome α φ)} {entry : EntryName}
    {object : α → Option FileHandle × Option FileAttributes}
    (hq : q.Ends now b fun r b' => ∀ a, r = .ok a → b.Gives b' entry (object a)) :
    q.responding.Ends now b fun response b' => ∀ r, response = .results r → r.status = .ok →
      b.Gives b' entry (r.either object fun _ => (none, none)) := by
  refine ends_responding_ok (hq.mono fun r b' h a hr => ?_)
  subst hr
  exact h a rfl

/-- A procedure that finds or makes an object gives its handle and its attributes. -/
theorem ends_perform_gives (hb : b.handles.WellFormed) (htree : b.store.IsTree)
    (verifier : FixedBytes 8) {p : Procedure} {args : p.Args} {entry : EntryName}
    (hentry : p.entry? args = some entry) :
    (p.perform now verifier args).Ends now b fun response b' => ∀ r, response = .results r →
      p.status? r = some .ok → b.Gives b' entry (p.object r) := by
  cases p <;> cases hentry
  case lookup =>
    exact (ends_responding_gives (ends_lookup_finds hb entry)).mono
      fun _ _ h r hr hok => h r hr (Option.some.inj hok)
  case create =>
    refine (ends_responding_gives (ends_addEntry_finds hb htree _ fun path b' => ?_)).mono
      fun _ _ h r hr hok => h r hr (Option.some.inj hok)
    exact ends_makeThenChange_shown (r := fun path => .create path _ _) (shows_create path _ _) _
  case makeDirectory =>
    refine (ends_responding_gives (ends_addEntry_finds hb htree _ fun path b' => ?_)).mono
      fun _ _ h r hr hok => h r hr (Option.some.inj hok)
    exact ends_makeThenChange_shown (r := fun path => .makeDirectory path _)
      (shows_makeDirectory path _) _
  case makeSymlink =>
    refine (ends_responding_gives (ends_addEntry_finds hb htree _ fun path b' => ?_)).mono
      fun _ _ h r hr hok => h r hr (Option.some.inj hok)
    exact ends_attempt_shown (shows_symlink path _)

end Procedure

end Nfs

namespace Server

open Rpc

variable {s : Server Memory} {h : FileHandle}

/-- Messages that ask for attributes leave everything as it was. -/
theorem same_after_getAttributes (hs : s.backend.handles.WellFormed) {asked : List Incoming}
    (hasked : ∀ g ∈ asked, ∃ xid,
      Call.read? s.config.policy g.input = some ⟨xid, .nfs .getAttributes, h⟩) :
    s.backend.Same (s.after asked).backend := by
  induction asked generalizing s with
  | nil => exact .refl _
  | cons g asked ih =>
    obtain ⟨hfirst, hrest⟩ := List.forall_mem_cons.1 hasked
    obtain ⟨xid, hcall⟩ := hfirst
    have hsame : s.backend.Same (s.take g).2.backend := by
      rcases take_of_call hcall with ⟨-, hbackend⟩ | ⟨-, hbackend⟩
      · rw [hbackend]
        exact .refl _
      · rw [hbackend]
        have hends : (Nfs.getAttributes h).responding.Ends g.clock.performed s.backend
            fun _ b' => s.backend.Same b' :=
          Program.Ends.responding ((Nfs.asks_getAttributes h).ends_same hs)
        exact hends
    rw [← config_take s g] at hrest
    exact hsame.trans (ih (hsame.wellFormed hs) hrest)

/-- Whatever messages a server has taken: when a call that looks an object up or makes one succeeds,
the handle and the attributes that the client gets are there, the handle is live, and it stays so
while only attributes are asked for.  A call for the attributes of the handle then gets just these,
and as long as the handle of the directory is live as well, a look for the same name in it gets this
handle and these attributes. -/
theorem reply_describes_object (config : ServerConfig) (limit : Nat) (ids : HandleSource)
    (store : Memory) (hstore : store.Built) (before : List Incoming) (m : Incoming) :
    let s := (start config ⟨store, .cached (.empty limit ids), []⟩).after before
    ∀ xid p args entry r, s.Answers m ⟨xid, .nfs p, args⟩ (.results r) →
      p.entry? args = some entry → p.status? r = some .ok →
      (s.take m).1 = .reply (replyTo xid (.nfs p) (.results r)) ∧
        ∃ h a, p.object r = (some h, some a) ∧ ∀ asked : List Incoming,
          (∀ g ∈ asked, ∃ xid',
            Call.read? config.policy g.input = some ⟨xid', .nfs .getAttributes, h⟩) →
          let s' := (s.take m).2.after asked
          s'.backend.handles.IsLive h ∧
            (∀ g xid', s'.performed? g = some ⟨xid', .nfs .getAttributes, h⟩ →
              (s'.take g).1 = attributesReply xid' (.ok a)) ∧
            (s'.backend.handles.IsLive entry.directory → ∀ g xid',
              s'.performed? g = some ⟨xid', .nfs .lookup, entry⟩ →
              ∃ directory, (s'.take g).1 =
                .reply (replyTo xid' (.nfs .lookup) (.results (.ok ⟨h, some a, directory⟩)))) := by
  intro s xid p args entry r hanswers hentry hok
  have hstart := sound_start config store limit ids
  obtain ⟨hsound, -⟩ := sound_after hstart before
  have htree : s.backend.store.IsTree := isTree_after hstore.isTree before
  obtain ⟨hsound', -, -⟩ := sound_take hsound m
  have hcached : ∃ c, s.backend.handles = .cached c := exists_cached_after hstart ⟨_, rfl⟩ before
  have hcached' : ∃ c, (s.take m).2.backend.handles = .cached c :=
    exists_cached_after hsound hcached [m]
  obtain ⟨directory, h, a, hdirectory, hobject, hfinds⟩ := ends_take hanswers
    (Nfs.Procedure.ends_perform_gives hsound.handles htree s.config.writeVerifier hentry)
    r rfl hok hcached'
  refine ⟨hanswers.take_eq, h, a, hobject, fun asked hasked => ?_⟩
  have hconfig : (s.take m).2.config.policy = config.policy := by
    rw [config_take, config_after]
    rfl
  rw [← hconfig] at hasked
  have hsame := same_after_getAttributes hsound'.handles hasked
  intro s'
  have hcached'' : ∃ c, s'.backend.handles = .cached c :=
    exists_cached_after hsound' hcached' asked
  have hfinds' : s'.backend.Finds directory entry.name h a :=
    hfinds.same hsound'.handles hcached' hsame
  refine ⟨hfinds'.isLive hcached'', ?_, ?_⟩
  · intro g xid' hcall
    obtain ⟨d, path, p, o, -, -, hstands, -, rfl⟩ := hfinds'
    exact take_getAttributes_of_standsFor hcall hstands
  · intro hlive g xid' hcall
    have hwell := hsame.wellFormed hsound'.handles
    obtain ⟨x, hx, hhandle⟩ := hlive
    have hdirectory' := hwell.resolve_eq hx
    rw [hhandle] at hdirectory'
    -- The handle of the directory stands for what it stood for before the first call.
    have hlater := (sound_after hsound (m :: asked)).2.handles
    obtain rfl := hlater.eq_of_resolve_eq_ok hsound.handles hdirectory hdirectory'
    obtain ⟨da, hrun⟩ := Nfs.run_lookup_of_finds hwell hcached'' hdirectory' hfinds'
    exact ⟨da, (take_of_run_responding rfl hcall (Prod.ext hrun rfl)).1⟩

/-- A file of two bytes is made, looked at and looked up. -/
theorem reply_describes_object_file :
    let config : ServerConfig := ⟨.known, ['/'], Bytes.zeros 8⟩
    let root := HandleSource.uuids.draw 0
    let file := HandleSource.uuids.draw 1
    let mount := Call.sentAt ⟨5⟩ ⟨7, .mount .mount, [0x2F]⟩
    let entry : Nfs.EntryName := ⟨root, [0x66]⟩
    let args : Nfs.CreateArgs :=
      ⟨entry, .guarded { Nfs.AttributeRequest.empty with size := some 2 }⟩
    let make := Call.sentAt ⟨6⟩ ⟨8, .nfs .create, args⟩
    let ask := Call.sentAt ⟨7⟩ ⟨9, .nfs .getAttributes, file⟩
    let look := Call.sentAt ⟨8⟩ ⟨10, .nfs .lookup, entry⟩
    let a : Nfs.FileAttributes :=
      ⟨.regular, 0o644, 1, 0, 0, 2, 2, ⟨0, 0⟩, 0, 2, ⟨0, 6⟩, ⟨0, 6⟩, ⟨0, 6⟩⟩
    let d : Nfs.FileAttributes :=
      ⟨.directory, 0o755, 2, 0, 0, 0, 0, ⟨0, 0⟩, 0, 1, ⟨0, 0⟩, ⟨0, 6⟩, ⟨0, 6⟩⟩
    let result : Nfs.CreateResult := ⟨some file, some a, ⟨some ⟨0, ⟨0, 0⟩, ⟨0, 0⟩⟩, some d⟩⟩
    let s :=
      (start config ⟨Memory.empty ⟨0⟩ false 10, .cached (.empty 4 .uuids), []⟩).after [mount]
    let s' := (s.take make).2
    let s'' := s'.after [ask]
    (s.Answers make ⟨8, .nfs .create, args⟩ (.results (.ok result)) ∧
        Call.read? config.policy ask.input = some ⟨9, .nfs .getAttributes, file⟩ ∧
        s'.performed? ask = some ⟨9, .nfs .getAttributes, file⟩ ∧
        s''.performed? look = some ⟨10, .nfs .lookup, entry⟩ ∧
        s''.backend.handles.IsLive root) ∧
      s'.backend.handles.IsLive file ∧ (s'.take ask).1 = attributesReply 9 (.ok a) ∧
      ∃ directory, (s''.take look).1 =
        .reply (replyTo 10 (.nfs .lookup) (.results (.ok ⟨file, some a, directory⟩))) := by
  intro config root file mount entry args make ask look a d result s s' s''
  have hmake : s.Answers make ⟨8, .nfs .create, args⟩ (.results (.ok result)) :=
    ⟨performed?_sentAt (by decide +kernel) (by decide +kernel) (by decide +kernel),
      by decide +kernel⟩
  have hasks : Call.read? config.policy ask.input = some ⟨9, .nfs .getAttributes, file⟩ :=
    Call.read?_sentAt rfl (by decide)
  have hask : s'.performed? ask = some ⟨9, .nfs .getAttributes, file⟩ :=
    performed?_sentAt (by decide +kernel) (by decide +kernel) (by decide +kernel)
  have hlook : s''.performed? look = some ⟨10, .nfs .lookup, entry⟩ :=
    performed?_sentAt (by decide +kernel) (by decide +kernel) (by decide +kernel)
  have hlive : s''.backend.handles.IsLive root := by decide +kernel
  have hs : (start config ⟨Memory.empty ⟨0⟩ false 10, .cached (.empty 4 .uuids), []⟩).after
      [mount] = s := rfl
  have hs' : (s.take make).2 = s' := rfl
  have hs'' : s'.after [ask] = s'' := rfl
  have hdescribes := reply_describes_object config 4 .uuids (.empty ⟨0⟩ false 10) (.empty _ _ _)
    [mount] make
  rw [hs] at hdescribes
  dsimp only at hdescribes
  rw [hs'] at hdescribes
  -- What the servers are is of no matter any more.
  clear_value s'' s' s
  obtain ⟨-, h, a', hobject, hall⟩ := hdescribes 8 .create args entry _ hmake rfl rfl
  obtain ⟨rfl, rfl⟩ : file = h ∧ a = a' := by
    obtain ⟨hh, ha⟩ := Prod.ext_iff.1 hobject
    exact ⟨Option.some.inj hh, Option.some.inj ha⟩
  obtain ⟨hfile, hattributes, -⟩ := hall [] (by simp)
  obtain ⟨-, -, hlookup⟩ := hall [ask] (by simp [hasks])
  rw [hs''] at hlookup
  exact ⟨⟨hmake, hasks, hask, hlook, hlive⟩, hfile, hattributes ask 9 hask,
    hlookup hlive look 10 hlook⟩

end Server

end NfsServer
