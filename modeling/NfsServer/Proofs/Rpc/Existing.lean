import NfsServer.Proofs.Nfs.Creation
import NfsServer.Proofs.Rpc.Attributes
import NfsServer.Proofs.Rpc.Entries
import NfsServer.Proofs.Rpc.Limits

/-!
# Files that are made where an object is

A call that makes a file may come to an object that is already there.  It then fails, or it does to
the file what a change of its attributes would do, and in no case is anything lost
(`Server.create_keeps_existing`).
-/

namespace NfsServer

namespace Memory

variable {m m' : Memory} {now : Time} {l : Location} {o : Object} {changes : AttributeChanges}

theorem create_of_find? (hparent : m.checkParent l = .ok ()) (ho : m.find? l = some o)
    (mode : UInt32) (exclusive : Bool) :
    m.create now l mode exclusive =
      if exclusive then .error .alreadyExists
      else match o.kind with
        | .file => .ok (o.metadata, m)
        | .directory => .error .isADirectory
        | .symlink => .error .alreadyExists := by
  unfold create
  rw [hparent, ho]
  rfl

/-- Changes that are not refused are taken. -/
theorem exists_setAttributes_of_not_refused (now : Time) (ho : m.find? l = some o)
    (hsize : ∀ n, changes.size = some n → ¬m.RefusesSize o.contents n) :
    ∃ o', TakesChanges now changes o o' ∧
      m.setAttributes now l changes = .ok (o'.metadata, m.modify l fun _ => o') := by
  cases hset : m.setAttributes now l changes with
  | error e =>
    obtain ⟨n, hn, hrefused⟩ := (setAttributes_eq_error_iff now ho changes).1 ⟨e, hset⟩
    exact absurd hrefused (hsize n hn)
  | ok result =>
    obtain ⟨a, m'⟩ := result
    obtain ⟨o₁, o', ho₁, htakes, rfl, rfl⟩ := takesChanges_of_setAttributes hset
    obtain rfl := Option.some.inj (ho.symm.trans ho₁)
    exact ⟨o', htakes, rfl⟩

end Memory

namespace Nfs

open Program

variable {now : Time} {b b' : Backend Memory} {p path : Path} {d o : Object}

/-- Nothing is asked for that the store keeps; owners are not kept. -/
def AttributeRequest.AsksNothing (r : AttributeRequest) : Prop :=
  r.mode = none ∧ r.size = none ∧ r.accessed = .keep ∧ r.modified = .keep

theorem AttributeRequest.isEmpty_toChanges_iff {r : AttributeRequest} :
    (r.toChanges now).isEmpty = true ↔ r.AsksNothing := by
  have hkeep : ∀ c : TimeChoice, c.resolve now = none ↔ c = .keep := by
    intro c
    cases c <;> simp [TimeChoice.resolve]
  simp [AttributeChanges.isEmpty, AsksNothing, toChanges, hkeep]

/-! ## What the making of a file does -/

theorem run_attempt_create (hparent : b.store.checkParent path.location = .ok ())
    (ho : b.store.find? path.location = some o) (mode : UInt32) (exclusive : Bool) :
    (attempt (.create path mode exclusive)).run now b =
      (if exclusive then .error .exists
      else match o.kind with
        | .file => .ok o.metadata
        | .directory => .error .isDirectory
        | .symlink => .error .exists, b) := by
  rw [run_attempt, show Memory.perform now (.create path mode exclusive) b.store =
    b.store.answer (b.store.create now path.location mode exclusive) from rfl,
    Memory.create_of_find? hparent ho]
  cases exclusive
  · cases o.kind <;> rfl
  · rfl

/-- A new entry in a directory, whatever becomes of that. -/
theorem run_addEntry {entry : EntryName} (hwrite : b.store.isReadOnly = false)
    (hobject : b.StandsFor entry.directory p d) (hname : IsAccepted entry.name)
    {make : Path → Program (Except NfsError Metadata)} {made : Except NfsError Metadata}
    (hmake : (make (p.child entry.name)).run now (b.resolved entry.directory) = (made, b'))
    {d' : Object} (hd' : b'.store.find? p.location = some d') :
    let wcc : WccData := ⟨some d.metadata.toWcc, some (d'.metadata.attributesAt p)⟩
    (addEntry entry make).run now b = match made with
      | .error e => (.failed e wcc, b')
      | .ok m =>
        (.ok ⟨some (b'.handles.issue (p.child entry.name)).1,
          some (m.attributesAt (p.child entry.name)), wcc⟩,
          { b' with handles := (b'.handles.issue (p.child entry.name)).2 }) := by
  have hbefore : (b.resolved entry.directory).store.find? p.location = some d := hobject.find?
  have hmakeAt : (makeAt (.ok (p.child entry.name)) make).run now (b.resolved entry.directory) =
      (made.map (p.child entry.name, ·), b') := by
    rw [makeAt, run_bind, hmake]
    cases made <;> rfl
  rw [addEntry, run_bind, run_isReadOnly, hwrite]
  dsimp only
  rw [if_neg Bool.false_ne_true, run_resolve_then hobject.resolve]
  dsimp only
  rw [← Backend.resolved, run_bind, run_wccOf? hbefore]
  dsimp only
  rw [entryPath_eq_ok_iff.2 ⟨hname, rfl⟩, run_bind, hmakeAt]
  dsimp only
  rw [run_bind, run_wccSince hd']
  cases made <;> rfl

/-- The part of the making of a file that is done at its path. -/
def makeFile (now : Time) (how : CreateHow) : Path → Program (Except NfsError Metadata) :=
  makeThenChange
    (fun path => .create path (how.requested.mode.getD defaultFileMode) how.isExclusive)
    (how.requested.toChanges now)

section Existing

variable (hparent : b.store.checkParent path.location = .ok ())
  (ho : b.store.find? path.location = some o)

include hparent ho

theorem run_makeFile (how : CreateHow) :
    (makeFile now how path).run now b =
      if how.isExclusive then (.error .exists, b)
      else match o.kind with
        | .file => (applyChanges path o.metadata (how.requested.toChanges now)).run now b
        | .directory => (.error .isDirectory, b)
        | .symlink => (.error .exists, b) := by
  rw [makeFile, makeThenChange, run_bind, run_attempt_create hparent ho]
  cases how.isExclusive
  · cases o.kind <;> rfl
  · rfl

theorem run_makeFile_of_not_unchecked {how : CreateHow} (hhow : ∀ r, how ≠ .unchecked r) :
    (makeFile now how path).run now b = (.error .exists, b) := by
  rw [run_makeFile hparent ho]
  cases how with
  | unchecked r => exact absurd rfl (hhow r)
  | guarded r => rfl
  | exclusive verifier => rfl

theorem run_makeFile_unchecked (r : AttributeRequest) :
    (makeFile now (.unchecked r) path).run now b = match o.kind with
      | .file => (applyChanges path o.metadata (r.toChanges now)).run now b
      | .directory => (.error .isDirectory, b)
      | .symlink => (.error .exists, b) :=
  run_makeFile hparent ho (.unchecked r)

end Existing

theorem run_applyChanges (m : Metadata) {changes : AttributeChanges} (h : changes.isEmpty = false) :
    (applyChanges path m changes).run now b =
      match b.store.setAttributes now path.location changes with
      | .error e => (.error e.toNfs, b)
      | .ok (a, store) => (.ok a, { b with store }) := by
  rw [applyChanges, if_neg (by simp [h]), run_attempt,
    show Memory.perform now (.setAttributes path changes) b.store =
      b.store.answer (b.store.setAttributes now path.location changes) from rfl]
  cases b.store.setAttributes now path.location changes <;> rfl

section Changes

variable {changes : AttributeChanges} (ho : b.store.find? path.location = some o)

include ho

/-- A size that is refused changes nothing. -/
theorem run_applyChanges_of_refused {n : Nat} (hn : changes.size = some n)
    (hrefused : b.store.RefusesSize o.contents n) (m : Metadata) :
    ∃ e, (applyChanges path m changes).run now b = (.error e, b) := by
  have hsome : changes.isEmpty = false := by
    by_contra h
    rw [Memory.Applied.size_of_isEmpty (Bool.eq_true_of_not_eq_false h)] at hn
    cases hn
  obtain ⟨e, hset⟩ := (Memory.setAttributes_eq_error_iff now ho changes).2 ⟨n, hn, hrefused⟩
  rw [run_applyChanges m hsome, hset]
  exact ⟨_, rfl⟩

/-- What is not refused is done as a change of attributes does it. -/
theorem run_applyChanges_of_not_refused
    (hsize : ∀ n, changes.size = some n → ¬b.store.RefusesSize o.contents n) :
    ∃ o' store, (applyChanges path o.metadata changes).run now b =
        (.ok o'.metadata, { b with store }) ∧
      Memory.Applied now changes b.store path.location o o' store ∧
      (changes.isEmpty = false →
        b.store.setAttributes now path.location changes = .ok (o'.metadata, store)) := by
  cases hempty : changes.isEmpty with
  | true =>
    refine ⟨o, b.store, ?_, .nothing hempty, nofun⟩
    rw [applyChanges, if_pos hempty]
    rfl
  | false =>
    obtain ⟨o', htakes, hset⟩ := Memory.exists_setAttributes_of_not_refused now ho hsize
    refine ⟨o', _, ?_, .taken hempty htakes, fun _ => hset⟩
    rw [run_applyChanges o.metadata hempty, hset]

end Changes

end Nfs

namespace Server

open Rpc

variable {s : Server Memory} {m : Incoming} {xid : UInt32}

/-- What a change of attributes without a guard leaves when the store does not refuse it. -/
theorem store_take_setAttributes {args : Nfs.SetAttributesArgs} {path : Path} {o : Object}
    {a : Metadata} {store : Memory} (hwrite : s.backend.store.isReadOnly = false)
    (hcall : s.performed? m = some ⟨xid, .nfs .setAttributes, args⟩)
    (hobject : s.backend.StandsFor args.object path o) (hguard : args.guard = none)
    (hset : s.backend.store.setAttributes m.clock.performed path.location
      (args.requested.toChanges m.clock.performed) = .ok (a, store)) :
    (s.take m).2.backend.store = store := by
  have hholds : Nfs.guardHolds (some o.metadata.toWcc) args.guard = true := by
    rw [hguard]
    rfl
  have hrun := Nfs.run_setAttributes m.clock.performed hobject hwrite
  rw [if_pos hholds, hset] at hrun
  rw [(take_of_run_responding rfl hcall hrun).2]
  rfl

section Create

variable {args : Nfs.CreateArgs} {directory : Path} {d : Object}
  (hwrite : s.backend.store.isReadOnly = false)
  (hcall : s.performed? m = some ⟨xid, .nfs .create, args⟩)
  (hobject : s.backend.StandsFor args.entry.directory directory d)
  (hname : Nfs.IsAccepted args.entry.name)

include hwrite hcall hobject hname

theorem take_create_of_error (hhandles : s.backend.handles.WellFormed) {e : Nfs.NfsError}
    (hmake : (Nfs.makeFile m.clock.performed args.how (directory.child args.entry.name)).run
      m.clock.performed (s.backend.resolved args.entry.directory) =
        (.error e, s.backend.resolved args.entry.directory)) :
    (s.take m).1 = .reply (replyTo xid (.nfs .create)
        (.results (.failed e (Nfs.unchangedWcc d directory)))) ∧
      s.backend.Same (s.take m).2.backend := by
  have hrun := Nfs.run_addEntry hwrite hobject hname hmake hobject.find?
  obtain ⟨hreply, hbackend⟩ := take_of_run_responding rfl hcall hrun
  rw [hbackend]
  exact ⟨hreply, Backend.same_resolved hhandles args.entry.directory⟩

theorem take_create_of_ok {a : Metadata} {store : Memory}
    (hmake : (Nfs.makeFile m.clock.performed args.how (directory.child args.entry.name)).run
      m.clock.performed (s.backend.resolved args.entry.directory) =
        (.ok a, s.backend.resolvedWith args.entry.directory store))
    (hd : store.find? directory.location = some d) :
    let path := directory.child args.entry.name
    (s.take m).1 = .reply (replyTo xid (.nfs .create) (.results
        (.ok ⟨some ((s.backend.handles.resolve args.entry.directory).2.issue path).1,
          some (a.attributesAt path), Nfs.unchangedWcc d directory⟩))) ∧
      (s.take m).2.backend.store = store := by
  have hrun := Nfs.run_addEntry hwrite hobject hname hmake hd
  obtain ⟨hreply, hbackend⟩ := take_of_run_responding rfl hcall hrun
  rw [hbackend]
  exact ⟨hreply, rfl⟩

/-- A file that is there gets the changes that are asked for, as far as they are not refused. -/
theorem take_create_of_file {o : Object}
    (hparent : s.backend.store.checkParent (directory.child args.entry.name).location = .ok ())
    (ho : s.backend.store.find? (directory.child args.entry.name).location = some o)
    (hkind : o.kind = .file) {requested : Nfs.AttributeRequest}
    (hhow : args.how = .unchecked requested)
    (hsize : ∀ n, (requested.toChanges m.clock.performed).size = some n →
      ¬s.backend.store.RefusesSize o.contents n) :
    let path := directory.child args.entry.name
    let changes := requested.toChanges m.clock.performed
    ∃ o', (s.take m).1 = .reply (replyTo xid (.nfs .create) (.results
        (.ok ⟨some ((s.backend.handles.resolve args.entry.directory).2.issue path).1,
          some (o'.metadata.attributesAt path), Nfs.unchangedWcc d directory⟩))) ∧
      Memory.Applied m.clock.performed changes s.backend.store path.location o o'
        (s.take m).2.backend.store ∧
      (changes.isEmpty = false →
        s.backend.store.setAttributes m.clock.performed path.location changes =
          .ok (o'.metadata, (s.take m).2.backend.store)) := by
  intro path changes
  let b := s.backend.resolved args.entry.directory
  have hfound : b.store.find? path.location = some o := ho
  have hparent' : b.store.checkParent path.location = .ok () := hparent
  have hmake : (Nfs.makeFile m.clock.performed args.how path).run m.clock.performed b = _ :=
    hhow ▸ Nfs.run_makeFile_unchecked hparent' hfound requested
  rw [hkind] at hmake
  obtain ⟨o', store, hrun, happlied, hset⟩ := Nfs.run_applyChanges_of_not_refused hfound hsize
  -- The directory is not the file, and so it is as it was.
  have hne : directory.location ≠ path.location := by
    rw [show path.location = _ from directory.location_child hname.isEntryName]
    simp
  obtain ⟨hreply, hstore⟩ := take_create_of_ok hwrite hcall hobject hname (hmake.trans hrun)
    (((happlied.replaced hfound).elsewhere _ hne).trans hobject.find?)
  rw [hstore]
  exact ⟨o', hreply, happlied, hset⟩

end Create

/-- Whatever messages a server has taken whose store takes changes and holds only objects that
clients may name, let a call make a file by the name of an object that is there.  If the call is to
fail on a name that is taken, it does, and nothing changes.  Otherwise it fails without a change on
a directory, on a symbolic link, and on a file that cannot have the size that is asked for.  On any
other file it succeeds and changes no other object.  The file keeps its number and its live handle;
it is as it was, if nothing is asked for that the store keeps, and else as it would be after an
unguarded change of its attributes at that time. -/
theorem create_keeps_existing (config : ServerConfig) (handles : HandleTable)
    (hhandles : handles.WellFormed) (store : Memory) (hstore : store.IsNamed)
    (hwrite : store.isReadOnly = false) (before : List Incoming) (m : Incoming) :
    let s := (start config ⟨store, handles, []⟩).after before
    let s' := (s.take m).2
    let now := m.clock.performed
    ∀ xid args directory d o, s.performed? m = some ⟨xid, .nfs .create, args⟩ →
      s.backend.StandsFor args.entry.directory directory d →
      let place := directory.location ++ [.name args.entry.name]
      s.backend.store.find? place = some o →
      let Replies (r : Nfs.Outcome Nfs.CreateResult Nfs.WccData) : Prop :=
        (s.take m).1 = .reply (replyTo xid (.nfs .create) (.results r))
      let Fails (e : Nfs.NfsError) : Prop :=
        Replies (.failed e (Nfs.unchangedWcc d directory)) ∧ s.backend.Same s'.backend
      ((∀ requested, args.how ≠ .unchecked requested) → Fails .exists) ∧
      ∀ requested, args.how = .unchecked requested →
        let IsRefused (size : UInt64) : Prop :=
          s.backend.store.RefusesSize o.contents size.toNat
        (o.kind = .directory → Fails .isDirectory) ∧ (o.kind = .symlink → Fails .exists) ∧
        (o.kind = .file → (∃ size, requested.size = some size ∧ IsRefused size) → ∃ e, Fails e) ∧
        (o.kind = .file → (∀ size, requested.size = some size → ¬IsRefused size) →
          ∃ h o',
            Replies (.ok ⟨some h,
              some (o'.metadata.attributesAt (directory.child args.entry.name)),
              Nfs.unchangedWcc d directory⟩) ∧
            (∀ x ∈ s.backend.handles.bindings, x.path.location = place → h = x.handle) ∧
            o'.fileId = o.fileId ∧ s.backend.store.Replaced place o' s'.backend.store ∧
            (requested.AsksNothing → s'.backend.store = s.backend.store) ∧
            (¬requested.AsksNothing → ∀ (t : Server Memory) g xid' h' path',
              t.backend.store = s.backend.store → g.clock.performed = now →
              t.performed? g = some ⟨xid', .nfs .setAttributes, ⟨h', requested, none⟩⟩ →
              t.backend.StandsFor h' path' o → path'.location = place →
              (t.take g).2.backend.store = s'.backend.store)) := by
  intro s s' now xid args directory d o hcall hobject place ho Replies Fails
  have hwell : s.backend.handles.WellFormed := (handles_after hhandles before).1
  have hstorable : s.backend.store.isReadOnly = false :=
    store_after (Memory.kept_isReadOnly false) hwrite before
  have hnamed : s.backend.store.IsNamed := keeps_after Memory.keeps_isNamed hstore before
  have hname : Nfs.IsAccepted args.entry.name :=
    hnamed.names _ (Memory.mem_of_find? ho) _ (by simp [place])
  let path := directory.child args.entry.name
  have hplace : path.location = place := directory.location_child hname.isEntryName
  let b := s.backend.resolved args.entry.directory
  have hfound : b.store.find? path.location = some o := by rwa [hplace]
  have habove : place.parent? = some directory.location :=
    Location.parent?_append_singleton _ Component.noConfusion
  have hparent : b.store.checkParent path.location = .ok () := by
    obtain ⟨d', hd', hdirectory⟩ := hnamed.isTree.exists_holder ho habove
    rw [hplace]
    exact Memory.checkParent_eq_ok_iff.2 ⟨_, d', habove, hd', hdirectory⟩
  have hfails : ∀ e, (Nfs.makeFile now args.how path).run now b = (.error e, b) → Fails e :=
    fun e hmake => take_create_of_error hstorable hcall hobject hname hwell hmake
  constructor
  · intro hhow
    exact hfails _ (Nfs.run_makeFile_of_not_unchecked hparent hfound hhow)
  intro requested hhow IsRefused
  have hchanges : ∀ {size : UInt64}, requested.size = some size →
      (requested.toChanges now).size = some size.toNat := fun hsize => by
    rw [Nfs.AttributeRequest.toChanges, hsize]
    rfl
  have hmake : (Nfs.makeFile now args.how path).run now b = _ :=
    hhow ▸ Nfs.run_makeFile_unchecked hparent hfound requested
  refine ⟨fun hkind => ?_, fun hkind => ?_, fun hkind hrefused => ?_, fun hkind hadmitted => ?_⟩
  · rw [hkind] at hmake
    exact hfails _ hmake
  · rw [hkind] at hmake
    exact hfails _ hmake
  · obtain ⟨size, hsize, hrefused⟩ := hrefused
    obtain ⟨e, he⟩ := Nfs.run_applyChanges_of_refused hfound (hchanges hsize) hrefused o.metadata
    rw [hkind] at hmake
    exact ⟨e, hfails e (hmake.trans he)⟩
  · have hadmitted' : ∀ n, (requested.toChanges now).size = some n →
        ¬b.store.RefusesSize o.contents n := by
      intro n hn
      obtain ⟨size, hsize, rfl⟩ := Option.map_eq_some_iff.1 hn
      exact hadmitted size hsize
    obtain ⟨o', hreply, happlied, hset⟩ := take_create_of_file hstorable hcall hobject hname
      hparent hfound hkind hhow hadmitted'
    refine ⟨_, o', hreply, fun x hx hxplace => ?_, happlied.fileId_eq, ?_, fun hnothing => ?_,
      fun hsome t g xid' h' path' hstore' hclock hg hobject' hplace' => ?_⟩
    · obtain ⟨hwell', -, hbindings⟩ := hwell.resolve args.entry.directory
      exact hwell'.issue_eq ((hbindings x).2 hx) (hxplace.trans hplace.symm)
    · rw [← hplace]
      exact happlied.replaced hfound
    · exact happlied.eq_of_isEmpty (Nfs.AttributeRequest.isEmpty_toChanges_iff.2 hnothing)
    · have hset' : t.backend.store.setAttributes g.clock.performed path'.location
          (requested.toChanges g.clock.performed) = .ok (o'.metadata, s'.backend.store) := by
        rw [hstore', hclock, hplace', ← hplace]
        refine hset (Bool.eq_false_iff.2 fun hempty => hsome ?_)
        exact Nfs.AttributeRequest.isEmpty_toChanges_iff.1 hempty
      exact store_take_setAttributes (hstore' ▸ hstorable) hg hobject' rfl hset'

/-- A file of three bytes is there already: it cannot be made again, and it is cut to one byte
whether it is made or its attributes are changed. -/
theorem create_keeps_existing_file :
    let config : ServerConfig := ⟨.known, ['/'], Bytes.zeros 8⟩
    let root := FileHandle.serial 1
    let file := FileHandle.serial 2
    let entry : Nfs.EntryName := ⟨root, [0x66]⟩
    let requested (size : UInt64) : Nfs.AttributeRequest :=
      { Nfs.AttributeRequest.empty with size := some size }
    let again : Nfs.CreateArgs := ⟨entry, .guarded (requested 1)⟩
    let cut : Nfs.CreateArgs := ⟨entry, .unchecked (requested 1)⟩
    let set : Nfs.SetAttributesArgs := ⟨file, requested 1, none⟩
    let before := [Call.sentAt ⟨5⟩ ⟨7, .mount .mount, [0x2F]⟩,
      Call.sentAt ⟨6⟩ ⟨8, .nfs .create, ⟨entry, .unchecked (requested 3)⟩⟩]
    let makeAgain := Call.sentAt ⟨7⟩ ⟨9, .nfs .create, again⟩
    let makeCut := Call.sentAt ⟨8⟩ ⟨10, .nfs .create, cut⟩
    let setCut := Call.sentAt ⟨8⟩ ⟨11, .nfs .setAttributes, set⟩
    let d : Object := ⟨.directory, .directory, 0o755, 0, ⟨0⟩, ⟨6⟩, ⟨6⟩, 1⟩
    let o : Object := ⟨.file [0, 0, 0], .file, 0o644, 3, ⟨6⟩, ⟨6⟩, ⟨6⟩, 2⟩
    let place : Location := [.root, .name [0x66]]
    let s := (start config ⟨Memory.empty ⟨0⟩ false 10, .cached (.empty 4), []⟩).after before
    let s' := (s.take makeCut).2
    (s.performed? makeAgain = some ⟨9, .nfs .create, again⟩ ∧
        s.performed? makeCut = some ⟨10, .nfs .create, cut⟩ ∧
        s.performed? setCut = some ⟨11, .nfs .setAttributes, set⟩ ∧
        s.backend.StandsFor root ⟨[0x2F]⟩ d ∧ s.backend.StandsFor file ⟨[0x2F, 0x66]⟩ o ∧
        ¬s.backend.store.RefusesSize o.contents 1) ∧
      ((s.take makeAgain).1 = .reply (replyTo 9 (.nfs .create) (.results
          (.failed .exists (Nfs.unchangedWcc d ⟨[0x2F]⟩)))) ∧
        s.backend.Same (s.take makeAgain).2.backend) ∧
      ∃ o', (s.take makeCut).1 = .reply (replyTo 10 (.nfs .create) (.results
          (.ok ⟨some file, some (o'.metadata.attributesAt ⟨[0x2F, 0x66]⟩),
            Nfs.unchangedWcc d ⟨[0x2F]⟩⟩))) ∧
        o'.fileId = 2 ∧ s.backend.store.Replaced place o' s'.backend.store ∧
        (s.take setCut).2.backend.store = s'.backend.store := by
  intro config root file entry requested again cut set before makeAgain makeCut setCut d o
    place s s'
  have hagain : s.performed? makeAgain = some ⟨9, .nfs .create, again⟩ :=
    performed?_sentAt (by decide +kernel) (by decide +kernel) (by decide +kernel)
  have hcut : s.performed? makeCut = some ⟨10, .nfs .create, cut⟩ :=
    performed?_sentAt (by decide +kernel) (by decide +kernel) (by decide +kernel)
  have hset : s.performed? setCut = some ⟨11, .nfs .setAttributes, set⟩ :=
    performed?_sentAt (by decide +kernel) (by decide +kernel) (by decide +kernel)
  have hroot : s.backend.StandsFor root ⟨[0x2F]⟩ d := ⟨by decide +kernel, by decide +kernel⟩
  have hfile : s.backend.StandsFor file ⟨[0x2F, 0x66]⟩ o := ⟨by decide +kernel, by decide +kernel⟩
  have hbound : ⟨file, ⟨[0x2F, 0x66]⟩⟩ ∈ s.backend.handles.bindings := by decide +kernel
  have hmax : s.backend.store.maxFileSize = 10 := by decide +kernel
  have hadmitted : ¬s.backend.store.RefusesSize o.contents 1 := by
    rintro (hlarge | ⟨hgrows, -⟩)
    · omega
    · exact absurd hgrows (by decide)
  have hlocation : (⟨[0x2F, 0x66]⟩ : Path).location = place := by decide
  have hplace : (⟨[0x2F]⟩ : Path).location ++ [.name [0x66]] = place := by decide
  have hpath : (⟨[0x2F]⟩ : Path).child [0x66] = ⟨[0x2F, 0x66]⟩ := by decide
  have hs : (start config ⟨Memory.empty ⟨0⟩ false 10, .cached (.empty 4), []⟩).after before = s :=
    rfl
  have hs' : (s.take makeCut).2 = s' := rfl
  have hall := create_keeps_existing config (.cached (.empty 4)) (HandleCache.wellFormed_empty 4 _)
    (.empty ⟨0⟩ false 10) (Memory.isNamed_empty _ _ _) rfl before
  have htaken := hall makeAgain
  have hunchecked := hall makeCut
  rw [hs] at htaken hunchecked
  dsimp only at htaken hunchecked
  rw [hs'] at hunchecked
  -- What the servers are is of no matter any more.
  clear_value s' s
  have hfound := hlocation ▸ hfile.find?
  obtain ⟨hfails, -⟩ := htaken 9 again ⟨[0x2F]⟩ d o hagain hroot (hplace ▸ hfound)
  obtain ⟨-, hhow⟩ := hunchecked 10 cut ⟨[0x2F]⟩ d o hcut hroot (hplace ▸ hfound)
  obtain ⟨-, -, -, hkept⟩ := hhow (requested 1) rfl
  obtain ⟨h, o', hreply, hhandle, hid, hreplaced, -, hsame⟩ := hkept rfl fun size hsize => by
    obtain rfl := Option.some.inj hsize
    exact hadmitted
  obtain rfl := hhandle _ hbound (hlocation.trans hplace.symm)
  rw [hplace] at hreplaced
  rw [hpath] at hreply
  have hsomething : ¬(requested 1).AsksNothing := fun hnothing => nomatch hnothing.2.1
  exact ⟨⟨hagain, hcut, hset, hroot, hfile, hadmitted⟩, hfails (fun _ h => nomatch h), o', hreply,
    hid, hreplaced, hsame hsomething s setCut 11 file _ rfl rfl hset hfile
      (hlocation.trans hplace.symm)⟩

end Server

end NfsServer
