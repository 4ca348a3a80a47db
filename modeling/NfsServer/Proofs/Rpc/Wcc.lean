import NfsServer.Proofs.Nfs.Wcc
import NfsServer.Proofs.Rpc.Staleness

/-!
# What replies tell of changes

In the reply to a call that changes the store, every pair of attributes is that of the object or the
directory just before the call and just behind it, whether the call succeeds or fails
(`Server.wcc_tells_truth`).
-/

namespace NfsServer

namespace Nfs

open Program

variable {now : Time} {b : Backend Memory}

/-- If the handles are live, what is told of each of their objects is what it was and what it is. -/
def TellsAll (b b' : Backend Memory) (hs : List FileHandle) (wccs : List WccData) : Prop :=
  (∀ h ∈ hs, ∃ path o, b.StandsFor h path o) → List.Forall₂ (b.Tells b') hs wccs

theorem tellsAll_singleton {b' : Backend Memory} {h : FileHandle} {wcc : WccData}
    (htells : ∀ path o, b.StandsFor h path o → b.Tells b' h wcc) :
    TellsAll b b' [h] [wcc] := by
  intro hlive
  obtain ⟨path, o, hobject⟩ := hlive h (List.mem_singleton.2 rfl)
  exact .cons (htells path o hobject) .nil

theorem ends_responding_tells {α : Type} {p : Program α} {hs : List FileHandle}
    {wccs : α → List WccData} (hp : p.Ends now b fun r b' => TellsAll b b' hs (wccs r)) :
    p.responding.Ends now b fun response b' => ∀ r, response = .results r →
      TellsAll b b' hs (wccs r) :=
  Ends.responding (hp.mono fun _ _ htells _ hr => Response.results.inj hr ▸ htells)

/-- A procedure whose results tell of one object. -/
theorem ends_responding_tells_one {α : Type} {p : Program α} {h : FileHandle} {wcc : α → WccData}
    (hp : ∀ path o, b.StandsFor h path o → p.Ends now b fun r b' => b.Tells b' h (wcc r)) :
    p.responding.Ends now b fun response b' => ∀ r, response = .results r →
      TellsAll b b' [h] [wcc r] :=
  ends_responding_tells (tellsAll_singleton hp)

namespace Procedure

/-- What results tell of objects before and after the call, in the order of the handles that the
call goes by. -/
def wcc? : (p : Procedure) → p.Result → Option (List WccData)
  | setAttributes, r => some [r.either id id]
  | write, r => some [r.either WriteResult.file id]
  | create, r => some [r.either CreateResult.directory id]
  | makeDirectory, r => some [r.either CreateResult.directory id]
  | makeSymlink, r => some [r.either CreateResult.directory id]
  | remove, r => some [r.either id id]
  | removeDirectory, r => some [r.either id id]
  | rename, r => some [r.either RenameDirectories.source RenameDirectories.source,
      r.either RenameDirectories.target RenameDirectories.target]
  | null, _ | getAttributes, _ | lookup, _ | access, _ | readLink, _ | read, _ | makeNode, _
  | makeLink, _ | readDirectory, _ | readDirectoryPlus, _ | fileSystemSpace, _
  | fileSystemLimits, _ | namingLimits, _ | commit, _ => none

/-- What a procedure tells of the objects of live handles is what they were and are. -/
theorem ends_perform_tells (hb : b.handles.WellFormed) (htree : b.store.IsTree)
    (hwrite : b.store.isReadOnly = false) (verifier : FixedBytes 8) (p : Procedure)
    (args : p.Args) :
    (p.perform now verifier args).Ends now b fun response b' => ∀ r wccs, response = .results r →
      p.wcc? r = some wccs → ∃ hs, p.handles? args = some hs ∧ TellsAll b b' hs wccs := by
  -- Making an object and changing it take nothing away from any place.
  have hleaves : ∀ {l : Location} {α : Type} {r : StoreRequest α}, r.vacated = [] →
      Request.LeavesAt l (.store r) := fun hr => leavesAt_of_vacated_eq_nil hr _
  cases p
  case setAttributes =>
    rintro r _ hr ⟨⟩
    exact ⟨_, rfl, ends_responding_tells_one (fun _ _ => ends_setAttributes_tells hwrite) r hr⟩
  case write =>
    rintro r _ hr ⟨⟩
    have hcount : args.data.length = args.count.toNat := by
      by_contra hne
      change ((Nfs.write verifier args).run now b).1 = _ at hr
      rw [Nfs.write, if_pos hne] at hr
      cases hr
    refine ⟨[args.file], if_pos hcount, tellsAll_singleton fun _ _ hobject => ?_⟩
    exact ends_write_tells hwrite verifier hobject r hr
  case create =>
    rintro r _ hr ⟨⟩
    refine ⟨_, rfl, ends_responding_tells_one (fun _ _ hobject => ?_) r hr⟩
    exact ends_addEntry_tells hwrite hobject fun path =>
      asks_makeThenChange (r := fun path => .create path _ _) (hleaves rfl) (hleaves rfl)
  case makeDirectory =>
    rintro r _ hr ⟨⟩
    refine ⟨_, rfl, ends_responding_tells_one (fun _ _ hobject => ?_) r hr⟩
    exact ends_addEntry_tells hwrite hobject fun path =>
      asks_makeThenChange (r := fun path => .makeDirectory path _) (hleaves rfl) (hleaves rfl)
  case makeSymlink =>
    rintro r _ hr ⟨⟩
    refine ⟨_, rfl, ends_responding_tells_one (fun _ _ hobject => ?_) r hr⟩
    exact ends_addEntry_tells hwrite hobject fun path => asks_attempt (hleaves rfl)
  case remove =>
    rintro r _ hr ⟨⟩
    refine ⟨_, rfl, ends_responding_tells_one (fun _ _ hobject => ?_) r hr⟩
    exact ends_dropEntry_tells hwrite hobject (fun _ => id) fun _ => rfl
  case removeDirectory =>
    rintro r _ hr ⟨⟩
    refine ⟨_, rfl, ends_responding_tells_one (fun _ _ hobject => ?_) r hr⟩
    exact ends_dropEntry_tells hwrite hobject (fun _ => entryPath_of_removalPath) fun _ => rfl
  case rename =>
    rintro r _ hr ⟨⟩
    have htells : (Nfs.rename args).Ends now b fun r b' =>
        TellsAll b b' [args.source.directory, args.target.directory]
          [r.either RenameDirectories.source RenameDirectories.source,
            r.either RenameDirectories.target RenameDirectories.target] := by
      intro hlive
      obtain ⟨p, o, hsource⟩ := hlive args.source.directory (by simp)
      obtain ⟨p', o', htarget⟩ := hlive args.target.directory (by simp)
      obtain ⟨hfirst, hsecond⟩ := ends_rename_tells hb htree hwrite hsource htarget
      exact .cons hfirst (.cons hsecond .nil)
    exact ⟨_, rfl, ends_responding_tells htells r hr⟩
  all_goals rintro _ _ _ ⟨⟩

end Procedure

end Nfs

namespace Server

open Rpc

/-- Whatever messages a server has taken whose store takes changes: in the reply to a call that
changes the store, be it one of a success or of a failure, there is a pair of attributes for each of
the handles that the call goes by, and if these are live, each pair holds the attributes that the
object had just before the call and those that it has just behind it. -/
theorem wcc_tells_truth (config : ServerConfig) (limit : Nat) (ids : HandleSource) (store : Memory)
    (hstore : store.Built) (hwrite : store.isReadOnly = false) (before : List Incoming)
    (m : Incoming) :
    let s := (start config ⟨store, .cached (.empty limit ids), []⟩).after before
    let s' := (s.take m).2
    ∀ xid (p : Nfs.Procedure) args r wccs,
      s.Answers m ⟨xid, .nfs p, args⟩ (.results r) → p.wcc? r = some wccs →
      (s.take m).1 = .reply (replyTo xid (.nfs p) (.results r)) ∧
        ∃ hs, p.handles? args = some hs ∧
          ((∀ h ∈ hs, s.backend.handles.IsLive h) →
            List.Forall₂ (s.backend.Tells s'.backend) hs wccs) := by
  intro s s' xid p args r wccs hanswers hwccs
  have hstart := sound_start config store limit ids
  obtain ⟨hsound, -⟩ := sound_after hstart before
  have hcached : ∃ c, s.backend.handles = .cached c := exists_cached_after hstart ⟨_, rfl⟩ before
  have htree : s.backend.store.IsTree := isTree_after hstore.isTree before
  have hstorable : s.backend.store.isReadOnly = false :=
    store_after (Memory.kept_isReadOnly false) hwrite before
  refine ⟨hanswers.take_eq, ?_⟩
  obtain ⟨hs, hhs, htells⟩ := Nfs.Procedure.ends_perform_tells hsound.handles htree hstorable
    s.config.writeVerifier p args r wccs hanswers.2 hwccs
  refine ⟨hs, hhs, fun hlive => ?_⟩
  have hbackend : s'.backend = _ := backend_take s m
  rw [hanswers.1] at hbackend
  rw [hbackend]
  refine htells fun h hh => ?_
  obtain ⟨x, hx, rfl⟩ := hlive h hh
  obtain ⟨o, hobject⟩ := hsound.exists_standsFor hcached (hsound.handles.resolve_eq hx)
  exact ⟨x.path, o, hobject⟩

/-- A file moves from the root to a directory in it, and then that directory cannot be removed. -/
theorem wcc_tells_truth_rename :
    let config : ServerConfig := ⟨.known, ['/'], Bytes.zeros 8⟩
    let root := FileHandle.serial 1
    let directory := FileHandle.serial 2
    let before := [Call.sentAt ⟨5⟩ ⟨7, .mount .mount, [0x2F]⟩,
      Call.sentAt ⟨5⟩ ⟨8, .nfs .makeDirectory, ⟨⟨root, [0x64]⟩, .empty⟩⟩,
      Call.sentAt ⟨5⟩ ⟨9, .nfs .create, ⟨⟨root, [0x66]⟩, .unchecked .empty⟩⟩]
    let args : Nfs.RenameArgs := ⟨⟨root, [0x66]⟩, ⟨directory, [0x67]⟩⟩
    let move := Call.sentAt ⟨6⟩ ⟨10, .nfs .rename, args⟩
    let entry : Nfs.EntryName := ⟨root, [0x64]⟩
    let remove := Call.sentAt ⟨7⟩ ⟨11, .nfs .removeDirectory, entry⟩
    let shown (fileId : UInt64) (made old new : UInt32) : Nfs.WccData :=
      ⟨some ⟨0, ⟨0, old⟩, ⟨0, old⟩⟩, some ⟨.directory, 0o755, 2, 0, 0, 0, 0, ⟨0, 0⟩, 0, fileId,
        ⟨0, made⟩, ⟨0, new⟩, ⟨0, new⟩⟩⟩
    let s := (start config ⟨.empty ⟨0⟩ false 10, .cached (.empty 4), []⟩).after before
    let s' := (s.take move).2
    (s.Answers move ⟨10, .nfs .rename, args⟩ (.results (.ok ⟨shown 1 0 5 6, shown 2 5 5 6⟩)) ∧
        s'.Answers remove ⟨11, .nfs .removeDirectory, entry⟩
          (.results (.failed .notEmpty (shown 1 0 6 6))) ∧
        (∀ h ∈ [root, directory], s.backend.handles.IsLive h) ∧
        ∀ h ∈ [root], s'.backend.handles.IsLive h) ∧
      List.Forall₂ (s.backend.Tells s'.backend) [root, directory]
        [shown 1 0 5 6, shown 2 5 5 6] ∧
      List.Forall₂ (s'.backend.Tells (s'.take remove).2.backend) [root] [shown 1 0 6 6] := by
  intro config root directory before args move entry remove shown s s'
  have hmove : s.Answers move ⟨10, .nfs .rename, args⟩
      (.results (.ok ⟨shown 1 0 5 6, shown 2 5 5 6⟩)) :=
    ⟨performed?_sentAt (by decide +kernel) (by decide +kernel) (by decide +kernel),
      by decide +kernel⟩
  have hremove : s'.Answers remove ⟨11, .nfs .removeDirectory, entry⟩
      (.results (.failed .notEmpty (shown 1 0 6 6))) :=
    ⟨performed?_sentAt (by decide +kernel) (by decide +kernel) (by decide +kernel),
      by decide +kernel⟩
  have hlive : ∀ h ∈ [root, directory], s.backend.handles.IsLive h := by decide +kernel
  have hlive' : ∀ h ∈ [root], s'.backend.handles.IsLive h := by decide +kernel
  have hs : (start config ⟨.empty ⟨0⟩ false 10, .cached (.empty 4), []⟩).after before = s := rfl
  have hs' : s.after [move] = s' := rfl
  have htells := wcc_tells_truth config 4 .serials (.empty ⟨0⟩ false 10) (.empty _ _ _) rfl before
    move
  have htells' := wcc_tells_truth config 4 .serials (.empty ⟨0⟩ false 10) (.empty _ _ _) rfl
    (before ++ [move]) remove
  rw [after_append, hs, hs'] at htells'
  rw [hs] at htells
  obtain ⟨-, _, hhs, hboth⟩ := htells 10 .rename args _ _ hmove rfl
  obtain ⟨-, _, hhs', hone⟩ := htells' 11 .removeDirectory entry _ _ hremove rfl
  obtain rfl := Option.some.inj hhs
  obtain rfl := Option.some.inj hhs'
  exact ⟨⟨hmove, hremove, hlive, hlive'⟩, hboth hlive, hone hlive'⟩

end Server

end NfsServer
