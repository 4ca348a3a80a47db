import NfsServer.Proofs.Handle.Stability
import NfsServer.Proofs.Nfs.Staleness
import NfsServer.Proofs.Rpc.Traces

/-!
# Stale handles

In a reply to a call that goes by handles, the status of a stale handle says no more and no less
than that one of them is not live when the call is taken (`Server.stale_iff_not_live`).
-/

namespace NfsServer

namespace Nfs

open Program

variable {now : Time} {b : Backend Memory}

namespace Procedure

/-- The handles that the arguments of a call hold, if the answer tells whether they are stale.  It
does not where nothing is done: in a call without arguments, for objects that cannot be made, and
when data has another length than the call says. -/
def handles? : (p : Procedure) → p.Args → Option (List FileHandle)
  | null, _ => none
  | getAttributes, object => some [object]
  | setAttributes, args => some [args.object]
  | lookup, entry => some [entry.directory]
  | access, args => some [args.object]
  | readLink, object => some [object]
  | read, args => some [args.file]
  | write, args => if args.data.length = args.count.toNat then some [args.file] else none
  | create, args => some [args.entry.directory]
  | makeDirectory, args => some [args.entry.directory]
  | makeSymlink, args => some [args.entry.directory]
  | makeNode, _ => none
  | remove, entry => some [entry.directory]
  | removeDirectory, entry => some [entry.directory]
  | rename, args => some [args.source.directory, args.target.directory]
  | makeLink, _ => none
  | readDirectory, args => some [args.directory]
  | readDirectoryPlus, args => some [args.directory]
  | fileSystemSpace, object => some [object]
  | fileSystemLimits, object => some [object]
  | namingLimits, object => some [object]
  | commit, args => some [args.file]

/-- The response has the status of a stale handle. -/
def IsStale (p : Procedure) (response : Response p.Result) : Prop :=
  ∃ r, response = .results r ∧ p.status? r = some (.failed .stale)

theorem isStale_results_iff {p : Procedure} {r : p.Result} {status : Status}
    (h : p.status? r = some status) : p.IsStale (.results r) ↔ status = .failed .stale := by
  constructor
  · rintro ⟨r', hr, hstale⟩
    obtain rfl := Response.results.inj hr
    exact Option.some.inj (h.symm.trans hstale)
  · rintro rfl
    exact ⟨r, rfl, h⟩

/-- The status of a stale handle is given exactly for handles that are not live. -/
theorem blames_perform (hb : b.Sound) (hcached : ∃ c, b.handles = .cached c)
    (hwrite : b.store.isReadOnly = false) (verifier : FixedBytes 8) {p : Procedure} {args : p.Args}
    {hs : List FileHandle} (hhs : p.handles? args = some hs) :
    (p.perform now verifier args).Blames p.IsStale hs now b := by
  have hwell := hb.handles
  cases p
  case null | makeNode | makeLink => cases hhs
  case write =>
    change (if args.data.length = args.count.toNat then some [args.file] else none) = some hs at hhs
    split at hhs
    · next hcount =>
      obtain rfl := Option.some.inj hhs
      refine (blames_write hwell hcached hwrite verifier hcount).of_iff fun response => ?_
      exact exists_congr fun r => and_congr_right' (Option.some_inj)
    · cases hhs
  all_goals
    obtain rfl := Option.some.inj hhs
    refine Blames.responding (Blames.of_iff ?_ fun r => isStale_results_iff rfl)
  case getAttributes => exact blames_getAttributes hwell hcached args
  case setAttributes => exact blames_setAttributes hwell hcached hwrite args
  case lookup => exact blames_lookup hwell hcached args
  case access => exact blames_access hwell hcached args
  case readLink => exact blames_readLink hwell hcached args
  case read => exact blames_read hwell hcached args
  case create =>
    exact blames_addEntry hwell hcached hwrite args.entry fun path =>
      yields_makeThenChange (fun path => .create path _ _) _ path
  case makeDirectory =>
    exact blames_addEntry hwell hcached hwrite args.entry fun path =>
      yields_makeThenChange (fun path => .makeDirectory path _) _ path
  case makeSymlink =>
    exact blames_addEntry hwell hcached hwrite args.entry fun path => yields_attempt _
  case remove => exact blames_dropEntry hwell hcached hwrite args unblamed_entryPath _
  case removeDirectory => exact blames_dropEntry hwell hcached hwrite args unblamed_removalPath _
  case rename => exact blames_rename hwell hcached hwrite args
  case readDirectory => exact blames_readDirectory hwell hcached args
  case readDirectoryPlus => exact blames_readDirectoryPlus hwell hcached args
  case fileSystemSpace => exact blames_fileSystemSpace hwell hcached args
  case fileSystemLimits => exact blames_fileSystemLimits hwell hcached args
  case namingLimits => exact blames_namingLimits hwell hcached args
  case commit => exact blames_commit hwell hcached hb.idAt verifier args

/-- The status in the reply tells whether the response blames a handle. -/
theorem statusWord?_eq_stale_iff {p : Procedure} {args : p.Args} {hs : List FileHandle}
    (hhs : p.handles? args = some hs) (response : Response p.Result) (xid : UInt32) :
    (CallOutcome.reply (Server.replyTo xid (.nfs p) response)).statusWord? = some 70 ↔
      p.IsStale response := by
  have hp : p ≠ null := by
    rintro rfl
    cases hhs
  have hnumber : Enumeration.number (Status.failed .stale) = 70 := rfl
  rw [← hnumber]
  exact statusWord?_eq_iff hp xid

end Procedure

end Nfs

/-- The handles that a call goes by, if the answer tells whether they are stale. -/
def Rpc.Call.handles? (c : Call) : Option (List FileHandle) :=
  match c.procedure, c.arguments with
  | .nfs p, args => p.handles? args
  | .mount _, _ => none

namespace Server

open Rpc

/-- In whatever state messages have brought a server whose store takes changes: the reply to a call
has the status of a stale handle exactly if a handle that the call goes by is not live. -/
theorem stale_iff_not_live (config : ServerConfig) (limit : Nat) (ids : HandleSource)
    (store : Memory) (hwrite : store.isReadOnly = false) (before : List Incoming) (m : Incoming) :
    let s := (start config ⟨store, .cached (.empty limit ids), []⟩).after before
    ∀ c hs, s.performed? m = some c → c.handles? = some hs →
      ((s.take m).1.statusWord? = some 70 ↔ ∃ h ∈ hs, ¬s.backend.handles.IsLive h) := by
  intro s c hs hcall hhs
  have hstart := sound_start config store limit ids
  obtain ⟨hsound, hlater⟩ := sound_after hstart before
  have hcached : ∃ c, s.backend.handles = .cached c := hlater.handles.cached_iff.1 ⟨_, rfl⟩
  have hstore : s.backend.store.isReadOnly = false :=
    store_after (Memory.kept_isReadOnly false) hwrite before
  obtain ⟨xid, p, args⟩ := c
  cases p with
  | mount p => cases hhs
  | nfs p =>
    have hanswers : s.Answers m ⟨xid, .nfs p, args⟩ _ := ⟨hcall, rfl⟩
    rw [hanswers.take_eq, Nfs.Procedure.statusWord?_eq_stale_iff hhs]
    exact Nfs.Procedure.blames_perform hsound hcached hstore s.config.writeVerifier hhs

/-- A move out of the root to a directory whose handle has never been issued. -/
theorem stale_iff_not_live_rename :
    let config : ServerConfig := ⟨.known, ['/'], Bytes.zeros 8⟩
    let mount := Call.sentAt ⟨0⟩ ⟨7, .mount .mount, [0x2F]⟩
    let never : FileHandle := ⟨[1, 2, 3]⟩
    let args : Nfs.RenameArgs := ⟨⟨.serial 1, [0x61]⟩, ⟨never, [0x62]⟩⟩
    let move := Call.sentAt ⟨0⟩ ⟨8, .nfs .rename, args⟩
    let s := (start config ⟨Memory.empty ⟨0⟩ false 1000, .cached (.empty 4), []⟩).after [mount]
    s.performed? move = some ⟨8, .nfs .rename, args⟩ ∧
      s.backend.handles.IsLive (.serial 1) ∧ ¬s.backend.handles.IsLive never ∧
      (s.take move).1.statusWord? = some 70 := by
  intro config mount never args move s
  have hperformed : s.performed? move = some ⟨8, .nfs .rename, args⟩ :=
    performed?_sentAt (by decide +kernel) (by decide +kernel) (by decide +kernel)
  have hnever : ¬s.backend.handles.IsLive never := by decide +kernel
  have hall := stale_iff_not_live config 4 .serials (.empty ⟨0⟩ false 1000) rfl [mount] move
    ⟨8, .nfs .rename, args⟩ [.serial 1, never] hperformed rfl
  have hs :
      (start config ⟨Memory.empty ⟨0⟩ false 1000, .cached (.empty 4), []⟩).after [mount] = s := rfl
  rw [hs] at hall
  have hdead : ∃ h ∈ [.serial 1, never], ¬s.backend.handles.IsLive h := ⟨never, by simp, hnever⟩
  exact ⟨hperformed, by decide +kernel, hnever, hall.2 hdead⟩

end Server

end NfsServer
