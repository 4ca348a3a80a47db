import NfsServer.Proofs.Handle.Stability
import NfsServer.Proofs.Nfs.Data
import NfsServer.Proofs.Rpc.Traces
import NfsServer.Proofs.Time

/-!
# Setting attributes

What a client sets it is shown: behind a change of attributes that succeeds, the object has the
attributes that were asked for, and its change time is that of the call; everything else is as it
was, here and at all other objects (`Server.shows_what_was_set`).  A request goes through two
conversions of each time and through the order in which the store applies it;
`Nfs.FileAttributes.AsRequested` says what comes out for each attribute.
-/

namespace NfsServer

namespace Nfs

/-- The time stamp that clients are shown behind a request. -/
def TimeChoice.shown (now old : NfsTime) : TimeChoice → NfsTime
  | keep => old
  | serverTime => now
  | clientTime t => Time.clamped t

/-- The attributes `a'` are those that were asked for, and otherwise they are those from before.  A
change of the size changes the data, and so its time stamp unless that is asked for as well; owners
cannot be asked for. -/
structure FileAttributes.AsRequested (now : Time) (r : AttributeRequest) (a a' : FileAttributes) :
    Prop where
  type_eq : a'.type = a.type
  mode_eq : a'.mode = (r.mode.map (· &&& 0o7777)).getD a.mode
  links_eq : a'.links = a.links
  uid_eq : a'.uid = a.uid
  gid_eq : a'.gid = a.gid
  size_eq : a'.size = r.size.getD a.size
  used_eq : a'.used = r.size.getD a.used
  device_eq : a'.device = a.device
  fileSystem_eq : a'.fileSystem = a.fileSystem
  fileId_eq : a'.fileId = a.fileId
  accessed_eq : a'.accessed = r.accessed.shown now.toNfs a.accessed
  modified_eq : a'.modified =
    r.modified.shown now.toNfs (if r.size.isSome then now.toNfs else a.modified)
  changed_eq : a'.changed = now.toNfs

/-- A time stamp is shown as it was asked for. -/
theorem TimeChoice.toNfs_resolve (c : TimeChoice) (now old : Time) :
    ((c.resolve now).getD old).toNfs = c.shown now.toNfs old.toNfs := by
  cases c with
  | keep => rfl
  | serverTime => rfl
  | clientTime t => exact Time.toNfs_ofNfs t

/-- The changes that a request asks for come out as it asked for them. -/
theorem asRequested_of_takesChanges {now : Time} {r : AttributeRequest} {o o' : Object}
    (h : Memory.TakesChanges now (r.toChanges now) o o') (p : Path) :
    FileAttributes.AsRequested now r (o.metadata.attributesAt p) (o'.metadata.attributesAt p) := by
  have hsize : UInt64.ofNat o'.size = r.size.getD (UInt64.ofNat o.size) := by
    rw [h.size_eq, AttributeRequest.toChanges]
    cases r.size with
    | none => rfl
    | some size => exact UInt64.ofNat_toNat
  have hdirectory : o'.metadata.isDirectory = o.metadata.isDirectory :=
    congrArg (fun kind => decide (kind = FileKind.directory)) h.kind_eq
  constructor
  case type_eq => exact congrArg FileKind.toNfs h.kind_eq
  case mode_eq =>
    show o'.mode &&& 0o7777 = (r.mode.map (· &&& 0o7777)).getD (o.mode &&& 0o7777)
    rw [h.mode_eq, AttributeRequest.toChanges]
    cases r.mode with
    | none => rfl
    | some mode => exact Memory.permissions_permissions mode
  case links_eq =>
    show (if o'.metadata.isDirectory then 2 else 1) = if o.metadata.isDirectory then 2 else 1
    rw [hdirectory]
  case size_eq => exact hsize
  case used_eq => exact hsize
  case fileId_eq =>
    show UInt64.ofNat o'.fileId = UInt64.ofNat o.fileId
    rw [h.fileId_eq]
  case accessed_eq =>
    show o'.accessed.toNfs = r.accessed.shown now.toNfs o.accessed.toNfs
    rw [h.accessed_eq, ← TimeChoice.toNfs_resolve]
    rfl
  case modified_eq =>
    show o'.modified.toNfs =
      r.modified.shown now.toNfs (if r.size.isSome then now.toNfs else o.modified.toNfs)
    rw [h.modified_eq, ← apply_ite Time.toNfs, ← TimeChoice.toNfs_resolve]
    have hasked : (r.toChanges now).size.isSome = r.size.isSome := Option.isSome_map
    rw [hasked]
    rfl
  case changed_eq => exact congrArg Time.toNfs h.changed_eq
  all_goals rfl

end Nfs

namespace Server

open Rpc

/-- A call for the attributes of a live handle is answered with them. -/
theorem take_getAttributes_of_standsFor {s : Server Memory} {g : Incoming} {xid : UInt32}
    {h : FileHandle} {path : Path} {o : Object}
    (hcall : s.performed? g = some ⟨xid, .nfs .getAttributes, h⟩)
    (hobject : s.backend.StandsFor h path o) :
    (s.take g).1 = attributesReply xid (.ok (o.metadata.attributesAt path)) := by
  have hrun := Nfs.run_getAttributes_of_standsFor g.clock.performed hobject
  exact (take_of_run_responding rfl hcall hrun).1

/-- A change of attributes with the status of a success has not failed. -/
theorem ne_failed_of_statusWord? {outcome : CallOutcome} (hok : outcome.statusWord? = some 0)
    (xid : UInt32) (e : Nfs.NfsError) (wcc : Nfs.WccData) :
    outcome ≠ .reply (replyTo xid (.nfs .setAttributes) (.results (.failed e wcc))) := by
  rintro rfl
  rw [Nfs.Procedure.statusWord?_results (p := .setAttributes) rfl, Option.some_inj,
    Nfs.Status.number_eq_zero_iff] at hok
  cases hok

section SetAttributes

variable {s : Server Memory} {m : Incoming} {xid : UInt32} {args : Nfs.SetAttributesArgs}
  {path : Path} {o : Object} (hwrite : s.backend.store.isReadOnly = false)
  (hcall : s.performed? m = some ⟨xid, .nfs .setAttributes, args⟩)
  (hobject : s.backend.StandsFor args.object path o)

include hwrite hcall hobject

/-- A change of attributes for which the object is no longer as the client saw it. -/
theorem take_setAttributes_of_guard
    (hguard : Nfs.guardHolds (some o.metadata.toWcc) args.guard = false) :
    (s.take m).1 = .reply (replyTo xid (.nfs .setAttributes)
        (.results (.failed .notSync (Nfs.unchangedWcc o path)))) ∧
      (s.take m).2.backend = s.backend.resolved args.object := by
  have hrun := Nfs.run_setAttributes m.clock.performed hobject hwrite
  rw [hguard, if_neg Bool.false_ne_true] at hrun
  exact take_of_run_responding rfl hcall hrun

/-- A change of attributes that the store refuses. -/
theorem take_setAttributes_of_error {e : StoreError}
    (hguard : Nfs.guardHolds (some o.metadata.toWcc) args.guard = true)
    (herror : s.backend.store.setAttributes m.clock.performed path.location
      (args.requested.toChanges m.clock.performed) = .error e) :
    (s.take m).1 = .reply (replyTo xid (.nfs .setAttributes)
        (.results (.failed e.toNfs (Nfs.unchangedWcc o path)))) ∧
      (s.take m).2.backend = s.backend.resolved args.object := by
  have hrun := Nfs.run_setAttributes m.clock.performed hobject hwrite
  rw [hguard, if_pos rfl, herror] at hrun
  exact take_of_run_responding rfl hcall hrun

/-- Without a guard only the store refuses, and then nothing has changed. -/
theorem take_setAttributes_of_refused (hhandles : s.backend.handles.WellFormed)
    (hguard : args.guard = none) {e : StoreError}
    (herror : s.backend.store.setAttributes m.clock.performed path.location
      (args.requested.toChanges m.clock.performed) = .error e) :
    (s.take m).1 = .reply (replyTo xid (.nfs .setAttributes)
        (.results (.failed e.toNfs (Nfs.unchangedWcc o path)))) ∧
      s.backend.Same (s.take m).2.backend := by
  have hholds : Nfs.guardHolds (some o.metadata.toWcc) args.guard = true := by
    rw [hguard]
    rfl
  obtain ⟨hreply, hbackend⟩ := take_setAttributes_of_error hwrite hcall hobject hholds herror
  rw [hbackend]
  exact ⟨hreply, Backend.same_resolved hhandles args.object⟩

/-- A change of attributes that succeeds. -/
theorem take_setAttributes_of_ok (hok : (s.take m).1.statusWord? = some 0) :
    Nfs.guardHolds (some o.metadata.toWcc) args.guard = true ∧ ∃ o',
      Memory.TakesChanges m.clock.performed (args.requested.toChanges m.clock.performed) o o' ∧
        (s.take m).1 = .reply (replyTo xid (.nfs .setAttributes) (.results
          (.ok ⟨some o.metadata.toWcc, some (o'.metadata.attributesAt path)⟩))) ∧
        (s.take m).2.backend = s.backend.resolvedWith args.object
          (s.backend.store.modify path.location fun _ => o') := by
  have hfailed := ne_failed_of_statusWord? hok xid
  cases hguard : Nfs.guardHolds (some o.metadata.toWcc) args.guard with
  | false => exact absurd (take_setAttributes_of_guard hwrite hcall hobject hguard).1 (hfailed _ _)
  | true =>
    cases hresult : s.backend.store.setAttributes m.clock.performed path.location
        (args.requested.toChanges m.clock.performed) with
    | error e =>
      have hreply := (take_setAttributes_of_error hwrite hcall hobject hguard hresult).1
      exact absurd hreply (hfailed _ _)
    | ok result =>
      obtain ⟨a, store⟩ := result
      obtain ⟨o₁, o', ho₁, htakes, rfl, rfl⟩ := Memory.takesChanges_of_setAttributes hresult
      obtain rfl := Option.some.inj (hobject.find?.symm.trans ho₁)
      have hrun := Nfs.run_setAttributes m.clock.performed hobject hwrite
      rw [hguard, if_pos rfl, hresult] at hrun
      exact ⟨rfl, o', htakes, take_of_run_responding rfl hcall hrun⟩

end SetAttributes

/-- Whatever messages a server has taken whose store takes changes: when a change of the attributes
of a live handle succeeds, the next call for the attributes shows what was asked for, the data has
been cut or filled up with zeros to the size that was asked for, and no other object has changed.
Without a guard, a size that no file may have is too large, and apart from that only files have a
size that can be set. -/
theorem shows_what_was_set (config : ServerConfig) (handles : HandleTable)
    (hhandles : handles.WellFormed) (store : Memory) (hwrite : store.isReadOnly = false)
    (before : List Incoming) (m : Incoming) :
    let s := (start config ⟨store, handles, []⟩).after before
    let s' := (s.take m).2
    let now := m.clock.performed
    ∀ xid args path o, s.performed? m = some ⟨xid, .nfs .setAttributes, args⟩ →
      s.backend.StandsFor args.object path o →
      let Replies (r : Nfs.Outcome Nfs.WccData Nfs.WccData) : Prop :=
        (s.take m).1 = .reply (replyTo xid (.nfs .setAttributes) (.results r))
      ((s.take m).1.statusWord? = some 0 → ∃ o',
        let a' := o'.metadata.attributesAt path
        Replies (.ok ⟨some o.metadata.toWcc, some a'⟩) ∧
          s.backend.store.Replaced path.location o' s'.backend.store ∧
          (args.requested.size = none → o'.contents = o.contents) ∧
          (∀ size, args.requested.size = some size → ∃ data data', o.contents = .file data ∧
            o'.contents = .file data' ∧ Memory.Resizes data size.toNat data') ∧
          Nfs.FileAttributes.AsRequested now args.requested (o.metadata.attributesAt path) a' ∧
          (now.IsShown → Time.ofNfs a'.changed = now) ∧
          ∀ g xid', s'.performed? g = some ⟨xid', .nfs .getAttributes, args.object⟩ →
            (s'.take g).1 = attributesReply xid' (.ok a')) ∧
      (args.guard = none → ∀ size, args.requested.size = some size →
        (store.maxFileSize < size.toNat →
          Replies (.failed .tooBig (Nfs.unchangedWcc o path)) ∧ s.backend.Same s'.backend) ∧
        (size.toNat ≤ store.maxFileSize → (∀ data, o.contents ≠ .file data) →
          Replies (.failed .isDirectory (Nfs.unchangedWcc o path)) ∧
            s.backend.Same s'.backend)) := by
  intro s s' now xid args path o hcall hobject Replies
  have hwell : s.backend.handles.WellFormed := (handles_after hhandles before).1
  have hstorable : s.backend.store.isReadOnly = false :=
    store_after (Memory.kept_isReadOnly false) hwrite before
  have hmax : s.backend.store.maxFileSize = store.maxFileSize :=
    store_after (Memory.kept_maxFileSize _) rfl before
  constructor
  · intro hok
    obtain ⟨-, o', htakes, hreply, hbackend⟩ :=
      take_setAttributes_of_ok hstorable hcall hobject hok
    have hreplaced := Memory.replaced_modify hobject.find? o'
    have hshown := Nfs.asRequested_of_takesChanges htakes path
    refine ⟨o', hreply, ?_, fun hnone => htakes.kept ?_, fun size hsize => htakes.resized _ ?_,
      hshown, fun hnow => ?_, fun g xid' hg => take_getAttributes_of_standsFor hg ?_⟩
    · rw [show s'.backend = _ from hbackend]
      exact hreplaced
    · rw [Nfs.AttributeRequest.toChanges, hnone]
      rfl
    · rw [Nfs.AttributeRequest.toChanges, hsize]
      rfl
    · rw [hshown.changed_eq, Time.ofNfs_toNfs hnow]
    · rw [show s'.backend = _ from hbackend]
      exact hobject.resolvedWith hwell hreplaced.here
  · intro hguard size hsize
    have hchanges : (args.requested.toChanges now).size = some size.toNat := by
      rw [Nfs.AttributeRequest.toChanges, hsize]
      rfl
    constructor
    · intro hlarge
      have herror : s.backend.store.setAttributes now path.location
          (args.requested.toChanges now) = .error .fileTooLarge :=
        Memory.setAttributes_of_lt hchanges (hmax ▸ hlarge)
      obtain ⟨hreply, hsame⟩ :=
        take_setAttributes_of_refused hstorable hcall hobject hwell hguard herror
      exact ⟨hreply, hsame⟩
    · intro hsmall hfile
      have herror : s.backend.store.setAttributes now path.location
          (args.requested.toChanges now) = .error .isADirectory :=
        Memory.setAttributes_of_not_file hchanges (hmax ▸ hsmall) hobject.find? hfile
      obtain ⟨hreply, hsame⟩ :=
        take_setAttributes_of_refused hstorable hcall hobject hwell hguard herror
      exact ⟨hreply, hsame⟩

/-- A file of three bytes is cut to two, with a mode that has too many bits, an owner that is not
taken and a time with too many nanoseconds; then it would have to be longer than files may be. -/
theorem shows_what_was_set_cut :
    let config : ServerConfig := ⟨.known, ['/'], Bytes.zeros 8⟩
    let file := FileHandle.serial 2
    let before := [Call.sentAt ⟨5⟩ ⟨7, .mount .mount, [0x2F]⟩,
      Call.sentAt ⟨5⟩ ⟨8, .nfs .create, ⟨⟨.serial 1, [0x66]⟩, .unchecked .empty⟩⟩,
      Call.sentAt ⟨5⟩ ⟨9, .nfs .write, ⟨file, 0, 3, .unstable, [1, 2, 3]⟩⟩]
    let request (size : UInt64) : Nfs.AttributeRequest :=
      ⟨some 0o17777, some 5, none, some size, .clientTime ⟨7, 2000000000⟩, .keep⟩
    let args (size : UInt64) : Nfs.SetAttributesArgs := ⟨file, request size, none⟩
    let set (size : UInt64) := Call.sentAt ⟨6⟩ ⟨10, .nfs .setAttributes, args size⟩
    let get := Call.sentAt ⟨7⟩ ⟨11, .nfs .getAttributes, file⟩
    let s := (start config ⟨.empty ⟨0⟩ false 10, .cached (.empty 4), []⟩).after before
    let s' := (s.take (set 2)).2
    let path : Path := ⟨[0x2F, 0x66]⟩
    let o : Object := ⟨.file [1, 2, 3], .file, 0o644, 3, ⟨5⟩, ⟨5⟩, ⟨5⟩, 2⟩
    (s.performed? (set 2) = some ⟨10, .nfs .setAttributes, args 2⟩ ∧
        s.performed? (set 11) = some ⟨10, .nfs .setAttributes, args 11⟩ ∧
        s.backend.StandsFor file path o ∧ (s.take (set 2)).1.statusWord? = some 0 ∧
        s'.performed? get = some ⟨11, .nfs .getAttributes, file⟩) ∧
      (∃ (o' : Object) (data' : Bytes), o'.contents = .file data' ∧
        Memory.Resizes [1, 2, 3] 2 data' ∧
        Nfs.FileAttributes.AsRequested ⟨6⟩ (request 2) (o.metadata.attributesAt path)
          (o'.metadata.attributesAt path) ∧
        (s'.take get).1 = attributesReply 11 (.ok (o'.metadata.attributesAt path))) ∧
      s.backend.Same (s.take (set 11)).2.backend := by
  intro config file before request args set get s s' path o
  have hset : s.performed? (set 2) = some ⟨10, .nfs .setAttributes, args 2⟩ :=
    performed?_sentAt (by decide +kernel) (by decide +kernel) (by decide +kernel)
  have hset' : s.performed? (set 11) = some ⟨10, .nfs .setAttributes, args 11⟩ :=
    performed?_sentAt (by decide +kernel) (by decide +kernel) (by decide +kernel)
  have hget : s'.performed? get = some ⟨11, .nfs .getAttributes, file⟩ :=
    performed?_sentAt (by decide +kernel) (by decide +kernel) (by decide +kernel)
  have hobject : s.backend.StandsFor file path o := ⟨by decide +kernel, by decide +kernel⟩
  have hok : (s.take (set 2)).1.statusWord? = some 0 := by decide +kernel
  have hall := shows_what_was_set config (.cached (.empty 4)) (HandleCache.wellFormed_empty 4 _)
    (.empty ⟨0⟩ false 10) rfl before
  have hs : (start config ⟨.empty ⟨0⟩ false 10, .cached (.empty 4), []⟩).after before = s := rfl
  rw [hs] at hall
  obtain ⟨o', -, -, -, hresized, hshown, -, hnext⟩ :=
    (hall (set 2) 10 (args 2) path o hset hobject).1 hok
  obtain ⟨data, data', hdata, hdata', hcut⟩ := hresized 2 rfl
  obtain rfl : [1, 2, 3] = data := Contents.file.inj hdata
  have hlarge := ((hall (set 11) 10 (args 11) path o hset' hobject).2 rfl 11 rfl).1 (by decide)
  exact ⟨⟨hset, hset', hobject, hok, hget⟩,
    ⟨o', data', hdata', hcut, hshown, hnext get 11 hget⟩, hlarge.2⟩

end Server

end NfsServer
