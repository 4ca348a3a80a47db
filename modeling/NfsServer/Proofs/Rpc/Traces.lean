import NfsServer.Proofs.Nfs.Failures
import NfsServer.Proofs.Rpc.Procedure
import NfsServer.Proofs.Rpc.Reply

/-!
# Calls that leave no trace

A query never changes the store, and a call that fails changes nothing if its procedure checks
everything before its first change (`no_trace`).
-/

namespace NfsServer

/-! ## The status in a reply -/

/-- The first word of the results in a reply.  Where results begin with a status it is the number of
the status, which is zero on success. -/
def CallOutcome.statusWord? (outcome : CallOutcome) : Option UInt32 :=
  match outcome.results? with
  | some results =>
    match decode UInt32 results with
    | .ok (w, _) => some w
    | .error _ => none
  | none => none

namespace Nfs

theorem Status.number_eq_zero_iff {status : Status} :
    Enumeration.number status = 0 ↔ status = .ok := by
  cases status with
  | ok => exact iff_of_true rfl rfl
  | failed cause => cases cause <;> exact iff_of_false (by decide) Status.noConfusion

/-- Results begin with the number of their status. -/
theorem Outcome.decode_word {α φ : Type} (f : Format α) (g : Format φ) (o : Outcome α φ) :
    ∃ rest, decode UInt32 ((Outcome.format f g).encode o) =
      .ok (Enumeration.number o.status, rest) := by
  have hword : ∀ w, Format.ReadsBack (decode UInt32) (Format.word.encode w) w :=
    fun w => Format.readsBack_encode .word trivial
  cases o with
  | ok a => exact ⟨f.encode a, hword _ _⟩
  | failed cause detail => exact ⟨g.encode detail, hword _ _⟩

/-- The status in the results of a procedure. -/
def Procedure.status? : (p : Procedure) → p.Result → Option Status
  | .null, _ => none
  | .getAttributes, r | .setAttributes, r | .lookup, r | .access, r | .readLink, r | .read, r
  | .write, r | .create, r | .makeDirectory, r | .makeSymlink, r | .makeNode, r | .remove, r
  | .removeDirectory, r | .rename, r | .makeLink, r | .readDirectory, r | .readDirectoryPlus, r
  | .fileSystemSpace, r | .fileSystemLimits, r | .namingLimits, r | .commit, r =>
    some (Outcome.status r)

theorem Procedure.decode_word {p : Procedure} {r : p.Result} {status : Status}
    (h : p.status? r = some status) :
    ∃ rest, decode UInt32 (p.resultFormat.encode r) =
      .ok (Enumeration.number status, rest) := by
  cases p
  case null => cases h
  all_goals
    obtain rfl := Option.some.inj h
    exact Outcome.decode_word _ _ r

end Nfs

namespace Mount

theorem MountResult.decode_word (r : MountResult) :
    ∃ rest, decode UInt32 (encode r) = .ok (Enumeration.number r.toTagged.1, rest) := by
  have hword : ∀ w, Format.ReadsBack (decode UInt32) (Format.word.encode w) w :=
    fun w => Format.readsBack_encode .word trivial
  cases r with
  | ok root => exact ⟨encode root, hword _ _⟩
  | failed cause => exact ⟨[], hword _ _⟩

end Mount

open Program

variable {now : Time} {b : Backend Memory}

namespace Nfs.Procedure

/-- The procedures that only look. -/
def IsQuery : Procedure → Prop
  | null | getAttributes | lookup | access | readLink | read | readDirectory | readDirectoryPlus
  | fileSystemSpace | fileSystemLimits | namingLimits | commit => True
  | _ => False

/-- The procedures that check everything before their first change. -/
def ChecksFirst : Procedure → Prop
  | setAttributes | write | makeSymlink | makeNode | remove | removeDirectory | rename
  | makeLink => True
  | _ => False

theorem asks_perform_of_isQuery {p : Procedure} (hp : p.IsQuery) (verifier : FixedBytes 8)
    (args : p.Args) : (p.perform now verifier args).Asks Request.KeepsStore := by
  have hlook : ∀ {α : Type} {q : Program α}, q.Asks Request.IsLook →
      q.responding.Asks Request.KeepsStore :=
    fun h => (h.mono Request.IsLook.keepsStore).bind fun _ => asks_pure _
  cases p with
  | null => exact asks_pure _
  | getAttributes => exact hlook (asks_getAttributes args)
  | lookup => exact (asks_lookup args).bind fun _ => asks_pure _
  | access => exact hlook (asks_access args)
  | readLink => exact hlook (asks_readLink args)
  | read => exact hlook (asks_read args)
  | readDirectory => exact hlook (asks_readDirectory args)
  | readDirectoryPlus => exact (asks_readDirectoryPlus args).bind fun _ => asks_pure _
  | fileSystemSpace => exact hlook (asks_fileSystemSpace args)
  | fileSystemLimits => exact hlook (asks_fileSystemLimits args)
  | namingLimits => exact hlook (asks_namingLimits args)
  | commit => exact hlook (asks_commit verifier args)
  | setAttributes | write | create | makeDirectory | makeSymlink | makeNode | remove
  | removeDirectory | rename | makeLink => exact hp.elim

/-- The results tell that the call succeeded. -/
def Succeeds (p : Procedure) (response : Response p.Result) : Prop :=
  ∃ r, response = .results r ∧ p.status? r = some .ok

theorem ne_ok_of_not_succeeds {p : Procedure} {r : p.Result} {status : Status}
    (h : ¬p.Succeeds (.results r)) (hr : p.status? r = some status) : status ≠ .ok :=
  fun hok => h ⟨r, rfl, hok ▸ hr⟩

/-- Besides the two procedures that make an object and change it afterwards, every procedure leaves
everything as it was when it does not succeed. -/
theorem spares_perform (hb : b.handles.WellFormed) {p : Procedure} (hcreate : p ≠ create)
    (hmake : p ≠ makeDirectory) (verifier : FixedBytes 8) (args : p.Args) :
    (p.perform now verifier args).Spares (fun r => ¬p.Succeeds r) now b := by
  cases p with
  | null => exact spares_pure _
  | getAttributes => exact Spares.responding ((asks_getAttributes args).spares hb)
  | setAttributes =>
    apply Spares.responding
    exact (spares_setAttributes hb args).mono fun _ h => ne_ok_of_not_succeeds h rfl
  | lookup =>
    apply Spares.responding
    exact (spares_lookup hb args).mono fun _ h => ne_ok_of_not_succeeds h rfl
  | access => exact Spares.responding ((asks_access args).spares hb)
  | readLink => exact Spares.responding ((asks_readLink args).spares hb)
  | read => exact Spares.responding ((asks_read args).spares hb)
  | write =>
    exact (spares_write hb verifier args).mono fun r h a ha => h ⟨_, ha, rfl⟩
  | create => exact absurd rfl hcreate
  | makeDirectory => exact absurd rfl hmake
  | makeSymlink =>
    apply Spares.responding
    exact (spares_makeSymlink hb args).mono fun _ h => ne_ok_of_not_succeeds h rfl
  | makeNode => exact Spares.responding ((asks_makeNode args).spares hb)
  | remove =>
    apply Spares.responding
    exact (spares_dropEntry hb args entryPath StoreRequest.isAtomic_removeFile).mono
      fun _ h => ne_ok_of_not_succeeds h rfl
  | removeDirectory =>
    apply Spares.responding
    exact (spares_dropEntry hb args removalPath StoreRequest.isAtomic_removeDirectory).mono
      fun _ h => ne_ok_of_not_succeeds h rfl
  | rename =>
    apply Spares.responding
    exact (spares_rename hb args).mono fun _ h => ne_ok_of_not_succeeds h rfl
  | makeLink => exact Spares.responding ((asks_makeLink args).spares hb)
  | readDirectory => exact Spares.responding ((asks_readDirectory args).spares hb)
  | readDirectoryPlus =>
    apply Spares.responding
    exact (spares_readDirectoryPlus hb args).mono fun _ h => ne_ok_of_not_succeeds h rfl
  | fileSystemSpace => exact Spares.responding ((asks_fileSystemSpace args).spares hb)
  | fileSystemLimits => exact Spares.responding ((asks_fileSystemLimits args).spares hb)
  | namingLimits => exact Spares.responding ((asks_namingLimits args).spares hb)
  | commit => exact Spares.responding ((asks_commit verifier args).spares hb)

/-- Whatever procedure does not succeed, the same handles are live. -/
theorem bindings_perform (hb : b.handles.WellFormed) (p : Procedure) (verifier : FixedBytes 8)
    (args : p.Args) :
    (p.perform now verifier args).Ends now b fun r b' =>
      ¬p.Succeeds r → ∀ x, x ∈ b'.handles.bindings ↔ x ∈ b.handles.bindings := by
  -- Two procedures do not check everything first, but they issue a handle only at the very end.
  by_cases hcreate : p = create
  · subst hcreate
    exact Ends.responding ((bindings_create hb args).mono fun _ _ hkept h =>
      hkept (ne_ok_of_not_succeeds h rfl))
  · by_cases hmake : p = makeDirectory
    · subst hmake
      exact Ends.responding ((bindings_makeDirectory hb args).mono fun _ _ hkept h =>
        hkept (ne_ok_of_not_succeeds h rfl))
    · exact Ends.mono (spares_perform hb hcreate hmake verifier args) fun _ _ hsame h =>
        (hsame h).mem_bindings

/-- The reply with results that have a status begins with its number. -/
theorem statusWord?_results {p : Procedure} {r : p.Result} {status : Status}
    (h : p.status? r = some status) (xid : UInt32) :
    (CallOutcome.reply (Server.replyTo xid (.nfs p) (.results r))).statusWord? =
      some (Enumeration.number status) := by
  obtain ⟨rest, hword⟩ := decode_word h
  have hresults := Server.results?_replyTo xid (.nfs p) (.results r)
  unfold CallOutcome.statusWord?
  rw [hresults]
  dsimp only [Rpc.Procedure.resultFormat]
  rw [hword]

/-- The first word of a reply tells the status in the results. -/
theorem statusWord?_eq_iff {p : Procedure} (hp : p ≠ null) {response : Response p.Result}
    {status : Status} (xid : UInt32) :
    (CallOutcome.reply (Server.replyTo xid (.nfs p) response)).statusWord? =
        some (Enumeration.number status) ↔
      ∃ r, response = .results r ∧ p.status? r = some status := by
  cases response with
  | garbageArguments =>
    refine iff_of_false (fun hword => ?_) fun ⟨r, hr, _⟩ => nomatch hr
    unfold CallOutcome.statusWord? at hword
    rw [Server.results?_replyTo] at hword
    cases hword
  | results r =>
    obtain ⟨status', hstatus⟩ : ∃ status', p.status? r = some status' := by
      cases p
      case null => exact absurd rfl hp
      all_goals exact ⟨_, rfl⟩
    have hmember : Enumeration.ofNumber? Status (Enumeration.number status) = some status :=
      Enumeration.ofNumber?_eq_some_iff.2 rfl
    rw [statusWord?_results hstatus, Option.some_inj, ← Enumeration.ofNumber?_eq_some_iff, hmember,
      Option.some_inj, eq_comm]
    constructor
    · rintro rfl
      exact ⟨r, rfl, hstatus⟩
    · rintro ⟨r', hr, hr'⟩
      obtain rfl := Response.results.inj hr
      exact Option.some.inj (hstatus.symm.trans hr')

/-- The reply to a call that succeeds has the status zero. -/
theorem statusWord?_of_succeeds {p : Procedure} {response : Response p.Result}
    (h : p.Succeeds response) (xid : UInt32) :
    (CallOutcome.reply (Server.replyTo xid (.nfs p) response)).statusWord? = some 0 := by
  obtain ⟨r, rfl, hr⟩ := h
  exact statusWord?_results hr xid

end Nfs.Procedure

namespace Mount.Procedure

theorem asks_perform (exportName : Text) (p : Procedure) (args : p.Args) :
    (p.perform exportName args).Asks Request.KeepsStore := by
  cases p with
  | null => exact asks_pure _
  | mount => exact asks_mount exportName args
  | listMounts => exact asks_pure _
  | unmount => exact asks_request trivial
  | unmountAll => exact asks_request trivial
  | listExports => exact asks_pure _

theorem statusWord?_mount (r : MountResult) (xid : UInt32) :
    (CallOutcome.reply (Server.replyTo xid (.mount .mount) (.results r))).statusWord? =
      some (Enumeration.number r.toTagged.1) := by
  obtain ⟨rest, hword⟩ := MountResult.decode_word r
  have hresults := Server.results?_replyTo xid (.mount .mount) (.results r)
  have hspelling : Rpc.Procedure.resultFormat (.mount .mount) = Wire.format := rfl
  unfold CallOutcome.statusWord?
  rw [hresults, hspelling]
  show (match decode UInt32 (encode r) with
    | .ok (w, _) => some w
    | .error _ => none) = _
  rw [hword]

end Mount.Procedure

namespace Rpc.Procedure

/-- The procedures that only look; what a client mounts is not recorded in the store. -/
def IsQuery : Procedure → Prop
  | nfs p => p.IsQuery
  | mount _ => True

/-- The procedures that check everything before their first change. -/
def ChecksFirst : Procedure → Prop
  | nfs p => p.ChecksFirst
  | mount _ => False

/-- The procedures whose results begin with a status. -/
def HasStatus : Procedure → Prop
  | nfs _ => True
  | mount p => p = .mount

/-- The store after a call that must not change it. -/
theorem store_perform (hb : b.handles.WellFormed) (p : Procedure) (verifier : FixedBytes 8)
    (exportName : Text) (args : p.Args) (xid : UInt32) :
    (p.perform now verifier exportName args).Ends now b fun r b' =>
      p.IsQuery ∨ p.ChecksFirst ∧
          (CallOutcome.reply (Server.replyTo xid p r)).statusWord? ≠ some 0 →
        b'.store = b.store := by
  rintro (hquery | ⟨hchecks, hword⟩)
  · cases p with
    | nfs p => exact (p.asks_perform_of_isQuery hquery verifier args).store_run now b
    | mount p =>
      exact Asks.store_run ((p.asks_perform exportName args).bind fun _ => asks_pure _) now b
  · cases p with
    | nfs p =>
      have hcreate : p ≠ .create := fun h => by rw [h] at hchecks; exact hchecks
      have hmake : p ≠ .makeDirectory := fun h => by rw [h] at hchecks; exact hchecks
      have hspared : (p.perform now verifier args).Spares (fun r => ¬p.Succeeds r) now b :=
        Nfs.Procedure.spares_perform hb hcreate hmake verifier args
      exact (hspared fun h => hword (Nfs.Procedure.statusWord?_of_succeeds h xid)).store
    | mount p => exact hchecks.elim

/-- The live handles after a call that fails. -/
theorem bindings_perform (hb : b.handles.WellFormed) (p : Procedure) (verifier : FixedBytes 8)
    (exportName : Text) (args : p.Args) (xid : UInt32) {w : UInt32} (hw : w ≠ 0) :
    (p.perform now verifier exportName args).Ends now b fun r b' =>
      p.HasStatus → (CallOutcome.reply (Server.replyTo xid p r)).statusWord? = some w →
        ∀ x, x ∈ b'.handles.bindings ↔ x ∈ b.handles.bindings := by
  intro hstatus hword
  cases p with
  | nfs p =>
    refine Nfs.Procedure.bindings_perform hb p verifier args fun h => hw ?_
    have hzero := Nfs.Procedure.statusWord?_of_succeeds h xid
    exact Option.some.inj (hword.symm.trans hzero)
  | mount p =>
    obtain rfl : p = .mount := hstatus
    have hrun := run_responding (Mount.mount exportName args) now b
    change (CallOutcome.reply (Server.replyTo xid (.mount .mount)
      ((Mount.mount exportName args).responding.run now b).1)).statusWord? = some w at hword
    show ∀ x, x ∈ ((Mount.mount exportName args).responding.run now b).2.handles.bindings ↔ _
    rw [hrun] at hword ⊢
    refine (Mount.spares_mount hb exportName args ?_).mem_bindings
    rw [Mount.Procedure.statusWord?_mount] at hword
    cases hresult : ((Mount.mount exportName args).run now b).1 with
    | ok root =>
      rw [hresult] at hword
      exact absurd (Option.some.inj hword).symm hw
    | failed cause => exact ⟨cause, rfl⟩

end Rpc.Procedure

namespace Server

open Rpc

/-- A message that makes no call changes nothing.  A call of a procedure that only looks leaves the
store as it was, and so does a call that is not answered with success if its procedure checks
everything before its first change.  Whatever call is answered with a failure, the same handles are
live as before and stand for the same paths. -/
theorem no_trace (config : ServerConfig) (limit : Nat) (ids : HandleSource) (store : Memory)
    (before : List Incoming) (m : Incoming) :
    let s := (start config ⟨store, .cached (.empty limit ids), []⟩).after before
    let s' := (s.take m).2
    (Call.read? config.policy m.input = none → s'.backend = s.backend) ∧
      ∀ c, Call.read? config.policy m.input = some c →
        (c.procedure.IsQuery ∨ c.procedure.ChecksFirst ∧ (s.take m).1.statusWord? ≠ some 0 →
          s'.backend.store = s.backend.store) ∧
        (c.procedure.HasStatus → (∃ w, w ≠ 0 ∧ (s.take m).1.statusWord? = some w) →
          ∀ x, x ∈ s'.backend.handles.bindings ↔ x ∈ s.backend.handles.bindings) := by
  intro s s'
  have hpolicy : s.config.policy = config.policy :=
    congrArg ServerConfig.policy (config_after _ before)
  have hstart : (start config ⟨store, .cached (.empty limit ids), []⟩).backend.handles.WellFormed :=
    HandleCache.wellFormed_empty limit ids
  have hwell : s.backend.handles.WellFormed := (handles_after hstart before).1
  rw [← hpolicy]
  refine ⟨backend_take_of_not_call, fun c hcall => ?_⟩
  rcases take_of_call hcall with ⟨-, hbackend⟩ | ⟨hreply, hbackend⟩
  · -- A repetition is not performed.
    have hsame : s'.backend = s.backend := hbackend
    rw [hsame]
    exact ⟨fun _ => rfl, fun _ _ _ => Iff.rfl⟩
  · have hperformed : s'.backend = _ := hbackend
    rw [hperformed, hreply]
    refine ⟨c.procedure.store_perform hwell _ _ c.arguments c.xid, ?_⟩
    rintro hstatus ⟨w, hw, hword⟩
    exact c.procedure.bindings_perform hwell _ _ c.arguments c.xid hw hstatus hword

/-- An empty message calls nothing, and a file that is not there cannot be removed. -/
theorem no_trace_missing :
    let config : ServerConfig := ⟨.known, ['/'], Bytes.zeros 8⟩
    let root := FileHandle.serial 1
    let mount := Call.sentAt ⟨0⟩ ⟨7, .mount .mount, [0x2F]⟩
    let empty : Incoming := ⟨.still ⟨1⟩, "host", []⟩
    let remove := Call.sentAt ⟨1⟩ ⟨8, .nfs .remove, ⟨root, [0x66]⟩⟩
    let s := (start config ⟨Memory.empty ⟨0⟩ false 10, .cached (.empty 4), []⟩).after [mount]
    let s' := (s.take remove).2
    (Call.read? config.policy empty.input = none ∧
        Call.read? config.policy remove.input = some ⟨8, .nfs .remove, ⟨root, [0x66]⟩⟩ ∧
        (s.take remove).1.statusWord? = some 2) ∧
      (s.take empty).2.backend = s.backend ∧ s'.backend.store = s.backend.store ∧
      ∀ x, x ∈ s'.backend.handles.bindings ↔ x ∈ s.backend.handles.bindings := by
  intro config root mount empty remove s s'
  have hempty : Call.read? config.policy empty.input = none := rfl
  have hremove : Call.read? config.policy remove.input =
      some ⟨8, .nfs .remove, ⟨root, [0x66]⟩⟩ := Call.read?_sentAt rfl (by decide)
  have hstatus : (s.take remove).1.statusWord? = some 2 := by decide +kernel
  have hall := no_trace config 4 .serials (.empty ⟨0⟩ false 10) [mount]
  have hs : (start config ⟨Memory.empty ⟨0⟩ false 10, .cached (.empty 4), []⟩).after [mount] = s :=
    rfl
  dsimp only at hall
  rw [hs] at hall
  obtain ⟨hstore, hbindings⟩ := (hall remove).2 _ hremove
  have hfailed : (s.take remove).1.statusWord? ≠ some 0 := by
    rw [hstatus]
    decide
  exact ⟨⟨hempty, hremove, hstatus⟩, (hall empty).1 hempty, hstore (Or.inr ⟨trivial, hfailed⟩),
    hbindings trivial ⟨2, by decide, hstatus⟩⟩

end Server

end NfsServer
