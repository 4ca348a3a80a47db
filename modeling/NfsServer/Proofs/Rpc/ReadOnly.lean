import NfsServer.Proofs.Rpc.Traces

/-!
# Stores that take no changes

A read-only store does not refuse changes by itself.  Each procedure that would make one asks first
and ends at once with a refusal (`Nfs.Procedure.run_refused`), so that behind any messages the store
is as it was, and no client is told that it may change an object
(`Server.read_only_store_never_changes`).
-/

namespace NfsServer

open Program

namespace Nfs

variable {now : Time} {b : Backend Memory}

/-! ## Refusals -/

/-- How a procedure that would change the store refuses to: it says nothing about any object.  A
write whose data are not as long as it says is no call to refuse. -/
def Procedure.refusal? : (p : Procedure) → p.Args → Option p.Result
  | .setAttributes, _ => some (.failed .readOnly .empty)
  | .write, args =>
    if args.data.length = args.count.toNat then some (.failed .readOnly .empty) else none
  | .create, _ => some (.failed .readOnly .empty)
  | .makeDirectory, _ => some (.failed .readOnly .empty)
  | .makeSymlink, _ => some (.failed .readOnly .empty)
  | .remove, _ => some (.failed .readOnly .empty)
  | .removeDirectory, _ => some (.failed .readOnly .empty)
  | .rename, _ => some (.failed .readOnly ⟨.empty, .empty⟩)
  | _, _ => none

/-- A procedure that asks first whether it may change anything gets no further. -/
theorem run_unless_readOnly {α : Type} (hb : b.store.isReadOnly = true) (a : α) (p : Program α) :
    (isReadOnly >>= fun readOnly => if readOnly then pure a else p).run now b = (a, b) := by
  have hasked : isReadOnly.run now b = (b.store.isReadOnly, b) := rfl
  rw [run_bind, hasked, hb]
  rfl

theorem run_responding_unless_readOnly {α : Type} (hb : b.store.isReadOnly = true) (a : α)
    (p : Program α) :
    (isReadOnly >>= fun readOnly => if readOnly then pure a else p).responding.run now b =
      (.results a, b) := by
  rw [run_responding, run_unless_readOnly hb]

/-- A refused call changes nothing, not even the order in which handles were used. -/
theorem Procedure.run_refused (hb : b.store.isReadOnly = true) {p : Procedure} {args : p.Args}
    {refusal : p.Result} (h : p.refusal? args = some refusal) (verifier : FixedBytes 8) :
    (p.perform now verifier args).run now b = (.results refusal, b) := by
  cases p with
  | write =>
    change (if args.data.length = args.count.toNat then _ else none) = some refusal at h
    by_cases hlength : args.data.length = args.count.toNat
    · rw [if_pos hlength] at h
      obtain rfl := Option.some.inj h
      show (Nfs.write verifier args).run now b = _
      unfold Nfs.write
      rw [if_neg (not_not_intro hlength)]
      exact run_unless_readOnly hb _ _
    · rw [if_neg hlength] at h
      cases h
  | setAttributes | create | makeDirectory | makeSymlink | remove | removeDirectory | rename =>
    obtain rfl := Option.some.inj h
    exact run_responding_unless_readOnly hb _ _
  | null | getAttributes | lookup | access | readLink | read | makeNode | makeLink | readDirectory
  | readDirectoryPlus | fileSystemSpace | fileSystemLimits | namingLimits | commit => cases h

/-- What is not refused does not ask for a change. -/
theorem Procedure.asks_of_not_refused {p : Procedure} {args : p.Args}
    (h : p.refusal? args = none) (verifier : FixedBytes 8) :
    (p.perform now verifier args).Asks Request.KeepsStore := by
  have hquery : p.IsQuery → (p.perform now verifier args).Asks Request.KeepsStore :=
    fun hp => asks_perform_of_isQuery hp verifier args
  cases p with
  | write =>
    change (if args.data.length = args.count.toNat then some _ else none) = none at h
    have hlength : args.data.length ≠ args.count.toNat := fun hlength => by
      rw [if_pos hlength] at h
      cases h
    show (Nfs.write verifier args).Asks _
    unfold Nfs.write
    rw [if_pos hlength]
    exact asks_pure _
  | makeNode =>
    exact ((asks_makeNode args).mono Request.IsLook.keepsStore).bind fun _ => asks_pure _
  | makeLink =>
    exact ((asks_makeLink args).mono Request.IsLook.keepsStore).bind fun _ => asks_pure _
  | setAttributes | create | makeDirectory | makeSymlink | remove | removeDirectory | rename =>
    cases h
  | null | getAttributes | lookup | access | readLink | read | readDirectory | readDirectoryPlus
  | fileSystemSpace | fileSystemLimits | namingLimits | commit => exact hquery trivial

/-- Whatever the procedure is, a store that takes no changes is as it was. -/
theorem Procedure.store_perform_of_readOnly (hb : b.store.isReadOnly = true) (p : Procedure)
    (verifier : FixedBytes 8) (args : p.Args) :
    ((p.perform now verifier args).run now b).2.store = b.store := by
  cases h : p.refusal? args with
  | some refusal => rw [run_refused hb h verifier]
  | none => exact (asks_of_not_refused h verifier).store_run now b

/-! ## Rights -/

/-- The rights to change an object. -/
def Right.toChange : UInt32 := modify ||| extend ||| delete

theorem allowedRights_of_readOnly (m : Metadata) :
    allowedRights m true &&& Right.toChange = 0 := by
  unfold allowedRights
  simp only [Bool.true_eq_false, and_false, if_false]
  split_ifs <;> decide

/-- No right to change an object is given. -/
theorem ends_access (hb : b.store.isReadOnly = true) (args : AccessArgs) :
    (access args).Ends now b fun a _ => ∀ r, a = .ok r → r.granted &&& Right.toChange = 0 := by
  refine ends_run_then fun r b' hresolved => ?_
  have hb' : b'.store.isReadOnly = true := by
    obtain rfl : b.resolved args.object = b' := congrArg Prod.snd hresolved
    exact hb
  cases r with
  | error e => exact ends_pure fun r h => nomatch h
  | ok path =>
    refine ends_query_then (asks_attempt trivial) fun m _ => ?_
    cases m with
    | error e => exact ends_pure fun r h => nomatch h
    | ok m =>
      refine ends_query_then asks_isReadOnly fun readOnly hasked => ?_
      obtain rfl : readOnly = true := hasked.trans hb'
      refine ends_pure fun r h => ?_
      obtain rfl := Outcome.ok.inj h
      show args.rights &&& allowedRights m true &&& Right.toChange = 0
      rw [UInt32.and_assoc, allowedRights_of_readOnly, UInt32.and_zero]

end Nfs

/-- How a call that would change the store is refused. -/
def Rpc.Call.refusal? (c : Call) : Option c.procedure.Result :=
  match c with
  | ⟨_, .nfs p, args⟩ => p.refusal? args
  | ⟨_, .mount _, _⟩ => none

namespace Server

open Rpc

variable {s : Server Memory}

theorem store_take_of_readOnly (hs : s.backend.store.isReadOnly = true) (m : Incoming) :
    (s.take m).2.backend.store = s.backend.store := by
  rw [backend_take]
  cases s.performed? m with
  | none => rfl
  | some c =>
    obtain ⟨xid, p, args⟩ := c
    cases p with
    | nfs p => exact p.store_perform_of_readOnly hs s.config.writeVerifier args
    | mount p =>
      exact Asks.store_run ((p.asks_perform s.config.exportName args).bind fun _ => asks_pure _) _ _

theorem store_after_of_readOnly (hs : s.backend.store.isReadOnly = true) (ms : List Incoming) :
    (s.after ms).backend.store = s.backend.store := by
  induction ms generalizing s with
  | nil => rfl
  | cons m ms ih =>
    have hstep := store_take_of_readOnly hs m
    exact (ih (hstep ▸ hs)).trans hstep

/-- Behind any sequence of messages a store that takes no changes is as it was.  Each call that
would change it is refused, whatever handles it goes by, and no reply to a question for rights
grants one to change an object. -/
theorem read_only_store_never_changes (config : ServerConfig) (handles : HandleTable)
    (store : Memory) (hreadOnly : store.isReadOnly = true) (before : List Incoming) :
    let s := (start config ⟨store, handles, []⟩).after before
    s.backend.store = store ∧
      (∀ m c refusal, s.performed? m = some c → c.refusal? = some refusal →
        (s.take m).1 = .reply (replyTo c.xid c.procedure (.results refusal))) ∧
      ∀ m xid args, s.performed? m = some ⟨xid, .nfs .access, args⟩ →
        ∃ result, (s.take m).1 = .reply (replyTo xid (.nfs .access) (.results result)) ∧
          ∀ r, result = .ok r → r.granted &&& Nfs.Right.toChange = 0 := by
  intro s
  have hstore : s.backend.store = store := store_after_of_readOnly hreadOnly before
  have hs : s.backend.store.isReadOnly = true := hstore ▸ hreadOnly
  refine ⟨hstore, ?_, ?_⟩
  · rintro m ⟨xid, p, args⟩ refusal hperformed hrefusal
    refine Answers.take_eq ⟨hperformed, ?_⟩
    cases p with
    | nfs p =>
      exact congrArg Prod.fst (p.run_refused hs hrefusal s.config.writeVerifier)
    | mount p => cases hrefusal
  · intro m xid args hperformed
    refine ⟨((Nfs.access args).run m.clock.performed s.backend).1, ?_, Nfs.ends_access hs args⟩
    exact Answers.take_eq ⟨hperformed, congrArg Prod.fst (run_responding _ _ _)⟩

/-- A file that is to be made by a handle that was never issued, and the rights in the root. -/
theorem read_only_store_never_changes_root :
    let config : ServerConfig := ⟨.known, ['/'], Bytes.zeros 8⟩
    let store := Memory.empty ⟨0⟩ true 1000
    let mount := Call.sentAt ⟨0⟩ ⟨7, .mount .mount, [0x2F]⟩
    let args : Nfs.CreateArgs := ⟨⟨⟨[1, 2, 3]⟩, [0x66]⟩, .unchecked .empty⟩
    let create := Call.sentAt ⟨0⟩ ⟨8, .nfs .create, args⟩
    let rights : Nfs.AccessArgs := ⟨.serial 1, 0x3F⟩
    let ask := Call.sentAt ⟨0⟩ ⟨9, .nfs .access, rights⟩
    let s := (start config ⟨store, .cached (.empty 4), []⟩).after [mount]
    store.isReadOnly = true ∧ s.backend.store = store ∧
      (s.take create).1 = .reply (replyTo 8 (.nfs .create) (.results (.failed .readOnly .empty))) ∧
      ∃ result, (s.take ask).1 = .reply (replyTo 9 (.nfs .access) (.results result)) ∧
        ∀ r, result = .ok r → r.granted &&& Nfs.Right.toChange = 0 := by
  intro config store mount args create rights ask s
  have hperformed : s.performed? create = some ⟨8, .nfs .create, args⟩ :=
    performed?_sentAt (by decide +kernel) (by decide +kernel) (by decide +kernel)
  have hasked : s.performed? ask = some ⟨9, .nfs .access, rights⟩ :=
    performed?_sentAt (by decide +kernel) (by decide +kernel) (by decide +kernel)
  have hall := read_only_store_never_changes config (.cached (.empty 4)) store rfl [mount]
  have hs : (start config ⟨store, .cached (.empty 4), []⟩).after [mount] = s := rfl
  rw [hs] at hall
  obtain ⟨hstore, hrefused, hrights⟩ := hall
  exact ⟨rfl, hstore, hrefused create ⟨8, .nfs .create, args⟩ _ hperformed rfl,
    hrights ask 9 rights hasked⟩

end Server

end NfsServer
