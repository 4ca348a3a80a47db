import NfsServer.Proofs.Nfs.Creation
import NfsServer.Proofs.Rpc.Traces

/-!
# Calls that make files and directories

A call that makes a file or a directory and is answered with a failure leaves the store as it was,
unless the store refuses the size that was asked for while everything else is in order: then the
new object is there (`failed_creation_keeps_store_iff`).
-/

namespace NfsServer

namespace CallOutcome

/-- The client is told that its call failed. -/
def Fails (outcome : CallOutcome) : Prop := ∃ w, w ≠ 0 ∧ outcome.statusWord? = some w

theorem fails_iff {outcome : CallOutcome} {status : Nfs.Status}
    (h : outcome.statusWord? = some (Enumeration.number status)) :
    outcome.Fails ↔ status ≠ .ok := by
  constructor
  · rintro ⟨w, hw, hword⟩ rfl
    exact hw (Option.some.inj (hword.symm.trans h))
  · exact fun hstatus => ⟨_, mt Nfs.Status.number_eq_zero_iff.1 hstatus, h⟩

end CallOutcome

namespace Rpc.Call

/-- What a call asks to be made, if it is one for a file or a directory. -/
def creation? : Call → Option Nfs.Creation
  | ⟨_, .nfs .create, args⟩ => some (.ofCreate args)
  | ⟨_, .nfs .makeDirectory, args⟩ => some (.ofMakeDirectory args)
  | _ => none

theorem ends_program {c : Call} {creation : Nfs.Creation} (h : c.creation? = some creation)
    (config : ServerConfig) {now : Time} {b : Backend Memory} (hb : b.handles.WellFormed) :
    (c.program config now).Ends now b fun r b' =>
      creation.LeavesBehind now b
        (CallOutcome.reply (Server.replyTo c.xid c.procedure r)).Fails b'.store := by
  unfold creation? at h
  split at h
  · next xid args =>
    obtain rfl := Option.some.inj h
    refine Program.Ends.responding ((Nfs.ends_create hb args).mono fun o b' hends => ?_)
    rw [CallOutcome.fails_iff (Nfs.Procedure.statusWord?_results (p := .create) rfl xid)]
    exact hends
  · next xid args =>
    obtain rfl := Option.some.inj h
    refine Program.Ends.responding ((Nfs.ends_makeDirectory hb args).mono fun o b' hends => ?_)
    rw [CallOutcome.fails_iff (Nfs.Procedure.statusWord?_results (p := .makeDirectory) rfl xid)]
    exact hends
  · cases h

end Rpc.Call

namespace Server

open Rpc

/-- A call that makes a file or a directory and is answered with a failure leaves the store as it
was if and only if no object is stranded.  An object that is stranded, because the store refuses the
size that was asked for, is there although the call is answered with a failure. -/
theorem failed_creation_keeps_store_iff (config : ServerConfig) (limit : Nat) (ids : HandleSource)
    (store : Memory) (before : List Incoming) (m : Incoming) {c : Call} {creation : Nfs.Creation}
    (hcreation : c.creation? = some creation) :
    let s := (start config ⟨store, .cached (.empty limit ids), []⟩).after before
    s.performed? m = some c →
      ((s.take m).1.Fails → ((s.take m).2.backend.store = s.backend.store ↔
        ∀ path, ¬creation.StrandsAt s.backend path)) ∧
      ∀ path, creation.StrandsAt s.backend path → (s.take m).1.Fails ∧
        (s.take m).2.backend.store = s.backend.store.insert m.clock.performed path.location
          creation.mode creation.contents := by
  intro s hperformed
  have hstart : (start config ⟨store, .cached (.empty limit ids), []⟩).backend.handles.WellFormed :=
    HandleCache.wellFormed_empty limit ids
  have hwell : s.backend.handles.WellFormed := (handles_after hstart before).1
  have hreply : (s.take m).1 = _ := Answers.take_eq ⟨hperformed, rfl⟩
  have hbackend := backend_take s m
  rw [hperformed] at hbackend
  have hbehind : creation.LeavesBehind m.clock.performed s.backend (s.take m).1.Fails
      (s.take m).2.backend.store := by
    rw [hreply, hbackend]
    exact Call.ends_program hcreation s.config hwell
  refine ⟨fun hfails => ⟨fun hkept path hstrands => ?_, hbehind.nothing hfails⟩, hbehind.stranded⟩
  exact Memory.insert_ne_self ((hbehind.stranded path hstrands).2.symm.trans hkept)

/-- A directory that is to be made with a size is there although its call fails. -/
theorem failed_creation_keeps_store_iff_directory :
    let config : ServerConfig := ⟨.known, ['/'], Bytes.zeros 8⟩
    let mount := Call.sentAt ⟨0⟩ ⟨7, .mount .mount, [0x2F]⟩
    let args : Nfs.MakeDirectoryArgs :=
      ⟨⟨.serial 1, [0x64]⟩, { Nfs.AttributeRequest.empty with size := some 0 }⟩
    let make := Call.sentAt ⟨0⟩ ⟨8, .nfs .makeDirectory, args⟩
    let creation := Nfs.Creation.ofMakeDirectory args
    let path : Path := ⟨[0x2F, 0x64]⟩
    let s := (start config ⟨Memory.empty ⟨0⟩ false 1000, .cached (.empty 4), []⟩).after [mount]
    (Call.creation? ⟨8, .nfs .makeDirectory, args⟩ = some creation ∧
        s.performed? make = some ⟨8, .nfs .makeDirectory, args⟩) ∧
      creation.StrandsAt s.backend path ∧ (s.take make).1.Fails ∧
      (s.take make).2.backend.store = s.backend.store.insert make.clock.performed path.location
        creation.mode creation.contents := by
  intro config mount args make creation path s
  have hperformed : s.performed? make = some ⟨8, .nfs .makeDirectory, args⟩ :=
    performed?_sentAt (by decide +kernel) (by decide +kernel) (by decide +kernel)
  have hstrands : creation.StrandsAt s.backend path :=
    { entry := ⟨by decide +kernel, ⟨[0x2F]⟩, by decide +kernel, by decide +kernel⟩
      free := ⟨by decide +kernel, by decide +kernel⟩
      refused := ⟨0, rfl, Or.inr trivial⟩ }
  have hall := failed_creation_keeps_store_iff config 4 .serials (.empty ⟨0⟩ false 1000) [mount]
    make (c := ⟨8, .nfs .makeDirectory, args⟩) rfl hperformed
  have hs :
      (start config ⟨Memory.empty ⟨0⟩ false 1000, .cached (.empty 4), []⟩).after [mount] = s := rfl
  rw [hs] at hall
  exact ⟨⟨rfl, hperformed⟩, hstrands, hall.2 path hstrands⟩

/-- A file that is to be made with more than the largest size is there although its call fails. -/
theorem create_too_large_leaves_file :
    let config : ServerConfig := ⟨.known, ['/'], Bytes.zeros 8⟩
    let mount := Call.sentAt ⟨0⟩ ⟨7, .mount .mount, [0x2F]⟩
    let args : Nfs.CreateArgs :=
      ⟨⟨.serial 1, [0x66]⟩, .unchecked { Nfs.AttributeRequest.empty with size := some 2000 }⟩
    let create := Call.sentAt ⟨0⟩ ⟨8, .nfs .create, args⟩
    let s := (start config ⟨Memory.empty ⟨0⟩ false 1000, .cached (.empty 4), []⟩).after [mount]
    (s.take create).1.statusWord? = some 27 ∧ s.backend.store.idAt [.root, .name [0x66]] = none ∧
      (s.take create).2.backend.store.idAt [.root, .name [0x66]] = some 2 ∧
      (s.take create).2.backend.store ≠ s.backend.store := by
  decide +kernel

end Server

end NfsServer
