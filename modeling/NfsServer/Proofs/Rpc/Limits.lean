import NfsServer.Proofs.Nfs.Limits
import NfsServer.Proofs.Rpc.Traces
import NfsServer.Proofs.Wire.Limits

/-!
# Calls keep names and link targets within limits

The arguments of a call have been read from a message, so that no link target is longer than a
record (`Call.fits_of_read?`).  Hence a store is asked only for what it admits, whatever messages a
server takes, and it keeps what admitted requests keep (`Server.keeps_after`); above all, its names
and link targets remain short (`Server.withinLimits_after`).
-/

namespace NfsServer

open Program

variable {now : Time}

namespace Nfs

/-- Whatever procedure is performed with arguments that have been read, the store is asked only for
what it admits. -/
theorem Procedure.asks_perform (verifier : FixedBytes 8) (p : Procedure) {args : p.Args}
    (hargs : p.argsFormat.Fits args) :
    (p.perform now verifier args).Asks Request.IsAdmitted := by
  have hresponding : ∀ {α : Type} {q : Program α}, q.Asks Request.IsAdmitted →
      q.responding.Asks Request.IsAdmitted :=
    fun h => h.bind fun _ => asks_pure _
  have hquery : p.IsQuery → (p.perform now verifier args).Asks Request.IsAdmitted :=
    fun hp => (p.asks_perform_of_isQuery hp verifier args).mono Request.KeepsStore.isAdmitted
  have hlook : ∀ {α : Type} {q : Program α}, q.Asks Request.IsLook →
      q.Asks Request.IsAdmitted :=
    fun h => h.mono fun hr => hr.isAdmitted
  cases p with
  | null | getAttributes | lookup | access | readLink | read | readDirectory | readDirectoryPlus
  | fileSystemSpace | fileSystemLimits | namingLimits | commit => exact hquery trivial
  | setAttributes =>
    exact hresponding (asks_setAttributes Request.IsLook.isAdmitted fun _ => trivial)
  | write => exact asks_write Request.IsLook.isAdmitted verifier fun _ => trivial
  | create => exact hresponding (asks_create args)
  | makeDirectory => exact hresponding (asks_makeDirectory args)
  -- Names are checked by the procedures; a link target is only as short as the message it came in.
  | makeSymlink => exact hresponding (asks_makeSymlink hargs.2.2)
  | makeNode => exact hresponding (hlook (asks_makeNode args))
  | remove => exact hresponding (asks_dropEntry args entryPath fun _ => trivial)
  | removeDirectory => exact hresponding (asks_dropEntry args removalPath fun _ => trivial)
  | rename => exact hresponding (asks_rename args)
  | makeLink => exact hresponding (hlook (asks_makeLink args))

end Nfs

namespace Rpc

theorem Procedure.asks_perform (verifier : FixedBytes 8) (exportName : Text) (p : Procedure)
    {args : p.Args} (hargs : p.argsFormat.Fits args) :
    (p.perform now verifier exportName args).Asks Request.IsAdmitted := by
  cases p with
  | nfs p => exact p.asks_perform verifier hargs
  | mount p =>
    exact ((p.asks_perform exportName args).mono Request.KeepsStore.isAdmitted).bind
      fun _ => asks_pure _

/-- The arguments of a call are within the limits of records. -/
theorem Call.fits_of_read? {policy : CredentialPolicy} {input : Bytes} {c : Call}
    (h : read? policy input = some c) : c.procedure.argsFormat.Fits c.arguments := by
  obtain ⟨_, _, _, -, -, hdecode⟩ := exists_read_of_read? h
  exact Format.fits_of_decode _ hdecode

end Rpc

namespace Server

open Rpc

section Keeps

variable {σ : Type} [Store σ] {s : Server σ} {Q : σ → Prop}

theorem keeps_take (hQ : Store.Keeps Q) (h : Q s.backend.store) (m : Incoming) :
    Q (s.take m).2.backend.store := by
  rw [backend_take]
  cases hcall : s.performed? m with
  | none => exact h
  | some c =>
    have hargs := Call.fits_of_read? (read?_of_performed? hcall)
    exact (c.procedure.asks_perform _ _ hargs).store_keeps hQ _ h

/-- Whatever the messages are, what admitted requests keep of a store is kept. -/
theorem keeps_after (hQ : Store.Keeps Q) (h : Q s.backend.store) (ms : List Incoming) :
    Q (s.after ms).backend.store := by
  induction ms generalizing s with
  | nil => exact h
  | cons m ms ih => exact ih (keeps_take hQ h m)

end Keeps

/-- Whatever the messages are, short names and link targets remain short. -/
theorem withinLimits_after {s : Server Memory} (h : s.backend.store.WithinLimits)
    (ms : List Incoming) : (s.after ms).backend.store.WithinLimits :=
  keeps_after Memory.keeps_withinLimits h ms

end Server

end NfsServer
