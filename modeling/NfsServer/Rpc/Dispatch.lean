import NfsServer.Mount.Procedure
import NfsServer.Nfs.Procedure
import NfsServer.Rpc.Message

/-!
# Dispatch

The procedures of both services in one table: which one a call is for (`Procedure.find`), why a call
is for none (`DispatchError`), and what each one takes, does and gives.
-/

namespace NfsServer.Rpc

/-- The procedures of all services. -/
inductive Procedure
  | nfs (p : Nfs.Procedure)
  | mount (p : Mount.Procedure)
  deriving DecidableEq, Repr

/-- Why a call is for no procedure. -/
inductive DispatchError
  | programUnavailable
  | programMismatch (supported : VersionRange)
  | procedureUnavailable
  deriving DecidableEq, Repr

/-- The status that tells the caller. -/
def DispatchError.status : DispatchError → AcceptStatus
  | programUnavailable => .programUnavailable
  | programMismatch supported => .programMismatch supported
  | procedureUnavailable => .procedureUnavailable

namespace Procedure

/-! ### Finding a procedure -/

/-- The versions of both services that there are. -/
def versions : VersionRange := ⟨3, 3⟩

/-- Finds a procedure of a service by version and number. -/
def select {α : Type} [Enumeration α] (wrap : α → Procedure) (version number : UInt32) :
    Except DispatchError Procedure :=
  if version < versions.low ∨ versions.high < version then .error (.programMismatch versions)
  else match Enumeration.ofNumber? α number with
    | some p => .ok (wrap p)
    | none => .error .procedureUnavailable

/-- Finds the procedure of a call by the numbers of its service, version and procedure. -/
def find (program version number : UInt32) : Except DispatchError Procedure :=
  if program = Nfs.Procedure.program then select nfs version number
  else if program = Mount.Procedure.program then select mount version number
  else .error .programUnavailable

/-! ### What a procedure takes, does and gives -/

/-- The arguments of a procedure. -/
abbrev Args : Procedure → Type
  | nfs p => p.Args
  | mount p => p.Args

/-- The results of a procedure. -/
abbrev Result : Procedure → Type
  | nfs p => p.Result
  | mount p => p.Result

/-- The format of the arguments of a procedure. -/
def argsFormat : (p : Procedure) → Format p.Args
  | nfs p => p.argsFormat
  | mount p => p.argsFormat

/-- The format of the results of a procedure. -/
def resultFormat : (p : Procedure) → Format p.Result
  | nfs p => p.resultFormat
  | mount p => p.resultFormat

/-- The program of a procedure on a server with the given write verifier and export name. -/
def perform (now : Time) (verifier : FixedBytes 8) (exportName : Text) :
    (p : Procedure) → p.Args → Program (Response p.Result)
  | nfs p, args => p.perform now verifier args
  | mount p, args => (p.perform exportName args).responding

end Procedure

end NfsServer.Rpc
