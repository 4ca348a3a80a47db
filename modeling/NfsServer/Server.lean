import NfsServer.Rpc.Admission
import NfsServer.Rpc.Dispatch
import NfsServer.Rpc.Retransmission

/-!
# The server

A `Server` is what it works on (`Backend`), the log of the calls that it has seen, and a
configuration that never changes.  `Server.callDuring` takes one message from a client and gives the
outcome and the server behind it; `Server.call` does so in no time.  A message either gets exactly
one reply or, if it repeats a call or cannot be read, nothing at all.
-/

namespace NfsServer

/-- What stays the same as long as a server runs. -/
structure ServerConfig where
  policy : Rpc.CredentialPolicy
  /-- The name by which clients mount the root directory of the store. -/
  exportName : Text
  /-- What tells this run of the server from others. -/
  writeVerifier : FixedBytes 8

/-- A server on a store of type `σ`. -/
structure Server (σ : Type) where
  config : ServerConfig
  backend : Backend σ
  calls : Rpc.CallLog

/-- The readings of the clock while a message is dealt with. -/
structure CallClock where
  /-- When it is compared with the calls seen before. -/
  arrived : Time
  /-- While its procedure is performed. -/
  performed : Time
  /-- When the call has been completed. -/
  completed : Time
  deriving DecidableEq, Repr

/-- The readings of a clock that stands still. -/
def CallClock.still (now : Time) : CallClock := ⟨now, now, now⟩

/-- What becomes of a message. -/
inductive CallOutcome
  /-- The client gets a reply. -/
  | reply (message : Bytes)
  /-- The message repeats a call and is dropped. -/
  | silent
  /-- The connection is closed. -/
  | closed (e : Rpc.CallError)
  deriving DecidableEq, Repr

namespace Server

variable {σ : Type}

/-- For how many nanoseconds completed calls are remembered. -/
def retention : Nat := 60 * 1000000000

/-- The server that has seen no call. -/
def start (config : ServerConfig) (backend : Backend σ) : Server σ :=
  ⟨config, backend, .empty retention⟩

/-- The reply to call `xid` of a procedure: a header, and the results if there are any. -/
def replyTo (xid : UInt32) (p : Rpc.Procedure) : Response p.Result → Bytes
  | .garbageArguments => encode (Rpc.Message.accepted xid .garbageArguments)
  | .results r => encode (Rpc.Message.accepted xid .success) ++ p.resultFormat.encode r

/-- Reads the arguments of a procedure and performs it.  Nothing is touched before all arguments
have been read. -/
def execute [Store σ] (s : Server σ) (now : Time) (xid : UInt32) (p : Rpc.Procedure)
    (arguments : Bytes) : CallOutcome × Backend σ :=
  match p.argsFormat.decode arguments with
  | .error e => (.closed (.undecodable e), s.backend)
  | .ok (args, _) =>
    let program := p.perform now s.config.writeVerifier s.config.exportName args
    let (response, backend) := program.run now s.backend
    (.reply (replyTo xid p response), backend)

/-- Answers a call that was let in and that is no repetition. -/
def answer [Store σ] (s : Server σ) (now : Time) (xid : UInt32) (header : Rpc.CallHeader)
    (arguments : Bytes) : CallOutcome × Backend σ :=
  match Rpc.Procedure.find header.program header.version header.procedure with
  | .error e => (.reply (encode (Rpc.Message.accepted xid e.status)), s.backend)
  | .ok p => s.execute now xid p arguments

/-- Takes a message from a client while the clock goes on. -/
def callDuring [Store σ] (s : Server σ) (clock : CallClock) (client : String) (input : Bytes) :
    CallOutcome × Server σ :=
  match Rpc.Arrival.read s.config.policy input with
  | .closed e => (.closed e, s)
  | .denied xid cause => (.reply (encode (Rpc.Message.denied xid cause)), s)
  | .call xid header arguments =>
    let key : Rpc.CallKey := ⟨xid, client⟩
    match s.calls.arrive clock.arrived key with
    | (true, calls) => (.silent, { s with calls })
    | (false, calls) =>
      let (outcome, backend) := s.answer clock.performed xid header arguments
      (outcome, { s with backend, calls := calls.complete clock.completed key })

/-- Takes a message from a client at one point in time. -/
def call [Store σ] (s : Server σ) (now : Time) (client : String) (input : Bytes) :
    CallOutcome × Server σ :=
  s.callDuring (.still now) client input

end Server

end NfsServer
