import NfsServer.Rpc.Record
import NfsServer.Server

/-!
# Connections

A client sends records on a stream, each of which holds one message.  `Server.serve` takes all that
a client sends on a connection and gives what happens on it, in order (`ConnectionEvent`).
-/

namespace NfsServer

/-- What happens on a connection. -/
inductive ConnectionEvent
  /-- A fragment has been read. -/
  | received
  /-- A reply goes out as one record. -/
  | replied (record : Bytes)
  /-- A message turns out to close the connection. -/
  | closed (e : Rpc.CallError)
  /-- Nothing more can be read. -/
  | ended (e : Rpc.Record.FramingError)
  deriving DecidableEq, Repr

/-- What the client notices of the outcome of a call. -/
def CallOutcome.events : CallOutcome → List ConnectionEvent
  | reply message => [.replied (Rpc.Record.frame message)]
  | silent => []
  | closed e => [.closed e]

namespace Server

variable {σ : Type} [Store σ]

/-- Takes the fragments of a stream, with the records that they complete; `seen` holds what has
happened before, the last event first. -/
def serveFragments (now : Time) (client : String) (s : Server σ) (seen : List ConnectionEvent) :
    List (Option Bytes) → List ConnectionEvent × Server σ
  | [] => (seen.reverse, s)
  | none :: rest => serveFragments now client s (.received :: seen) rest
  | some record :: rest =>
    let (outcome, s) := s.call now client record
    serveFragments now client s (outcome.events.reverse ++ .received :: seen) rest

/-- Takes all that a client sends on a connection. -/
def serve (s : Server σ) (now : Time) (client : String) (stream : Bytes) :
    List ConnectionEvent × Server σ :=
  let (fragments, e) := Rpc.Record.fragments stream
  let (events, s) := serveFragments now client s [] fragments
  (events ++ [.ended e], s)

end Server

end NfsServer
