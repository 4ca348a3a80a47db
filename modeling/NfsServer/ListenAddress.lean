import NfsServer.Text.Utf8

/-!
# Addresses to listen on

An address is a host and a port with a colon between them.  A server that may choose its host itself
tries the numbered loopback hosts of `hostAddress`.
-/

namespace NfsServer

/-- A host and a port. -/
structure ListenAddress where
  host : Text
  port : Nat
  deriving DecidableEq, Repr

namespace ListenAddress

/-- Why an address is refused. -/
inductive AddressError
  | missingColon
  | badPort
  deriving DecidableEq, Repr

/-- The wording of a refusal. -/
def AddressError.message : AddressError → String
  | missingColon => "IP Address must be of form ip:port"
  | badPort => "Port not in range 0..=65535"

/-- The highest port. -/
def maxPort : Nat := 65535

/-- The number that decimal digits spell, if there are only digits. -/
def digitsValue (digits : Text) : Option Nat :=
  digits.foldl (fun n c => n.bind fun n =>
    if '0' ≤ c ∧ c ≤ '9' then some (n * 10 + (c.toNat - '0'.toNat)) else none) (some 0)

/-- The port that a text names: decimal digits, which a plus sign may precede. -/
def port? (text : Text) : Option Nat :=
  let digits := match text with
    | '+' :: rest => rest
    | rest => rest
  if digits = [] then none else (digitsValue digits).filter (· ≤ maxPort)

/-- Reads an address; the first colon ends the host. -/
def parse (text : Text) : Except AddressError ListenAddress :=
  match text.span (· ≠ ':') with
  | (_, []) => .error .missingColon
  | (host, _ :: rest) =>
    match port? rest with
    | some port => .ok ⟨host, port⟩
    | none => .error .badPort

/-- The loopback host with a number. -/
def hostAddress (n : UInt16) : String :=
  let high := n.toNat / 256
  let low := n.toNat % 256
  s!"127.88.{high}.{low}"

end ListenAddress

end NfsServer
