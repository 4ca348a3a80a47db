import NfsServer.Nfs.Attributes

/-!
# Time

A point in time is a number of nanoseconds since the epoch, which may be negative.  Clients see
32-bit seconds and nanoseconds: `Time.toNfs` clamps times before the epoch to the epoch and the
seconds of late times to the last that fit, and `Time.ofNfs` clamps the nanoseconds of clients to
less than a second.
-/

namespace NfsServer

/-- A point in time. -/
structure Time where
  /-- Nanoseconds since the epoch. -/
  nanoseconds : Int
  deriving DecidableEq, Repr

namespace Time

instance : LE Time := ⟨fun s t => s.nanoseconds ≤ t.nanoseconds⟩

instance (s t : Time) : Decidable (s ≤ t) := Int.decLe s.nanoseconds t.nanoseconds

/-- Nanoseconds in a second. -/
def second : Int := 1000000000

/-- The point that lies a number of seconds and nanoseconds behind the epoch. -/
def ofParts (seconds nanoseconds : Int) : Time := ⟨seconds * second + nanoseconds⟩

/-- Whole seconds since the epoch, rounded down. -/
def seconds (t : Time) : Int := t.nanoseconds / second

/-- Nanoseconds since the last whole second. -/
def subsecond (t : Time) : Int := t.nanoseconds % second

/-- A point in time as clients see it. -/
def toNfs (t : Time) : Nfs.NfsTime :=
  if t.nanoseconds < 0 then ⟨0, 0⟩
  else ⟨UInt32.ofNat (min t.seconds.toNat 0xFFFFFFFF), UInt32.ofNat t.subsecond.toNat⟩

/-- The point in time that a client means. -/
def ofNfs (t : Nfs.NfsTime) : Time :=
  ofParts t.seconds.toNat (min t.nanoseconds.toNat 999999999)

/-- The earliest point in time that a clock can show. -/
def earliest : Time := ofParts (-0x8000000000000000) 0

/-- The point that lies `duration` nanoseconds earlier, unless no clock can show it. -/
def before? (t : Time) (duration : Nat) : Option Time :=
  let s : Time := ⟨t.nanoseconds - duration⟩
  if s.nanoseconds < earliest.nanoseconds then none else some s

end Time

end NfsServer
