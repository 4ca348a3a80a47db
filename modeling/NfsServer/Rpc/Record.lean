import NfsServer.Wire.Format

/-!
# Records on a stream

A record travels on a byte stream as one or more fragments.  A fragment is a header of four bytes
and a payload; the header holds the length of the payload, and its top bit marks the last fragment
of a record.  `Record.frame` writes a record, and `Record.fragments` reads all that can be read from
a stream.
-/

namespace NfsServer.Rpc.Record

/-- The number that marks the last fragment in a header. -/
def lastMark : Nat := 0x80000000

/-- The longest payload of a fragment. -/
def maxFragment : Nat := 0x7FFFFFFF

/-- The header of a fragment. -/
def header (isLast : Bool) (length : Nat) : Bytes :=
  Bytes.bigEndian 4 (if isLast then lastMark + length else length)

/-- A record as a sequence of fragments, of which only the last may be shorter than
`maxFragment`. -/
def frame (record : Bytes) : Bytes :=
  if record.length ≤ maxFragment then header true record.length ++ record
  else header false maxFragment ++ record.take maxFragment ++ frame (record.drop maxFragment)
termination_by record.length
decreasing_by simp only [List.length_drop, maxFragment] at *; omega

/-! ### Reading -/

/-- Why nothing more can be read from a stream. -/
inductive FramingError
  /-- The stream ends where a header or a payload should go on. -/
  | endOfStream
  /-- A fragment would make its record longer than records may be. -/
  | recordTooLong (length : Nat)
  deriving DecidableEq, Repr

/-- The wording of an error. -/
def FramingError.message : FramingError → String
  | endOfStream => "early eof"
  | recordTooLong length => s!"RPC record length {length} exceeds max {maxRecordLength}"

/-- Reads a fragment behind the fragments of the same record that have been read before: whether it
is the last, the record so far, and the rest of the stream. -/
def readFragment (record stream : Bytes) : Except FramingError (Bool × Bytes × Bytes) :=
  match Bytes.split? 4 stream with
  | none => .error .endOfStream
  | some (head, rest) =>
    let word := Bytes.toNat head
    let length := word % lastMark
    if maxRecordLength < record.length + length then
      .error (.recordTooLong (record.length + length))
    else match Bytes.split? length rest with
      | none => .error .endOfStream
      | some (payload, rest) => .ok (decide (lastMark ≤ word), record ++ payload, rest)

theorem readFragment_length {record stream record' rest : Bytes} {isLast : Bool}
    (h : readFragment record stream = .ok (isLast, record', rest)) :
    rest.length < stream.length := by
  unfold readFragment at h
  split at h
  · cases h
  · next head tail hhead =>
    obtain ⟨rfl, hlen⟩ := Bytes.split?_eq_some_iff.1 hhead
    dsimp only at h
    split at h
    · cases h
    · split at h
      · cases h
      · next payload tail' hpayload =>
        obtain ⟨rfl, -⟩ := Bytes.split?_eq_some_iff.1 hpayload
        obtain ⟨-, -, rfl⟩ := by simpa using h
        simp only [List.length_append]
        omega

/-- Reads fragments until nothing more can be read.  For each fragment there is the record that it
completes, if it is the last of one; `seen` holds what has been read before, the last one first. -/
def fragmentsFrom (seen : List (Option Bytes)) (record stream : Bytes) :
    List (Option Bytes) × FramingError :=
  match _h : readFragment record stream with
  | .error e => (seen.reverse, e)
  | .ok (true, record, rest) => fragmentsFrom (some record :: seen) [] rest
  | .ok (false, record, rest) => fragmentsFrom (none :: seen) record rest
termination_by stream.length
decreasing_by all_goals exact readFragment_length _h

/-- The fragments of a stream, with the records that they complete, and why reading ends. -/
def fragments (stream : Bytes) : List (Option Bytes) × FramingError :=
  fragmentsFrom [] [] stream

end NfsServer.Rpc.Record
