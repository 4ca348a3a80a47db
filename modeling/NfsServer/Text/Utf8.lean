import NfsServer.Bytes

/-!
# UTF-8

Text is a list of characters, and UTF-8 spells it in bytes (`Utf8.encode`).  Reading (`Utf8.scan`)
is a left fold over the bytes that keeps the sequence under way (`Utf8.Sequence`).  A byte that
cannot continue the sequence ends it, and the bytes read of it so far are one ill-formed part; this
cuts ill-formed input into its longest beginnings of well-formed sequences, and `Utf8.lossy` puts
one replacement character for each of these parts.
-/

namespace NfsServer

/-- A text, as the list of its characters. -/
abbrev Text := List Char

namespace Utf8

/-- The spelling of a text. -/
def encode (cs : Text) : Bytes := cs.flatMap String.utf8EncodeChar

/-- A sequence that has begun: how many bytes it still lacks, the range of the next of them, and the
bits read so far. -/
structure Sequence where
  missing : Nat
  low : UInt8
  high : UInt8
  bits : Nat
  deriving DecidableEq, Repr

/-- What a byte is at the start of a sequence. -/
inductive Lead
  /-- A character of its own. -/
  | single
  /-- The start of a sequence of several bytes. -/
  | start (s : Sequence)
  /-- No start of a sequence. -/
  | stray
  deriving DecidableEq, Repr

/-- Tells the lead bytes apart.  The range of the second byte leaves out spellings that are longer
than needed, surrogates, and code points past the last. -/
def lead (b : UInt8) : Lead :=
  if b < 0x80 then .single
  else if b < 0xC2 then .stray
  else if b < 0xE0 then .start ⟨1, 0x80, 0xBF, b.toNat - 0xC0⟩
  else if b = 0xE0 then .start ⟨2, 0xA0, 0xBF, 0⟩
  else if b = 0xED then .start ⟨2, 0x80, 0x9F, 0xD⟩
  else if b < 0xF0 then .start ⟨2, 0x80, 0xBF, b.toNat - 0xE0⟩
  else if b = 0xF0 then .start ⟨3, 0x90, 0xBF, 0⟩
  else if b < 0xF4 then .start ⟨3, 0x80, 0xBF, b.toNat - 0xF0⟩
  else if b = 0xF4 then .start ⟨3, 0x80, 0x8F, 4⟩
  else .stray

/-- How far reading has come: the parts behind, the last one first, where nothing stands for an
ill-formed part, and the sequence under way. -/
structure Progress where
  parts : List (Option Char)
  pending : Option Sequence
  deriving DecidableEq, Repr

namespace Progress

/-- Reads a byte at the start of a sequence. -/
def begin (parts : List (Option Char)) (b : UInt8) : Progress :=
  match lead b with
  | .single => ⟨some (Char.ofNat b.toNat) :: parts, none⟩
  | .start s => ⟨parts, some s⟩
  | .stray => ⟨none :: parts, none⟩

/-- Reads a byte. -/
def step (p : Progress) (b : UInt8) : Progress :=
  match p.pending with
  | none => begin p.parts b
  | some s =>
    if s.low ≤ b ∧ b ≤ s.high then
      let bits := s.bits * 64 + (b.toNat - 0x80)
      if s.missing ≤ 1 then ⟨some (Char.ofNat bits) :: p.parts, none⟩
      else ⟨p.parts, some ⟨s.missing - 1, 0x80, 0xBF, bits⟩⟩
    else begin (none :: p.parts) b

/-- The parts when nothing more follows. -/
def finish (p : Progress) : List (Option Char) :=
  match p.pending with
  | none => p.parts.reverse
  | some _ => (none :: p.parts).reverse

end Progress

/-- The characters of a byte string, with nothing for each ill-formed part. -/
def scan (bs : Bytes) : List (Option Char) :=
  (bs.foldl Progress.step ⟨[], none⟩).finish

/-- Whether a byte string spells a text. -/
def isValid (bs : Bytes) : Bool := (scan bs).all Option.isSome

/-- The text of a byte string, with U+FFFD for each ill-formed part. -/
def lossy (bs : Bytes) : Text := (scan bs).map (·.getD '\uFFFD')

end Utf8

end NfsServer
