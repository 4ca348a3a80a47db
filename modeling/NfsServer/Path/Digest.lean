import NfsServer.Path.Basic

/-!
# Digests

SipHash-1-3 is a keyed hash function with one mixing round for each word of the message and three at
its end; here it is used under the zero key.  With it every place has a number (`Location.digest`),
the same for all spellings of a path, which stands in for the identity of an object when a store has
none of its own.
-/

namespace NfsServer

namespace SipHash

/-- The internal state. -/
structure State where
  v0 : UInt64
  v1 : UInt64
  v2 : UInt64
  v3 : UInt64
  deriving DecidableEq, Repr

/-- The bits of a word moved up by `n` places, those past the top coming back in at the bottom. -/
def rotate (w : UInt64) (n : UInt64) : UInt64 := (w <<< n) ||| (w >>> (64 - n))

namespace State

/-- The state under the zero key. -/
def start : State :=
  ⟨0x736f6d6570736575, 0x646f72616e646f6d, 0x6c7967656e657261, 0x7465646279746573⟩

/-- One mixing round. -/
def round (s : State) : State :=
  let v0 := s.v0 + s.v1
  let v1 := rotate s.v1 13 ^^^ v0
  let v0 := rotate v0 32
  let v2 := s.v2 + s.v3
  let v3 := rotate s.v3 16 ^^^ v2
  let v0 := v0 + v3
  let v3 := rotate v3 21 ^^^ v0
  let v2 := v2 + v1
  let v1 := rotate v1 17 ^^^ v2
  let v2 := rotate v2 32
  ⟨v0, v1, v2, v3⟩

/-- Takes in a word of the message. -/
def absorb (s : State) (w : UInt64) : State :=
  let t := ({ s with v3 := s.v3 ^^^ w } : State).round
  { t with v0 := t.v0 ^^^ w }

/-- The digest, once the whole message has been taken in. -/
def digest (s : State) : UInt64 :=
  let t := ({ s with v2 := s.v2 ^^^ 0xff } : State).round.round.round
  t.v0 ^^^ t.v1 ^^^ t.v2 ^^^ t.v3

end State

/-- The word that at most eight bytes spell, the least significant first. -/
def word (bs : Bytes) : UInt64 :=
  bs.foldr (fun b w => (w <<< 8) ||| b.toUInt64) 0

/-- Takes in the words of a message; the last word holds the bytes left over and the length. -/
def absorbAll (length : Nat) : State → Bytes → State
  | s, a :: b :: c :: d :: e :: f :: g :: h :: rest =>
    absorbAll length (s.absorb (word [a, b, c, d, e, f, g, h])) rest
  | s, tail => s.absorb (word tail ||| (UInt64.ofNat length <<< 56))

/-- The digest of a message. -/
def hash (bs : Bytes) : UInt64 := (absorbAll bs.length .start bs).digest

end SipHash

namespace Location

/-- A word that depends on where the components of a place are cut. -/
def cuts (l : Location) : UInt64 :=
  l.foldl (fun w c => match c with
    | .root => w
    | _ => SipHash.rotate (w + UInt64.ofNat c.bytes.length) 62) 0

/-- The message that stands for a place. -/
def message (l : Location) : Bytes :=
  l.flatMap Component.bytes ++ Bytes.littleEndian 8 l.cuts.toNat

/-- The digest of a place. -/
def digest (l : Location) : UInt64 := SipHash.hash l.message

end Location

end NfsServer
