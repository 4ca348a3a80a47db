import NfsServer.Bytes

/-!
# Wire formats

A `Format α` describes how the values of `α` are spelled on the wire.  Every item is big-endian and
takes a multiple of four bytes; data of other lengths is followed by padding.  Two functions read
one description: `Format.encode` writes a value, and `Format.decode` reads one from the front of a
byte string and hands back the rest, or says why it cannot (`DecodeError`).

Descriptions are data, so that a statement about all formats is one induction on `Format`.
Structures and sums get theirs from pairs and tagged unions through `Format.via`, which carries the
proof that nothing is lost on the way.  A sum is described by an enumeration of its kinds, by what a
value of each kind carries (`payload`), and by the two ways between a value and its kind with what
it carries (`toTagged`, `ofTagged`).
-/

namespace NfsServer

/-- Why a byte string does not start with a value of the expected format. -/
inductive DecodeError
  /-- The input ends inside the value. -/
  | truncated
  /-- A truth value is neither 0 nor 1. -/
  | notBoolean
  /-- A number names no member of an enumeration. -/
  | notMember
  /-- A number selects no arm of the union that the text describes. -/
  | noSuchArm (union : String) (number : UInt32)
  /-- A length word announces more data than a record can hold. -/
  | dataTooLong
  /-- A count word announces more words than a record can hold. -/
  | arrayTooLong
  deriving DecidableEq, Repr

namespace DecodeError

/-- The wording of an error; input that ends early is reported without words. -/
def message? : DecodeError → Option String
  | truncated => none
  | notBoolean => some "Invalid value for bool enum"
  | notMember => some "Invalid enum value"
  | noSuchArm union number => some s!"Invalid {union}: {number}"
  | dataTooLong => some "opaque length exceeds record limit"
  | arrayTooLong => some "array length exceeds record limit"

end DecodeError

/-- A finite type whose members have numbers on the wire and names in the definition of the
protocol. -/
class Enumeration (α : Type) where
  /-- Every member once. -/
  members : List α
  /-- The number that stands for a member. -/
  number : α → UInt32
  /-- The name of a member in the definition of the protocol. -/
  symbol : α → String
  /-- Searching for the number of a member finds that member. -/
  find_number : ∀ a, members.find? (fun b => number b == number a) = some a

/-- The member that a number stands for. -/
def Enumeration.ofNumber? (α : Type) [Enumeration α] (n : UInt32) : Option α :=
  (members : List α).find? (fun a => number a == n)

theorem Enumeration.ofNumber?_eq_some_iff {α : Type} [Enumeration α] {n : UInt32} {a : α} :
    ofNumber? α n = some a ↔ number a = n := by
  constructor
  · intro h
    simpa using List.find?_some h
  · rintro rfl
    exact find_number a

/-- The largest record a peer may send, and so the longest data inside one. -/
def maxRecordLength : Nat := 4 * 1024 * 1024

/-- How the values of a type are spelled on the wire. -/
inductive Format : Type → Type 1
  /-- Nothing at all. -/
  | void : Format Unit
  /-- A 32-bit number. -/
  | word : Format UInt32
  /-- A 64-bit number. -/
  | hyper : Format UInt64
  /-- A truth value, as the word 0 or 1. -/
  | boolean : Format Bool
  /-- A member of an enumeration, as its number; the second argument says how to refuse others. -/
  | member (α : Type) [Enumeration α] (refusal : UInt32 → DecodeError) : Format α
  /-- Exactly `n` bytes and their padding. -/
  | fixedData (n : Nat) : Format (FixedBytes n)
  /-- A length word, that many bytes, and their padding. -/
  | varData : Format Bytes
  /-- A count word and that many words. -/
  | words : Format (List UInt32)
  /-- A truth value, and the value itself if there is one. -/
  | optional {α : Type} : Format α → Format (Option α)
  /-- A list in which every element follows the word 1, closed by the word 0. -/
  | chain {α : Type} : Format α → Format (List α)
  /-- One value after another. -/
  | pair {α β : Type} : Format α → Format β → Format (α × β)
  /-- A tag and the value whose format the tag selects. -/
  | tagged {τ : Type} {β : τ → Type} :
      Format τ → ((t : τ) → Format (β t)) → Format ((t : τ) × β t)
  /-- The format of `α` for the values of `β`, which correspond to those of `α`. -/
  | via {α β : Type} (f : α → β) (g : β → α) (right : ∀ b, f (g b) = b) (left : ∀ a, g (f a) = a) :
      Format α → Format β

namespace Format

/-- How many bytes of padding follow `n` bytes of data. -/
def padding (n : Nat) : Nat := (4 - n % 4) % 4

/-- Data followed by its zero padding. -/
def pad (bs : Bytes) : Bytes := bs ++ List.replicate (padding bs.length) 0

/-! ### Writing -/

/-- The spelling of a value. -/
def encode : {α : Type} → Format α → α → Bytes
  | _, void, _ => []
  | _, word, w => Bytes.bigEndian 4 w.toNat
  | _, hyper, w => Bytes.bigEndian 8 w.toNat
  | _, boolean, b => Bytes.bigEndian 4 b.toNat
  | _, member _ _, a => Bytes.bigEndian 4 (Enumeration.number a).toNat
  | _, fixedData _, bs => pad bs.val
  | _, varData, bs => Bytes.bigEndian 4 bs.length ++ pad bs
  | _, words, ws => Bytes.bigEndian 4 ws.length ++ ws.flatMap fun w => Bytes.bigEndian 4 w.toNat
  | _, optional f, v =>
    match v with
    | none => Bytes.bigEndian 4 0
    | some a => Bytes.bigEndian 4 1 ++ f.encode a
  | _, chain f, vs => vs.flatMap (fun a => Bytes.bigEndian 4 1 ++ f.encode a) ++ Bytes.bigEndian 4 0
  | _, pair f g, v => f.encode v.1 ++ g.encode v.2
  | _, tagged tag arms, v => tag.encode v.1 ++ (arms v.1).encode v.2
  | _, via _ g _ _ f, b => f.encode (g b)

/-! ### Reading -/

/-- What reading gives: a value and the bytes behind it. -/
abbrev Decoded (α : Type) := Except DecodeError (α × Bytes)

/-- Reads exactly `n` bytes. -/
def decodeExact (n : Nat) (bs : Bytes) : Decoded Bytes :=
  match Bytes.split? n bs with
  | some front => .ok front
  | none => .error .truncated

/-- Reads a big-endian number of `n` bytes. -/
def decodeNumber (n : Nat) (bs : Bytes) : Decoded Nat :=
  match decodeExact n bs with
  | .ok (front, rest) => .ok (Bytes.toNat front, rest)
  | .error e => .error e

/-- Reads `n` bytes and skips their padding, whatever it holds. -/
def decodePadded (n : Nat) (bs : Bytes) : Decoded Bytes :=
  match decodeExact n bs with
  | .error e => .error e
  | .ok (front, rest) =>
    match decodeExact (padding n) rest with
    | .error e => .error e
    | .ok (_, rest) => .ok (front, rest)

/-- Reads a truth value. -/
def decodeBoolean (bs : Bytes) : Decoded Bool :=
  match decodeNumber 4 bs with
  | .error e => .error e
  | .ok (0, rest) => .ok (false, rest)
  | .ok (1, rest) => .ok (true, rest)
  | .ok (_, _) => .error .notBoolean

/-- Reads `n` words behind those already read, the last one first. -/
def decodeWords : Nat → List UInt32 → Bytes → Decoded (List UInt32)
  | 0, seen, bs => .ok (seen.reverse, bs)
  | n + 1, seen, bs =>
    match decodeNumber 4 bs with
    | .error e => .error e
    | .ok (w, rest) => decodeWords n (UInt32.ofNat w :: seen) rest

/-- Reads the rest of a chain behind the elements already read, the last one first.  Every element
takes at least the four bytes of its flag, so that the number of bytes bounds the number of
rounds. -/
def decodeChain {α : Type} (element : Bytes → Decoded α) : Nat → List α → Bytes → Decoded (List α)
  | 0, _, _ => .error .truncated
  | rounds + 1, seen, bs =>
    match decodeBoolean bs with
    | .error e => .error e
    | .ok (false, rest) => .ok (seen.reverse, rest)
    | .ok (true, rest) =>
      match element rest with
      | .error e => .error e
      | .ok (a, rest) => decodeChain element rounds (a :: seen) rest

/-- Reads a value from the front of a byte string. -/
def decode : {α : Type} → Format α → Bytes → Decoded α
  | _, void, bs => .ok ((), bs)
  | _, word, bs =>
    match decodeNumber 4 bs with
    | .error e => .error e
    | .ok (n, rest) => .ok (UInt32.ofNat n, rest)
  | _, hyper, bs =>
    match decodeNumber 8 bs with
    | .error e => .error e
    | .ok (n, rest) => .ok (UInt64.ofNat n, rest)
  | _, boolean, bs => decodeBoolean bs
  | _, member α refusal, bs =>
    match decodeNumber 4 bs with
    | .error e => .error e
    | .ok (n, rest) =>
      match Enumeration.ofNumber? α (UInt32.ofNat n) with
      | some a => .ok (a, rest)
      | none => .error (refusal (UInt32.ofNat n))
  | _, fixedData n, bs =>
    match decodePadded n bs with
    | .error e => .error e
    | .ok (front, rest) =>
      if h : front.length = n then .ok (⟨front, h⟩, rest) else .error .truncated
  | _, varData, bs =>
    match decodeNumber 4 bs with
    | .error e => .error e
    | .ok (n, rest) => if maxRecordLength < n then .error .dataTooLong else decodePadded n rest
  | _, words, bs =>
    match decodeNumber 4 bs with
    | .error e => .error e
    | .ok (n, rest) =>
      if maxRecordLength / 4 < n then .error .arrayTooLong else decodeWords n [] rest
  | _, optional f, bs =>
    match decodeBoolean bs with
    | .error e => .error e
    | .ok (false, rest) => .ok (none, rest)
    | .ok (true, rest) =>
      match f.decode rest with
      | .error e => .error e
      | .ok (a, rest) => .ok (some a, rest)
  | _, chain f, bs => decodeChain f.decode (bs.length + 1) [] bs
  | _, pair f g, bs =>
    match f.decode bs with
    | .error e => .error e
    | .ok (a, rest) =>
      match g.decode rest with
      | .error e => .error e
      | .ok (b, rest) => .ok ((a, b), rest)
  | _, tagged tag arms, bs =>
    match tag.decode bs with
    | .error e => .error e
    | .ok (t, rest) =>
      match (arms t).decode rest with
      | .error e => .error e
      | .ok (b, rest) => .ok (⟨t, b⟩, rest)
  | _, via f _ _ _ inner, bs =>
    match inner.decode bs with
    | .error e => .error e
    | .ok (a, rest) => .ok (f a, rest)

/-! ### Shorthands -/

/-- A member of an enumeration that is a value of its own. -/
def enumerator (α : Type) [Enumeration α] : Format α :=
  member α fun _ => .notMember

/-- A member of an enumeration that selects the arm of a union. -/
def discriminant (α : Type) [Enumeration α] (union : String) : Format α :=
  member α (.noSuchArm union)

end Format

/-- The types that have a wire format of their own. -/
class Wire (α : Type) where
  /-- The format of the type. -/
  format : Format α

/-- The spelling of a value in the format of its type. -/
def encode {α : Type} [Wire α] (a : α) : Bytes := Wire.format.encode a

/-- Reads a value in the format of its type. -/
def decode (α : Type) [Wire α] (bs : Bytes) : Format.Decoded α := Wire.format.decode bs

instance : Wire Unit := ⟨.void⟩
instance : Wire UInt32 := ⟨.word⟩
instance : Wire UInt64 := ⟨.hyper⟩
instance : Wire Bool := ⟨.boolean⟩
instance : Wire Bytes := ⟨.varData⟩
instance : Wire (List UInt32) := ⟨.words⟩
instance {n : Nat} : Wire (FixedBytes n) := ⟨.fixedData n⟩
instance {α : Type} [Wire α] : Wire (Option α) := ⟨.optional Wire.format⟩
instance {α β : Type} [Wire α] [Wire β] : Wire (α × β) := ⟨.pair Wire.format Wire.format⟩

/-- Signed 32-bit numbers are spelled as the words with the same bits. -/
instance : Wire Int32 :=
  ⟨.via UInt32.toInt32 Int32.toUInt32 (fun _ => rfl) (fun _ => rfl) .word⟩

end NfsServer
