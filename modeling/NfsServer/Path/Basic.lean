import NfsServer.Text.Utf8

/-!
# Paths

A path is written as bytes in which slashes separate components (`Path`), and it names the place
that its components lead to (`Path.location`).  Repeated slashes and `.` components do not count,
except for a leading `.` of a relative path; `..` is a component of its own and is never resolved.
Two paths name the same place when their locations are equal, whatever their spelling.

`Path.parent?` and `Path.child` work on the spelling, since a path is shown as it was written.
`Path.entry` is the only way from a name that a client sent to a path: it refuses every name that
would lead out of the directory.
-/

namespace NfsServer

/-- A path as it is written. -/
structure Path where
  text : Bytes
  deriving DecidableEq, Repr

/-- A step on the way to a place. -/
inductive Component
  /-- The root directory. -/
  | root
  /-- The directory in which a relative path starts. -/
  | here
  /-- The directory above. -/
  | up
  /-- The entry of that name. -/
  | name (bytes : Bytes)
  deriving DecidableEq, Repr

/-- A place: the components that lead to it. -/
abbrev Location := List Component

namespace Component

/-- The bytes of a component; the root has none. -/
def bytes : Component → Bytes
  | root => []
  | here => [0x2E]
  | up => [0x2E, 0x2E]
  | name bs => bs

end Component

namespace Location

/-- The root directory. -/
def root : Location := [.root]

/-- The place one component less deep; the root and the empty path have none. -/
def parent? (l : Location) : Option Location :=
  match l.getLast? with
  | none | some .root => none
  | some _ => some l.dropLast

/-- The last component, if it is a name. -/
def fileName? (l : Location) : Option Bytes :=
  match l.getLast? with
  | some (.name bs) => some bs
  | _ => none

end Location

namespace Path

/-- The byte between components. -/
def slash : UInt8 := 0x2F

/-- The byte of which dot entries consist. -/
def dot : UInt8 := 0x2E

/-- The root directory. -/
def root : Path := ⟨[slash]⟩

/-- The pieces between slashes, of which there is always at least one. -/
def segments (bs : Bytes) : List Bytes :=
  bs.foldr (fun b segs =>
    if b = slash then [] :: segs
    else match segs with
      | s :: rest => (b :: s) :: rest
      | [] => [[b]]) [[]]

/-- The bytes with a slash between each two pieces. -/
def joinSegments (segs : List Bytes) : Bytes := [slash].intercalate segs

/-- Whether a piece between slashes is no component. -/
def isVoid (segment : Bytes) : Bool := segment = [] || segment = [dot]

/-- The component that a piece between slashes is. -/
def component (segment : Bytes) : Component :=
  if segment = [dot, dot] then .up else .name segment

/-- The components that pieces between slashes make up. -/
def components (segs : List Bytes) : Location :=
  (segs.filter fun s => !isVoid s).map component

/-- The place that a path names. -/
def location (p : Path) : Location :=
  match p.text with
  | [] => []
  | b :: rest =>
    if b = slash then .root :: components (segments rest)
    else
      match segments (b :: rest) with
      | first :: others => if first = [dot] then .here :: components others
          else components (first :: others)
      | [] => []

/-- Whether two paths name the same place. -/
def SamePlace (p q : Path) : Prop := p.location = q.location

instance (p q : Path) : Decidable (SamePlace p q) := inferInstanceAs (Decidable (_ = _))

/-- The text of a path cut behind what stands for the root or for a leading dot. -/
def splitHead (text : Bytes) : Bytes × Bytes :=
  match text with
  | [] => ([], [])
  | b :: rest =>
    if b = slash then ([slash], rest)
    else if b = dot ∧ (rest = [] ∨ rest.head? = some slash) then ([dot], rest)
    else ([], b :: rest)

/-- The path without its last component and what separates it; the root and the empty path have no
last component to lose. -/
def parent? (p : Path) : Option Path :=
  let (head, body) := splitHead p.text
  match (segments body).reverse.dropWhile isVoid with
  | [] => if head = [dot] then some ⟨[]⟩ else none
  | _ :: before => some ⟨head ++ joinSegments (before.dropWhile isVoid).reverse⟩

/-- The path of the directory that holds a place; the root holds itself. -/
def parent (p : Path) : Path := p.parent?.getD p

/-- The path of an entry of a directory. -/
def child (p : Path) (name : Bytes) : Path :=
  if p.text = [] ∨ p.text.getLast? = some slash then ⟨p.text ++ name⟩
  else ⟨p.text ++ slash :: name⟩

/-- The last component, if it is a name. -/
def fileName? (p : Path) : Option Bytes := p.location.fileName?

end Path

/-! ### Names of entries -/

/-- Why a name cannot be an entry of a directory. -/
inductive NameError
  /-- The name is empty, a dot entry, or holds a slash. -/
  | malformed
  /-- The name is not UTF-8. -/
  | notText
  deriving DecidableEq, Repr

/-- The wording of the refusal of a name. -/
def NameError.message : NameError → String
  | malformed => "invalid file name"
  | notText => "file name is not UTF-8"

namespace Path

/-- The path of the entry `name` of a directory. -/
def entry (directory : Path) (name : Bytes) : Except NameError Path :=
  if name = [] ∨ name = [dot] ∨ name = [dot, dot] ∨ slash ∈ name then .error .malformed
  else if !Utf8.isValid name then .error .notText
  else .ok (directory.child name)

end Path

end NfsServer
