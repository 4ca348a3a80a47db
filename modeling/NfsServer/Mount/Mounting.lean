import NfsServer.Mount.Message
import NfsServer.Nfs.Conversion
import NfsServer.Rpc.Message

/-!
# Mounting

Clients name directories by paths that begin with the name of the export; slashes and white space at
the ends of what follows do not count (`Export.relative?`).  Mounting answers with the handle of the
directory and tells listeners.  Mounts are not recorded: unmounting only tells listeners, and the
list of mounts is always empty.
-/

namespace NfsServer

namespace Text

/-- The text without the characters at its end that satisfy `p`. -/
def trimEnd (p : Char → Bool) (cs : Text) : Text := (cs.reverse.dropWhile p).reverse

/-- The text without the characters at both of its ends that satisfy `p`. -/
def trim (p : Char → Bool) (cs : Text) : Text := trimEnd p (cs.dropWhile p)

/-- Whether a character is white space. -/
def isBlank (c : Char) : Bool :=
  let n := c.toNat
  (0x09 ≤ n && n ≤ 0x0D) || n = 0x20 || n = 0x85 || n = 0xA0 || n = 0x1680 ||
    (0x2000 ≤ n && n ≤ 0x200A) || n = 0x2028 || n = 0x2029 || n = 0x202F || n = 0x205F ||
    n = 0x3000

end Text

namespace Mount

/-! ### The exported directory -/

namespace Export

/-- Whether a character is the separator of path components. -/
def isSlash (c : Char) : Bool := c = '/'

/-- The text behind a beginning, if the text has that beginning. -/
def stripStart? (beginning text : Text) : Option Text :=
  if beginning.isPrefixOf text then some (text.drop beginning.length) else none

/-- The path of what follows the name of the export: slashes at both ends, and then white space at
both ends, do not count. -/
def insidePath (rest : Text) : Path :=
  ⟨Utf8.encode ('/' :: Text.trim Text.isBlank (Text.trim isSlash rest))⟩

/-- The path inside the store that a client means by `name`, if it lies in the export. -/
def relative? (exported name : Text) : Option Path :=
  match stripStart? (Text.trimEnd isSlash exported) name with
  | none => none
  | some rest =>
    match rest with
    | [] => some (insidePath [])
    | c :: _ => if isSlash c then some (insidePath rest) else none

end Export

/-! ### Mounts -/

/-- The longest path that a client may name. -/
def maxPathLength : Nat := 1024

/-- Why the object at a path cannot be mounted when its attributes cannot be had. -/
def errorOf : StoreError → MountError
  | .notFound => .noEntry
  | .permissionDenied => .access
  | _ => .io

/-- Checks that there is a directory at a path. -/
def checkDirectory (path : Path) : Program (Except MountError Path) := do
  match ← Program.store (.stat path) with
  | .error e => return .error (errorOf e)
  | .ok m => return if m.isDirectory then .ok path else .error .notDirectory

/-- The flavors of credentials that calls may carry. -/
def flavors : List UInt32 :=
  [Enumeration.number Rpc.AuthFlavor.none, Enumeration.number Rpc.AuthFlavor.unix]

/-- Mounts the directory that a client names. -/
def mount (exportName : Text) (name : Bytes) : Program MountResult := do
  if maxPathLength < name.length then return .failed .nameTooLong
  match Export.relative? exportName (Utf8.lossy name) with
  | none => return .failed .noEntry
  | some path =>
    match ← checkDirectory path with
    | .error e => return .failed e
    | .ok root =>
      let handle ← Program.issue root
      Program.announce .mounted
      return .ok ⟨handle, flavors⟩

/-- Tells listeners that a client is done with a directory, or with all. -/
def unmount : Program Unit := Program.announce .unmounted

/-- The list of exports. -/
def exports (exportName : Text) : ExportList := ⟨true, Utf8.encode exportName, false, false⟩

end Mount

end NfsServer
