import NfsServer.Path.Digest
import NfsServer.Program

/-!
# Between stores and clients

What a store reports becomes attributes and statuses for clients, and what clients request becomes
changes for the store.  Procedures share a request whose errors become statuses (`attempt`), and the
attributes that go along with an answer whether or not the call succeeds (`attributesOf?`,
`wccOf?`).
-/

namespace NfsServer

/-- The type that clients see for a kind of object. -/
def FileKind.toNfs : FileKind → Nfs.FileType
  | file => .regular
  | directory => .directory
  | symlink => .symlink

namespace Metadata

/-- The attributes of an object; `fileId` tells it apart if the store does not. -/
def toAttributes (m : Metadata) (fileId : UInt64) : Nfs.FileAttributes where
  type := m.kind.toNfs
  mode := m.mode &&& 0o7777
  links := if m.isDirectory then 2 else 1
  uid := m.uid
  gid := m.gid
  size := UInt64.ofNat m.size
  used := UInt64.ofNat m.size
  device := ⟨0, 0⟩
  fileSystem := 0
  fileId := (m.fileId.map UInt64.ofNat).getD fileId
  accessed := m.accessed.toNfs
  modified := m.modified.toNfs
  changed := m.changed.toNfs

/-- The attributes of the object at a path, which its place tells apart if the store does not. -/
def attributesAt (m : Metadata) (p : Path) : Nfs.FileAttributes :=
  m.toAttributes p.location.digest

/-- The attributes that tell whether a cache is still good. -/
def toWcc (m : Metadata) : Nfs.WccAttributes where
  size := UInt64.ofNat m.size
  modified := m.modified.toNfs
  changed := m.changed.toNfs

end Metadata

/-- The new value of a time stamp. -/
def Nfs.TimeChoice.resolve (now : Time) : Nfs.TimeChoice → Option Time
  | keep => none
  | serverTime => some now
  | clientTime t => some (Time.ofNfs t)

/-- The changes that a request asks for.  Objects do not change their owners. -/
def Nfs.AttributeRequest.toChanges (now : Time) (r : Nfs.AttributeRequest) : AttributeChanges where
  mode := r.mode
  size := r.size.map UInt64.toNat
  accessed := r.accessed.resolve now
  modified := r.modified.resolve now

/-- The status for an error of a store. -/
def StoreError.toNfs : StoreError → Nfs.NfsError
  | notFound => .noEntry
  | alreadyExists => .exists
  | permissionDenied => .access
  | notADirectory => .notDirectory
  | isADirectory => .isDirectory
  | directoryNotEmpty => .notEmpty
  | storageFull => .noSpace
  | readOnly => .readOnly
  | fileTooLarge => .tooBig
  | invalidInput => .invalid
  | unsupported => .notSupported
  | other _ => .io

/-- The cause for which a name is refused: to a store it is a bad argument, whatever is wrong with
it. -/
def NameError.cause (_ : NameError) : StoreError := .invalidInput

namespace Nfs

/-- The longest name that an entry can have. -/
def maxNameLength : Nat := 255

/-- Checks the length of a name. -/
def checkName (name : Bytes) : Except NfsError Unit :=
  if maxNameLength < name.length then .error .nameTooLong else .ok ()

/-- The path of the entry that a client names. -/
def entryPath (directory : Path) (name : Bytes) : Except NfsError Path :=
  match checkName name with
  | .error e => .error e
  | .ok () =>
    match directory.entry name with
    | .error e => .error e.cause.toNfs
    | .ok path => .ok path

/-! ### Asking the store -/

/-- The answer of a store in the terms of the file service. -/
def report {α : Type} : Except StoreError α → Except NfsError α
  | .ok a => .ok a
  | .error e => .error e.toNfs

/-- Asks the store for something that can fail. -/
def attempt {α : Type} (r : StoreRequest (Except StoreError α)) :
    Program (Except NfsError α) := do
  return report (← Program.store r)

/-- The attributes of the object at a path, if they can be had. -/
def attributesOf? (p : Path) : Program (Option FileAttributes) := do
  match ← attempt (.stat p) with
  | .ok m => return some (m.attributesAt p)
  | .error _ => return none

/-- The attributes that tell whether a cache is still good, if they can be had. -/
def wccOf? (p : Path) : Program (Option WccAttributes) := do
  match ← attempt (.stat p) with
  | .ok m => return some m.toWcc
  | .error _ => return none

/-- Whether the store refuses all changes. -/
def isReadOnly : Program Bool := Program.store .isReadOnly

end Nfs

end NfsServer
