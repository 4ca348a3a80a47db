import NfsServer.Nfs.Conversion
import NfsServer.Nfs.Results

/-!
# Procedures that change nothing

The procedures of the file service that only look: at attributes, names, rights, data, and at the
file system as a whole.
-/

namespace NfsServer.Nfs

/-- The largest amount of data that one call reads or writes. -/
def maxTransfer : UInt32 := 1024 * 1024

/-! ### Attributes, names and rights -/

/-- The attributes of an object. -/
def getAttributes (object : FileHandle) : Program (Outcome FileAttributes Unit) := do
  match ← Program.resolve object with
  | .error e => return .failed e ()
  | .ok path =>
    match ← attempt (.stat path) with
    | .error e => return .failed e ()
    | .ok m => return .ok (m.attributesAt path)

/-- The path that a name in a directory leads to; the dot entries are the directory itself and the
one above. -/
def lookupPath (directory : Path) (m : Metadata) (name : Bytes) : Except NfsError Path :=
  if !m.isDirectory then .error .notDirectory
  else if name = [Path.dot] then .ok directory
  else if name = [Path.dot, Path.dot] then .ok directory.parent
  else entryPath directory name

/-- The handle and the attributes of an entry. -/
def lookup (entry : EntryName) : Program (Outcome LookupResult (Option FileAttributes)) := do
  match ← Program.resolve entry.directory with
  | .error e => return .failed e none
  | .ok directory =>
    match ← attempt (.stat directory) with
    | .error e => return .failed e none
    | .ok dm =>
      let directoryAttributes := some (dm.attributesAt directory)
      match lookupPath directory dm entry.name with
      | .error e => return .failed e directoryAttributes
      | .ok path =>
        match ← attempt (.stat path) with
        | .error e => return .failed e directoryAttributes
        | .ok m =>
          let object ← Program.issue path
          return .ok ⟨object, some (m.attributesAt path), directoryAttributes⟩

namespace Right

/-- The right to read data or list entries. -/
def read : UInt32 := 0x01

/-- The right to look up entries. -/
def lookup : UInt32 := 0x02

/-- The right to overwrite data or entries. -/
def modify : UInt32 := 0x04

/-- The right to add data or entries. -/
def extend : UInt32 := 0x08

/-- The right to delete entries. -/
def delete : UInt32 := 0x10

/-- The right to execute a file. -/
def execute : UInt32 := 0x20

end Right

/-- The rights that the permission bits of an object give to anybody at all.  Rights to change the
object are never given on a store that refuses changes. -/
def allowedRights (m : Metadata) (readOnly : Bool) : UInt32 :=
  let readable := m.mode &&& 0o444 ≠ 0
  let writable := m.mode &&& 0o222 ≠ 0 ∧ readOnly = false
  let executable := m.mode &&& 0o111 ≠ 0
  (if readable then Right.read else 0) |||
    (if writable then Right.modify ||| Right.extend else 0) |||
    (if m.isDirectory then
      (if executable then Right.lookup else 0) ||| (if writable then Right.delete else 0)
    else if executable then Right.execute else 0)

/-- The rights that a client has, out of those that it asks about. -/
def access (args : AccessArgs) : Program (Outcome AccessResult (Option FileAttributes)) := do
  match ← Program.resolve args.object with
  | .error e => return .failed e none
  | .ok path =>
    match ← attempt (.stat path) with
    | .error e => return .failed e none
    | .ok m =>
      let readOnly ← isReadOnly
      return .ok ⟨some (m.attributesAt path), args.rights &&& allowedRights m readOnly⟩

/-! ### Contents -/

/-- Where a symbolic link points. -/
def readLink (object : FileHandle) : Program (Outcome ReadLinkResult (Option FileAttributes)) := do
  match ← Program.resolve object with
  | .error e => return .failed e none
  | .ok path =>
    let attributes ← attributesOf? path
    match ← attempt (.readLink path) with
    | .error e => return .failed e attributes
    | .ok target => return .ok ⟨attributes, target⟩

/-- Data of the object at a path.  Directories have none. -/
def readData (path : Path) (offset : UInt64) (count : UInt32) :
    Program (Except NfsError Chunk) := do
  match ← attempt (.stat path) with
  | .error e => return .error e
  | .ok m =>
    if m.isDirectory then return .error .isDirectory
    else attempt (.read path offset.toNat count.toNat)

/-- Data of a file.  No more than `maxTransfer` bytes are read at once. -/
def read (args : ReadArgs) : Program (Outcome ReadResult (Option FileAttributes)) := do
  match ← Program.resolve args.file with
  | .error e => return .failed e none
  | .ok path =>
    let result ← readData path args.offset (min args.count maxTransfer)
    let attributes ← attributesOf? path
    match result with
    | .error e => return .failed e attributes
    | .ok chunk =>
      return .ok ⟨attributes, UInt32.ofNat chunk.data.length, chunk.endOfFile, chunk.data⟩

/-! ### The file system -/

/-- Room and object counts. -/
def fileSystemSpace (object : FileHandle) :
    Program (Outcome SpaceResult (Option FileAttributes)) := do
  match ← Program.resolve object with
  | .error e => return .failed e none
  | .ok path =>
    let attributes ← attributesOf? path
    match ← attempt .space with
    | .error e => return .failed e attributes
    | .ok s =>
      return .ok
        { attributes
          totalBytes := UInt64.ofNat s.totalBytes
          freeBytes := UInt64.ofNat s.freeBytes
          availableBytes := UInt64.ofNat s.availableBytes
          totalFiles := UInt64.ofNat s.totalFiles
          freeFiles := UInt64.ofNat s.freeFiles
          availableFiles := UInt64.ofNat s.availableFiles
          invariantSeconds := 0 }

/-- The properties of the file system: it has symbolic links, all its objects have the same limits,
and times can be set. -/
def fileSystemProperties : UInt32 := 0x02 ||| 0x08 ||| 0x10

/-- Transfer sizes and properties. -/
def fileSystemLimits (object : FileHandle) :
    Program (Outcome LimitsResult (Option FileAttributes)) := do
  match ← Program.resolve object with
  | .error e => return .failed e none
  | .ok path =>
    let attributes ← attributesOf? path
    let maxFileSize ← Program.store .maxFileSize
    return .ok
      { attributes
        readMax := maxTransfer
        readPreferred := maxTransfer
        readMultiple := 4096
        writeMax := maxTransfer
        writePreferred := maxTransfer
        writeMultiple := 4096
        directoryPreferred := 8192
        maxFileSize := UInt64.ofNat maxFileSize
        timeStep := ⟨0, 1⟩
        properties := fileSystemProperties }

/-- Limits on names: no further links to an object, names of up to `maxNameLength` bytes that are
never cut, and case that counts and is kept. -/
def namingLimits (object : FileHandle) :
    Program (Outcome NamingResult (Option FileAttributes)) := do
  match ← Program.resolve object with
  | .error e => return .failed e none
  | .ok path =>
    let attributes ← attributesOf? path
    return .ok
      { attributes
        maxLinks := 1
        maxName := UInt32.ofNat maxNameLength
        noTruncation := true
        chownRestricted := true
        caseInsensitive := false
        casePreserving := true }

/-- Data that was written is in the store before the write is answered, so that nothing is left to
do; the verifier tells one run of the server from the next. -/
def commit (verifier : FixedBytes 8) (args : CommitArgs) :
    Program (Outcome CommitResult WccData) := do
  match ← Program.resolve args.file with
  | .error e => return .failed e .empty
  | .ok path =>
    match ← attributesOf? path with
    | none => return .failed .stale .empty
    | some attributes => return .ok ⟨⟨none, some attributes⟩, verifier⟩

end NfsServer.Nfs
