import NfsServer.Nfs.Queries

/-!
# Procedures that change the store

Each of these procedures answers with what its object or directory was like before the call and is
like after it (`WccData`), on success and on failure.  On a store that refuses changes they fail
before they look at anything.
-/

namespace NfsServer.Nfs

/-- What a directory was like before a change and is like now. -/
def wccSince (before : Option WccAttributes) (path : Path) : Program WccData := do
  return ⟨before, ← attributesOf? path⟩

/-! ### Objects -/

/-- Whether an object may be changed: its change time is the one that the client saw, if the client
says which. -/
def guardHolds (before : Option WccAttributes) (guard : Option NfsTime) : Bool :=
  match guard with
  | none => true
  | some t => before.map WccAttributes.changed = some t

/-- Changes attributes of an object. -/
def setAttributes (now : Time) (args : SetAttributesArgs) : Program (Outcome WccData WccData) := do
  if ← isReadOnly then return .failed .readOnly .empty
  match ← Program.resolve args.object with
  | .error e => return .failed e .empty
  | .ok path =>
    let before ← wccOf? path
    if !guardHolds before args.guard then return .failed .notSync (← wccSince before path)
    match ← attempt (.setAttributes path (args.requested.toChanges now)) with
    | .error e => return .failed e (← wccSince before path)
    | .ok m => return .ok ⟨before, some (m.attributesAt path)⟩

/-- Writes data to a file.  Data is in the store before the call is answered. -/
def write (verifier : FixedBytes 8) (args : WriteArgs) :
    Program (Response (Outcome WriteResult WccData)) := do
  if args.data.length ≠ args.count.toNat then return .garbageArguments
  if ← isReadOnly then return .results (.failed .readOnly .empty)
  match ← Program.resolve args.file with
  | .error e => return .results (.failed e .empty)
  | .ok path =>
    let before ← wccOf? path
    match ← attempt (.write path args.offset.toNat args.data) with
    | .error e => return .results (.failed e (← wccSince before path))
    | .ok m =>
      return .results (.ok ⟨⟨before, some (m.attributesAt path)⟩, args.count, .fileSync, verifier⟩)

/-! ### New entries -/

/-- Makes an object at a path, if there is one, and answers with both. -/
def makeAt (path : Except NfsError Path) (make : Path → Program (Except NfsError Metadata)) :
    Program (Except NfsError (Path × Metadata)) := do
  match path with
  | .error e => return .error e
  | .ok path =>
    match ← make path with
    | .error e => return .error e
    | .ok m => return .ok (path, m)

/-- Makes a new object in a directory and answers with its handle and attributes. -/
def addEntry (entry : EntryName) (make : Path → Program (Except NfsError Metadata)) :
    Program (Outcome CreateResult WccData) := do
  if ← isReadOnly then return .failed .readOnly .empty
  match ← Program.resolve entry.directory with
  | .error e => return .failed e .empty
  | .ok directory =>
    let before ← wccOf? directory
    let made ← makeAt (entryPath directory entry.name) make
    let wcc ← wccSince before directory
    match made with
    | .error e => return .failed e wcc
    | .ok (path, m) =>
      let object ← Program.issue path
      return .ok ⟨some object, some (m.attributesAt path), wcc⟩

/-- Applies changes to an object with the given attributes, unless there are none. -/
def applyChanges (path : Path) (m : Metadata) (changes : AttributeChanges) :
    Program (Except NfsError Metadata) :=
  if changes.isEmpty then pure (.ok m) else attempt (.setAttributes path changes)

namespace CreateHow

/-- The attributes that a creation asks for. -/
def requested : CreateHow → AttributeRequest
  | unchecked r => r
  | guarded r => r
  | exclusive _ => .empty

/-- Whether a creation fails when the name is taken. -/
def isExclusive : CreateHow → Bool
  | unchecked _ => false
  | guarded _ => true
  | exclusive _ => true

end CreateHow

/-- The mode of a file unless another is asked for. -/
def defaultFileMode : UInt32 := 0o644

/-- The mode of a directory unless another is asked for. -/
def defaultDirectoryMode : UInt32 := 0o755

/-- Makes a file and then gives it all attributes that were asked for. -/
def create (now : Time) (args : CreateArgs) : Program (Outcome CreateResult WccData) :=
  addEntry args.entry fun path => do
    let requested := args.how.requested
    let mode := requested.mode.getD defaultFileMode
    match ← attempt (.create path mode args.how.isExclusive) with
    | .error e => return .error e
    | .ok m => applyChanges path m (requested.toChanges now)

/-- Makes a directory and then gives it the attributes that were asked for besides the mode. -/
def makeDirectory (now : Time) (args : MakeDirectoryArgs) :
    Program (Outcome CreateResult WccData) :=
  addEntry args.entry fun path => do
    let mode := args.requested.mode.getD defaultDirectoryMode
    match ← attempt (.makeDirectory path mode) with
    | .error e => return .error e
    | .ok m => applyChanges path m ({ args.requested with mode := none }.toChanges now)

/-- Makes a symbolic link; the attributes that were asked for are not applied. -/
def makeSymlink (args : SymlinkArgs) : Program (Outcome CreateResult WccData) :=
  addEntry args.entry fun path => attempt (.symlink path args.contents.target)

/-- Special files cannot be made. -/
def makeNode (args : MakeNodeArgs) : Program (Outcome WccData WccData) := do
  match ← Program.resolve args.entry.directory with
  | .error _ => return .failed .notSupported .empty
  | .ok directory => return .failed .notSupported ⟨none, ← attributesOf? directory⟩

/-- Objects cannot get further names. -/
def makeLink (args : LinkArgs) : Program (Outcome LinkObjects LinkObjects) := do
  match ← Program.resolve args.file with
  | .error _ => return .failed .notSupported ⟨none, .empty⟩
  | .ok path => return .failed .notSupported ⟨← attributesOf? path, .empty⟩

/-! ### Entries that go -/

/-- Removes what is at a path, if there is one.  Its handle and those below it become stale. -/
def dropAt (path : Except NfsError Path)
    (removal : Path → StoreRequest (Except StoreError Unit)) :
    Program (Except NfsError Unit) := do
  match path with
  | .error e => return .error e
  | .ok path =>
    match ← attempt (removal path) with
    | .error e => return .error e
    | .ok () =>
      Program.forgetPath path
      return .ok ()

/-- Takes an entry out of a directory. -/
def dropEntry (entry : EntryName) (target : Path → Bytes → Except NfsError Path)
    (removal : Path → StoreRequest (Except StoreError Unit)) :
    Program (Outcome WccData WccData) := do
  if ← isReadOnly then return .failed .readOnly .empty
  match ← Program.resolve entry.directory with
  | .error e => return .failed e .empty
  | .ok directory =>
    let before ← wccOf? directory
    let removed ← dropAt (target directory entry.name) removal
    let wcc ← wccSince before directory
    match removed with
    | .error e => return .failed e wcc
    | .ok () => return .ok wcc

/-- Removes an entry that is no directory. -/
def remove (entry : EntryName) : Program (Outcome WccData WccData) :=
  dropEntry entry entryPath .removeFile

/-- The path of a directory to remove; the dot entries are refused. -/
def removalPath (directory : Path) (name : Bytes) : Except NfsError Path :=
  if name = [Path.dot] then .error .invalid
  else if name = [Path.dot, Path.dot] then .error .exists
  else entryPath directory name

/-- Removes an empty directory. -/
def removeDirectory (entry : EntryName) : Program (Outcome WccData WccData) :=
  dropEntry entry removalPath .removeDirectory

/-- Moves an object from one directory entry to another.  The handles of the object, of what it
replaces, and of all that lies below either become stale. -/
def moveEntry (source target : Except NfsError Path) : Program (Except NfsError Unit) := do
  match source, target with
  | .error e, _ => return .error e
  | .ok _, .error e => return .error e
  | .ok source, .ok target =>
    match ← attempt (.rename source target) with
    | .error e => return .error e
    | .ok () =>
      Program.forgetPath source
      Program.forgetPath target
      return .ok ()

/-- Renames an entry. -/
def rename (args : RenameArgs) : Program (Outcome RenameDirectories RenameDirectories) := do
  if ← isReadOnly then return .failed .readOnly ⟨.empty, .empty⟩
  match ← Program.resolve args.source.directory with
  | .error e => return .failed e ⟨.empty, .empty⟩
  | .ok source =>
    match ← Program.resolve args.target.directory with
    | .error e => return .failed e ⟨.empty, .empty⟩
    | .ok target =>
      let sourceBefore ← wccOf? source
      let targetBefore ← wccOf? target
      let moved ← moveEntry (entryPath source args.source.name) (entryPath target args.target.name)
      let sourceWcc ← wccSince sourceBefore source
      let targetWcc ← wccSince targetBefore target
      match moved with
      | .error e => return .failed e ⟨sourceWcc, targetWcc⟩
      | .ok () => return .ok ⟨sourceWcc, targetWcc⟩

end NfsServer.Nfs
