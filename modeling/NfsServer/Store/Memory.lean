import NfsServer.Store.Basic

/-!
# The store in memory

`Memory` keeps every object at its place: a flat list of places and objects, in which the tree is
implicit in the places.  An object keeps its attributes beside its contents, and every operation
that changes the one changes the other.  What a place holds is `Memory.find?`; each operation first
checks everything that can go wrong and then changes the objects in one step.
-/

namespace NfsServer

/-- What an object holds. -/
inductive Contents
  | file (data : Bytes)
  | directory
  | symlink (target : Bytes)
  deriving DecidableEq, Repr

namespace Contents

/-- The kind of object that holds such contents. -/
def kind : Contents → FileKind
  | file _ => .file
  | directory => .directory
  | symlink _ => .symlink

/-- How many bytes there are. -/
def size : Contents → Nat
  | file data => data.length
  | directory => 0
  | symlink target => target.length

/-- How many bytes of room are taken; only the data of files counts. -/
def fileBytes : Contents → Nat
  | file data => data.length
  | directory => 0
  | symlink _ => 0

end Contents

/-- An object in memory. -/
structure Object where
  contents : Contents
  kind : FileKind
  mode : UInt32
  size : Nat
  accessed : Time
  modified : Time
  changed : Time
  fileId : Nat
  deriving DecidableEq, Repr

namespace Object

/-- Whether the object is a directory. -/
def isDirectory (o : Object) : Bool := o.kind = .directory

/-- The attributes of an object.  Objects in memory belong to nobody. -/
def metadata (o : Object) : Metadata where
  kind := o.kind
  mode := o.mode
  size := o.size
  uid := 0
  gid := 0
  accessed := o.accessed
  modified := o.modified
  changed := o.changed
  fileId := some o.fileId

/-- The object after a change to its data. -/
def touch (now : Time) (o : Object) : Object := { o with modified := now, changed := now }

end Object

/-- A store in memory. -/
structure Memory where
  /-- The objects with their places, each place once. -/
  objects : List (Location × Object)
  /-- The number that the next object gets.  It has no bound here, while a counter of 64 bits, which
  is all that clients are shown, runs over after `2 ^ 64` objects. -/
  nextId : Nat
  isReadOnly : Bool
  maxFileSize : Nat
  deriving DecidableEq, Repr

namespace Memory

/-- The permission bits. -/
def permissions (mode : UInt32) : UInt32 := mode &&& 0o7777

/-- The size limit of files unless another is chosen. -/
def defaultMaxFileSize : Nat := 0x100000000

/-- The size that no limit exceeds. -/
def addressLimit : Nat := 0x7FFFFFFFFFFFFFFF

/-- The size from which on there is no room for a file to grow. -/
def allocationLimit : Nat := 0x1000000000000000

/-- The count from which room and free objects are reckoned. -/
def capacity : Nat := 0xFFFFFFFF

/-! ### Objects and their places -/

/-- The object at a place. -/
def find? (m : Memory) (l : Location) : Option Object := m.objects.lookup l

/-- The object at a place, or the error that there is none. -/
def get (m : Memory) (l : Location) : Except StoreError Object :=
  match m.find? l with
  | some o => .ok o
  | none => .error .notFound

/-- Changes the object at a place, if there is one. -/
def modify (m : Memory) (l : Location) (f : Object → Object) : Memory :=
  { m with objects := m.objects.map fun (k, o) => (k, if k = l then f o else o) }

/-- Takes away the object at a place. -/
def erase (m : Memory) (l : Location) : Memory :=
  { m with objects := m.objects.filter fun (k, _) => k ≠ l }

theorem find?_modify (m : Memory) (l k : Location) (f : Object → Object) :
    (m.modify l f).find? k = if k = l then (m.find? k).map f else m.find? k := by
  unfold find? modify
  induction m.objects with
  | nil => simp
  | cons entry rest ih =>
    obtain ⟨j, o⟩ := entry
    by_cases hk : k = j
    · subst hk
      by_cases hl : k = l <;> simp [hl]
    · have hj : (k == j) = false := beq_false_of_ne hk
      simp only [List.map_cons, List.lookup_cons, hj]
      exact ih

theorem find?_erase (m : Memory) (l k : Location) :
    (m.erase l).find? k = if k = l then none else m.find? k := by
  unfold find? erase
  induction m.objects with
  | nil => simp
  | cons entry rest ih =>
    obtain ⟨j, o⟩ := entry
    by_cases hj : j = l
    · by_cases hk : k = l
      · simpa [hj, hk] using ih
      · have hkj : (k == l) = false := beq_false_of_ne hk
        simpa [hj, hk, hkj, List.lookup_cons] using ih
    · by_cases hkj : k = j
      · subst hkj
        simp [hj]
      · have hne : (k == j) = false := beq_false_of_ne hkj
        simpa [hj, hne, List.lookup_cons] using ih

/-- Marks the directory that holds a place as changed; the root holds itself. -/
def touchParent (m : Memory) (now : Time) (l : Location) : Memory :=
  m.modify (l.parent?.getD l) (Object.touch now)

/-- Whether anything lies in the directory at a place. -/
def hasChildren (m : Memory) (l : Location) : Bool :=
  m.objects.any fun (k, _) => k.parent? = some l

/-- Checks that a place lies in an existing directory. -/
def checkParent (m : Memory) (l : Location) : Except StoreError Unit :=
  match l.parent? with
  | none => .error .alreadyExists
  | some parent =>
    match m.find? parent with
    | none => .error .notFound
    | some o => if o.isDirectory then .ok () else .error .notADirectory

/-- A new object with the next number. -/
def newObject (m : Memory) (now : Time) (mode : UInt32) (contents : Contents) : Object :=
  ⟨contents, contents.kind, permissions mode, contents.size, now, now, now, m.nextId⟩

/-- Puts a new object at a free place. -/
def insert (m : Memory) (now : Time) (l : Location) (mode : UInt32) (contents : Contents) :
    Memory :=
  { m with
    objects := (l, m.newObject now mode contents) :: m.objects
    nextId := m.nextId + 1 }.touchParent now l

/-- The store that holds an empty root directory. -/
def empty (now : Time) (isReadOnly : Bool) (maxFileSize : Nat) : Memory :=
  ({ objects := [], nextId := 1, isReadOnly, maxFileSize := min maxFileSize addressLimit } :
    Memory).insert now Location.root 0o755 .directory

/-! ### Data of files -/

/-- The first `n` bytes of data, with zeros for those that are missing. -/
def resize (data : Bytes) (n : Nat) : Bytes :=
  data.take n ++ List.replicate (n - data.length) 0

/-- The data with some of it replaced from `offset` on; it grows as far as needed. -/
def overwrite (data : Bytes) (offset : Nat) (new : Bytes) : Bytes :=
  (resize data offset) ++ new ++ data.drop (offset + new.length)

/-- Checks that there is room for data to reach a length. -/
def checkRoom (data : Bytes) (n : Nat) : Except StoreError Unit :=
  if data.length < n ∧ allocationLimit ≤ n then .error .storageFull else .ok ()

/-! ### Requests -/

/-- The attributes of the object at a place. -/
def stat (m : Memory) (l : Location) : Except StoreError Metadata :=
  match m.get l with
  | .ok o => .ok o.metadata
  | .error e => .error e

/-- A new object at a place, and its attributes. -/
def add (m : Memory) (now : Time) (l : Location) (mode : UInt32) (contents : Contents) :
    Except StoreError (Metadata × Memory) :=
  .ok ((m.newObject now mode contents).metadata, m.insert now l mode contents)

/-- A new empty file. -/
def create (m : Memory) (now : Time) (l : Location) (mode : UInt32) (exclusive : Bool) :
    Except StoreError (Metadata × Memory) := do
  m.checkParent l
  match m.find? l with
  | none => m.add now l mode (.file [])
  | some o =>
    if exclusive then .error .alreadyExists
    else match o.kind with
      | .file => .ok (o.metadata, m)
      | .directory => .error .isADirectory
      | .symlink => .error .alreadyExists

/-- A new directory or symbolic link. -/
def addNew (m : Memory) (now : Time) (l : Location) (mode : UInt32) (contents : Contents) :
    Except StoreError (Metadata × Memory) := do
  m.checkParent l
  match m.find? l with
  | none => m.add now l mode contents
  | some _ => .error .alreadyExists

/-- At most `count` bytes of a file from `offset` on. -/
def read (m : Memory) (l : Location) (offset count : Nat) : Except StoreError Chunk := do
  let o ← m.get l
  match o.contents with
  | .file data =>
    .ok ⟨(data.drop offset).take count, decide (data.length ≤ min offset data.length + count)⟩
  | .directory => .error .isADirectory
  | .symlink _ => .error .invalidInput

/-- Data put into a file at `offset`. -/
def write (m : Memory) (now : Time) (l : Location) (offset : Nat) (new : Bytes) :
    Except StoreError (Metadata × Memory) := do
  if m.maxFileSize < offset + new.length then .error .fileTooLarge
  let o ← m.get l
  match o.contents with
  | .file data =>
    checkRoom data (offset + new.length)
    let written := overwrite data offset new
    let o' := { o with contents := .file written, size := written.length }.touch now
    .ok (o'.metadata, m.modify l fun _ => o')
  | _ => .error .isADirectory

/-- The entries of a directory. -/
def readDirectory (m : Memory) (l : Location) : Except StoreError (List Child) := do
  let o ← m.get l
  if !o.isDirectory then .error .notADirectory
  .ok <| m.objects.filterMap fun (k, o) =>
    if k.parent? = some l then k.fileName?.map fun name => ⟨name, o.metadata⟩ else none

/-- The removal of what is no directory. -/
def removeFile (m : Memory) (now : Time) (l : Location) : Except StoreError Memory := do
  let o ← m.get l
  if o.isDirectory then .error .isADirectory
  .ok ((m.erase l).touchParent now l)

/-- The removal of an empty directory. -/
def removeDirectory (m : Memory) (now : Time) (l : Location) : Except StoreError Memory := do
  let o ← m.get l
  if !o.isDirectory then .error .notADirectory
  if l.parent?.isNone then .error .permissionDenied
  if m.hasChildren l then .error .directoryNotEmpty
  .ok ((m.erase l).touchParent now l)

/-- Checks that a directory or another object may take the place of the object at `target`. -/
def checkReplace (m : Memory) (sourceIsDirectory : Bool) (target : Location) :
    Except StoreError Unit :=
  match m.find? target with
  | none => .ok ()
  | some o =>
    match sourceIsDirectory, o.isDirectory with
    | false, true => .error .isADirectory
    | true, false => .error .notADirectory
    | true, true => if m.hasChildren target then .error .directoryNotEmpty else .ok ()
    | false, false => .ok ()

/-- Moves everything at or below `source` to the same place at or below `target`. -/
def move (m : Memory) (source target : Location) : Memory :=
  { m with
    objects := m.objects.map fun (k, o) =>
      (if source.isPrefixOf k then target ++ k.drop source.length else k, o) }

/-- A new place for an object and all below it. -/
def rename (m : Memory) (now : Time) (source target : Location) : Except StoreError Memory := do
  let o ← m.get source
  m.checkParent target
  if source = target then .ok m
  else
    if source.isPrefixOf target then .error .invalidInput
    m.checkReplace o.isDirectory target
    .ok ((((m.erase target).move source target).touchParent now source).touchParent now target)

/-- Changed attributes.  A new size changes the modification time too, unless that is given. -/
def setAttributes (m : Memory) (now : Time) (l : Location) (changes : AttributeChanges) :
    Except StoreError (Metadata × Memory) := do
  if changes.size.any (m.maxFileSize < ·) then .error .fileTooLarge
  let o ← m.get l
  let sized ← match changes.size, o.contents with
    | none, _ => .ok o
    | some size, .file data => do
      checkRoom data size
      .ok { o with contents := .file (resize data size), size, modified := now }
    | some _, _ => .error .isADirectory
  let o' :=
    { sized with
      mode := (changes.mode.map permissions).getD sized.mode
      accessed := changes.accessed.getD sized.accessed
      modified := changes.modified.getD sized.modified
      changed := now }
  .ok (o'.metadata, m.modify l fun _ => o')

/-- Where a symbolic link points. -/
def readLink (m : Memory) (l : Location) : Except StoreError Bytes := do
  let o ← m.get l
  match o.contents with
  | .symlink target => .ok target
  | _ => .error .invalidInput

/-- How many bytes all files hold. -/
def usedBytes (m : Memory) : Nat :=
  m.objects.foldl (fun n (_, o) => n + o.contents.fileBytes) 0

/-- Room and object counts. -/
def space (m : Memory) : Space where
  totalBytes := capacity
  freeBytes := capacity - m.usedBytes
  availableBytes := capacity - m.usedBytes
  totalFiles := capacity
  freeFiles := capacity - m.objects.length
  availableFiles := capacity - m.objects.length

/-- The answer to a change that may fail: a failed change leaves the store as it was. -/
def answer {α : Type} (m : Memory) : Except StoreError (α × Memory) → Except StoreError α × Memory
  | .ok (a, m') => (.ok a, m')
  | .error e => (.error e, m)

/-- The answer to a change that gives nothing back. -/
def answerUnit (m : Memory) : Except StoreError Memory → Except StoreError Unit × Memory
  | .ok m' => (.ok (), m')
  | .error e => (.error e, m)

/-- The answer to a request, and the store behind it. -/
def perform {α : Type} (now : Time) : StoreRequest α → Memory → α × Memory
  | .isReadOnly, m => (m.isReadOnly, m)
  | .maxFileSize, m => (m.maxFileSize, m)
  | .stat p, m => (m.stat p.location, m)
  | .create p mode exclusive, m => m.answer (m.create now p.location mode exclusive)
  | .read p offset count, m => (m.read p.location offset count, m)
  | .write p offset data, m => m.answer (m.write now p.location offset data)
  | .makeDirectory p mode, m => m.answer (m.addNew now p.location mode .directory)
  | .readDirectory p, m => (m.readDirectory p.location, m)
  | .removeFile p, m => m.answerUnit (m.removeFile now p.location)
  | .removeDirectory p, m => m.answerUnit (m.removeDirectory now p.location)
  | .rename source target, m => m.answerUnit (m.rename now source.location target.location)
  | .setAttributes p changes, m => m.answer (m.setAttributes now p.location changes)
  | .symlink p target, m => m.answer (m.addNew now p.location 0o777 (.symlink target))
  | .readLink p, m => (m.readLink p.location, m)
  | .space, m => (.ok m.space, m)

instance : Store Memory := ⟨fun now r m => perform now r m⟩

end Memory

end NfsServer
