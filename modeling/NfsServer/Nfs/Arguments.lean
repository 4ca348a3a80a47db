import NfsServer.Nfs.Attributes

/-!
# Arguments of file service calls

One type for the arguments of each procedure that takes more than a handle.
-/

namespace NfsServer.Nfs

/-- A name in a directory. -/
structure EntryName where
  directory : FileHandle
  name : Bytes
  deriving DecidableEq, Repr

instance : Wire EntryName :=
  ⟨.via (fun (directory, name) => ⟨directory, name⟩) (fun e => (e.directory, e.name))
    (fun _ => rfl) (fun _ => rfl) Wire.format⟩

/-- Attributes to set, and the change time that the object must still have. -/
structure SetAttributesArgs where
  object : FileHandle
  requested : AttributeRequest
  guard : Option NfsTime
  deriving DecidableEq, Repr

instance : Wire SetAttributesArgs :=
  ⟨.via (fun (object, requested, guard) => ⟨object, requested, guard⟩)
    (fun a => (a.object, a.requested, a.guard)) (fun _ => rfl) (fun _ => rfl) Wire.format⟩

/-- The rights that a client asks about, as a bit mask. -/
structure AccessArgs where
  object : FileHandle
  rights : UInt32
  deriving DecidableEq, Repr

instance : Wire AccessArgs :=
  ⟨.via (fun (object, rights) => ⟨object, rights⟩) (fun a => (a.object, a.rights))
    (fun _ => rfl) (fun _ => rfl) Wire.format⟩

/-- A range of a file to read. -/
structure ReadArgs where
  file : FileHandle
  offset : UInt64
  count : UInt32
  deriving DecidableEq, Repr

instance : Wire ReadArgs :=
  ⟨.via (fun (file, offset, count) => ⟨file, offset, count⟩)
    (fun a => (a.file, a.offset, a.count)) (fun _ => rfl) (fun _ => rfl) Wire.format⟩

/-- How far a write must have got before it is answered. -/
inductive Stability
  | unstable | dataSync | fileSync
  deriving DecidableEq, Repr

instance : Enumeration Stability where
  members := [.unstable, .dataSync, .fileSync]
  number
    | .unstable => 0
    | .dataSync => 1
    | .fileSync => 2
  symbol
    | .unstable => "UNSTABLE"
    | .dataSync => "DATA_SYNC"
    | .fileSync => "FILE_SYNC"
  find_number a := by cases a <;> rfl

instance : Wire Stability := ⟨.enumerator Stability⟩

/-- Data to write; `count` is meant to be its length. -/
structure WriteArgs where
  file : FileHandle
  offset : UInt64
  count : UInt32
  stability : Stability
  data : Bytes
  deriving DecidableEq, Repr

instance : Wire WriteArgs :=
  ⟨.via (fun (file, offset, count, stability, data) => ⟨file, offset, count, stability, data⟩)
    (fun a => (a.file, a.offset, a.count, a.stability, a.data))
    (fun _ => rfl) (fun _ => rfl) Wire.format⟩

/-! ### New objects -/

/-- The kinds of `CreateHow`. -/
inductive CreateMode
  | unchecked | guarded | exclusive
  deriving DecidableEq, Repr

instance : Enumeration CreateMode where
  members := [.unchecked, .guarded, .exclusive]
  number
    | .unchecked => 0
    | .guarded => 1
    | .exclusive => 2
  symbol
    | .unchecked => "UNCHECKED"
    | .guarded => "GUARDED"
    | .exclusive => "EXCLUSIVE"
  find_number a := by cases a <;> rfl

instance : Wire CreateMode := ⟨.enumerator CreateMode⟩

/-- How a file is created, and with which attributes or verifier. -/
inductive CreateHow
  /-- A file of that name may exist. -/
  | unchecked (requested : AttributeRequest)
  /-- Nothing of that name may exist. -/
  | guarded (requested : AttributeRequest)
  /-- Nothing of that name may exist; the verifier tells a repeated call. -/
  | exclusive (verifier : FixedBytes 8)
  deriving DecidableEq, Repr

abbrev CreateMode.Payload : CreateMode → Type
  | exclusive => FixedBytes 8
  | unchecked | guarded => AttributeRequest

def CreateMode.payload : (m : CreateMode) → Format m.Payload
  | exclusive => Wire.format
  | unchecked | guarded => Wire.format

namespace CreateHow

def toTagged : CreateHow → (m : CreateMode) × m.Payload
  | unchecked r => ⟨.unchecked, r⟩
  | guarded r => ⟨.guarded, r⟩
  | exclusive v => ⟨.exclusive, v⟩

def ofTagged : (m : CreateMode) × m.Payload → CreateHow
  | ⟨.unchecked, r⟩ => unchecked r
  | ⟨.guarded, r⟩ => guarded r
  | ⟨.exclusive, v⟩ => exclusive v

instance : Wire CreateHow :=
  ⟨.via ofTagged toTagged (fun h => by cases h <;> rfl) (fun ⟨m, _⟩ => by cases m <;> rfl)
    (.tagged Wire.format CreateMode.payload)⟩

end CreateHow

/-- A file to create. -/
structure CreateArgs where
  entry : EntryName
  how : CreateHow
  deriving DecidableEq, Repr

instance : Wire CreateArgs :=
  ⟨.via (fun (entry, how) => ⟨entry, how⟩) (fun a => (a.entry, a.how))
    (fun _ => rfl) (fun _ => rfl) Wire.format⟩

/-- A directory to create. -/
structure MakeDirectoryArgs where
  entry : EntryName
  requested : AttributeRequest
  deriving DecidableEq, Repr

instance : Wire MakeDirectoryArgs :=
  ⟨.via (fun (entry, requested) => ⟨entry, requested⟩) (fun a => (a.entry, a.requested))
    (fun _ => rfl) (fun _ => rfl) Wire.format⟩

/-- The attributes and the target of a new symbolic link. -/
structure LinkContents where
  requested : AttributeRequest
  target : Bytes
  deriving DecidableEq, Repr

instance : Wire LinkContents :=
  ⟨.via (fun (requested, target) => ⟨requested, target⟩) (fun c => (c.requested, c.target))
    (fun _ => rfl) (fun _ => rfl) Wire.format⟩

/-- A symbolic link to create. -/
structure SymlinkArgs where
  entry : EntryName
  contents : LinkContents
  deriving DecidableEq, Repr

instance : Wire SymlinkArgs :=
  ⟨.via (fun (entry, contents) => ⟨entry, contents⟩) (fun a => (a.entry, a.contents))
    (fun _ => rfl) (fun _ => rfl) Wire.format⟩

/-- The kinds of special file. -/
inductive DeviceType
  | character | block | socket | pipe
  deriving DecidableEq, Repr

instance : Enumeration DeviceType where
  members := [.character, .block, .socket, .pipe]
  number
    | .character => 0
    | .block => 1
    | .socket => 2
    | .pipe => 3
  symbol
    | .character => "NF3CHR"
    | .block => "NF3BLK"
    | .socket => "NF3SOCK"
    | .pipe => "NF3FIFO"
  find_number a := by cases a <;> rfl

instance : Wire DeviceType := ⟨.enumerator DeviceType⟩

/-- A special file's kind and numbers. -/
structure DeviceSpec where
  type : DeviceType
  numbers : DeviceNumbers
  deriving DecidableEq, Repr

instance : Wire DeviceSpec :=
  ⟨.via (fun (type, numbers) => ⟨type, numbers⟩) (fun d => (d.type, d.numbers))
    (fun _ => rfl) (fun _ => rfl) Wire.format⟩

/-- What a special file is to be. -/
structure NodeSpec where
  type : FileType
  device : DeviceSpec
  deriving DecidableEq, Repr

instance : Wire NodeSpec :=
  ⟨.via (fun (type, device) => ⟨type, device⟩) (fun n => (n.type, n.device))
    (fun _ => rfl) (fun _ => rfl) Wire.format⟩

/-- A special file to create. -/
structure MakeNodeArgs where
  entry : EntryName
  node : NodeSpec
  deriving DecidableEq, Repr

instance : Wire MakeNodeArgs :=
  ⟨.via (fun (entry, node) => ⟨entry, node⟩) (fun a => (a.entry, a.node))
    (fun _ => rfl) (fun _ => rfl) Wire.format⟩

/-! ### Other names for objects -/

/-- An entry and the name that it is to get. -/
structure RenameArgs where
  source : EntryName
  target : EntryName
  deriving DecidableEq, Repr

instance : Wire RenameArgs :=
  ⟨.via (fun (source, target) => ⟨source, target⟩) (fun a => (a.source, a.target))
    (fun _ => rfl) (fun _ => rfl) Wire.format⟩

/-- An object and a further name for it. -/
structure LinkArgs where
  file : FileHandle
  link : EntryName
  deriving DecidableEq, Repr

instance : Wire LinkArgs :=
  ⟨.via (fun (file, link) => ⟨file, link⟩) (fun a => (a.file, a.link))
    (fun _ => rfl) (fun _ => rfl) Wire.format⟩

/-! ### Directories and caches -/

/-- A page of a directory to list, behind the entry with the given cookie. -/
structure ReadDirectoryArgs where
  directory : FileHandle
  cookie : UInt64
  verifier : FixedBytes 8
  count : UInt32
  deriving DecidableEq, Repr

instance : Wire ReadDirectoryArgs :=
  ⟨.via (fun (directory, cookie, verifier, count) => ⟨directory, cookie, verifier, count⟩)
    (fun a => (a.directory, a.cookie, a.verifier, a.count))
    (fun _ => rfl) (fun _ => rfl) Wire.format⟩

/-- A page of a directory to list with the attributes and handles of the entries. -/
structure ReadDirectoryPlusArgs where
  directory : FileHandle
  cookie : UInt64
  verifier : FixedBytes 8
  directoryCount : UInt32
  maxCount : UInt32
  deriving DecidableEq, Repr

instance : Wire ReadDirectoryPlusArgs :=
  ⟨.via (fun (directory, cookie, verifier, directoryCount, maxCount) =>
      ⟨directory, cookie, verifier, directoryCount, maxCount⟩)
    (fun a => (a.directory, a.cookie, a.verifier, a.directoryCount, a.maxCount))
    (fun _ => rfl) (fun _ => rfl) Wire.format⟩

/-- A range of a file that is to reach stable storage. -/
structure CommitArgs where
  file : FileHandle
  offset : UInt64
  count : UInt32
  deriving DecidableEq, Repr

instance : Wire CommitArgs :=
  ⟨.via (fun (file, offset, count) => ⟨file, offset, count⟩)
    (fun a => (a.file, a.offset, a.count)) (fun _ => rfl) (fun _ => rfl) Wire.format⟩

end NfsServer.Nfs
