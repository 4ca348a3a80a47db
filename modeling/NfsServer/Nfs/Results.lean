import NfsServer.Nfs.Arguments

/-!
# Results of file service calls

One type for what each procedure answers when it succeeds, as far as that is more than attributes.
-/

namespace NfsServer.Nfs

/-- An object found by its name, and the directory in which it was. -/
structure LookupResult where
  object : FileHandle
  attributes : Option FileAttributes
  directory : Option FileAttributes
  deriving DecidableEq, Repr

instance : Wire LookupResult :=
  ⟨.via (fun (object, attributes, directory) => ⟨object, attributes, directory⟩)
    (fun r => (r.object, r.attributes, r.directory)) (fun _ => rfl) (fun _ => rfl) Wire.format⟩

/-- The rights granted, as a bit mask. -/
structure AccessResult where
  attributes : Option FileAttributes
  granted : UInt32
  deriving DecidableEq, Repr

instance : Wire AccessResult :=
  ⟨.via (fun (attributes, granted) => ⟨attributes, granted⟩)
    (fun r => (r.attributes, r.granted)) (fun _ => rfl) (fun _ => rfl) Wire.format⟩

/-- Where a symbolic link points. -/
structure ReadLinkResult where
  attributes : Option FileAttributes
  target : Bytes
  deriving DecidableEq, Repr

instance : Wire ReadLinkResult :=
  ⟨.via (fun (attributes, target) => ⟨attributes, target⟩)
    (fun r => (r.attributes, r.target)) (fun _ => rfl) (fun _ => rfl) Wire.format⟩

/-- Data of a file, and whether it reaches to the end. -/
structure ReadResult where
  attributes : Option FileAttributes
  count : UInt32
  endOfFile : Bool
  data : Bytes
  deriving DecidableEq, Repr

instance : Wire ReadResult :=
  ⟨.via (fun (attributes, count, endOfFile, data) => ⟨attributes, count, endOfFile, data⟩)
    (fun r => (r.attributes, r.count, r.endOfFile, r.data))
    (fun _ => rfl) (fun _ => rfl) Wire.format⟩

/-- How much was written and how far it got. -/
structure WriteResult where
  file : WccData
  count : UInt32
  committed : Stability
  verifier : FixedBytes 8
  deriving DecidableEq, Repr

instance : Wire WriteResult :=
  ⟨.via (fun (file, count, committed, verifier) => ⟨file, count, committed, verifier⟩)
    (fun r => (r.file, r.count, r.committed, r.verifier))
    (fun _ => rfl) (fun _ => rfl) Wire.format⟩

/-- A new object and the directory that got it. -/
structure CreateResult where
  object : Option FileHandle
  attributes : Option FileAttributes
  directory : WccData
  deriving DecidableEq, Repr

instance : Wire CreateResult :=
  ⟨.via (fun (object, attributes, directory) => ⟨object, attributes, directory⟩)
    (fun r => (r.object, r.attributes, r.directory)) (fun _ => rfl) (fun _ => rfl) Wire.format⟩

/-- The two directories of a rename. -/
structure RenameDirectories where
  source : WccData
  target : WccData
  deriving DecidableEq, Repr

instance : Wire RenameDirectories :=
  ⟨.via (fun (source, target) => ⟨source, target⟩) (fun r => (r.source, r.target))
    (fun _ => rfl) (fun _ => rfl) Wire.format⟩

/-- The object of a link and the directory of its further name. -/
structure LinkObjects where
  file : Option FileAttributes
  directory : WccData
  deriving DecidableEq, Repr

instance : Wire LinkObjects :=
  ⟨.via (fun (file, directory) => ⟨file, directory⟩) (fun r => (r.file, r.directory))
    (fun _ => rfl) (fun _ => rfl) Wire.format⟩

/-! ### Directory pages -/

/-- An entry of a directory page. -/
structure Entry where
  fileId : UInt64
  name : Bytes
  cookie : UInt64
  deriving DecidableEq, Repr

instance : Wire Entry :=
  ⟨.via (fun (fileId, name, cookie) => ⟨fileId, name, cookie⟩)
    (fun e => (e.fileId, e.name, e.cookie)) (fun _ => rfl) (fun _ => rfl) Wire.format⟩

/-- An entry of a directory page with the attributes and the handle of its object. -/
structure EntryPlus where
  fileId : UInt64
  name : Bytes
  cookie : UInt64
  attributes : Option FileAttributes
  handle : Option FileHandle
  deriving DecidableEq, Repr

instance : Wire EntryPlus :=
  ⟨.via (fun (fileId, name, cookie, attributes, handle) =>
      ⟨fileId, name, cookie, attributes, handle⟩)
    (fun e => (e.fileId, e.name, e.cookie, e.attributes, e.handle))
    (fun _ => rfl) (fun _ => rfl) Wire.format⟩

/-- A page of a directory; its entries are of type `ε`. -/
structure DirectoryPage (ε : Type) where
  directory : Option FileAttributes
  verifier : FixedBytes 8
  entries : List ε
  endOfList : Bool
  deriving DecidableEq, Repr

instance {ε : Type} [Wire ε] : Wire (DirectoryPage ε) :=
  ⟨.via (fun (directory, verifier, entries, endOfList) =>
      ⟨directory, verifier, entries, endOfList⟩)
    (fun p => (p.directory, p.verifier, p.entries, p.endOfList))
    (fun _ => rfl) (fun _ => rfl)
    (.pair Wire.format (.pair Wire.format (.pair (.chain Wire.format) Wire.format)))⟩

/-! ### File systems -/

/-- Room and object counts of a file system. -/
structure SpaceResult where
  attributes : Option FileAttributes
  totalBytes : UInt64
  freeBytes : UInt64
  availableBytes : UInt64
  totalFiles : UInt64
  freeFiles : UInt64
  availableFiles : UInt64
  /-- For how many seconds the counts hold; 0 when they may change at any time. -/
  invariantSeconds : UInt32
  deriving DecidableEq, Repr

instance : Wire SpaceResult :=
  ⟨.via
    (fun (attributes, totalBytes, freeBytes, availableBytes, totalFiles, freeFiles, availableFiles,
        invariantSeconds) =>
      ⟨attributes, totalBytes, freeBytes, availableBytes, totalFiles, freeFiles, availableFiles,
        invariantSeconds⟩)
    (fun r => (r.attributes, r.totalBytes, r.freeBytes, r.availableBytes, r.totalFiles,
      r.freeFiles, r.availableFiles, r.invariantSeconds))
    (fun _ => rfl) (fun _ => rfl) Wire.format⟩

/-- Transfer sizes and properties of a file system. -/
structure LimitsResult where
  attributes : Option FileAttributes
  readMax : UInt32
  readPreferred : UInt32
  readMultiple : UInt32
  writeMax : UInt32
  writePreferred : UInt32
  writeMultiple : UInt32
  directoryPreferred : UInt32
  maxFileSize : UInt64
  timeStep : NfsTime
  properties : UInt32
  deriving DecidableEq, Repr

instance : Wire LimitsResult :=
  ⟨.via
    (fun (attributes, readMax, readPreferred, readMultiple, writeMax, writePreferred,
        writeMultiple, directoryPreferred, maxFileSize, timeStep, properties) =>
      ⟨attributes, readMax, readPreferred, readMultiple, writeMax, writePreferred, writeMultiple,
        directoryPreferred, maxFileSize, timeStep, properties⟩)
    (fun r => (r.attributes, r.readMax, r.readPreferred, r.readMultiple, r.writeMax,
      r.writePreferred, r.writeMultiple, r.directoryPreferred, r.maxFileSize, r.timeStep,
      r.properties))
    (fun _ => rfl) (fun _ => rfl) Wire.format⟩

/-- Limits on the names of objects. -/
structure NamingResult where
  attributes : Option FileAttributes
  maxLinks : UInt32
  maxName : UInt32
  noTruncation : Bool
  chownRestricted : Bool
  caseInsensitive : Bool
  casePreserving : Bool
  deriving DecidableEq, Repr

instance : Wire NamingResult :=
  ⟨.via
    (fun (attributes, maxLinks, maxName, noTruncation, chownRestricted, caseInsensitive,
        casePreserving) =>
      ⟨attributes, maxLinks, maxName, noTruncation, chownRestricted, caseInsensitive,
        casePreserving⟩)
    (fun r => (r.attributes, r.maxLinks, r.maxName, r.noTruncation, r.chownRestricted,
      r.caseInsensitive, r.casePreserving))
    (fun _ => rfl) (fun _ => rfl) Wire.format⟩

/-- A committed file and the verifier of the server run that holds its data. -/
structure CommitResult where
  file : WccData
  verifier : FixedBytes 8
  deriving DecidableEq, Repr

instance : Wire CommitResult :=
  ⟨.via (fun (file, verifier) => ⟨file, verifier⟩) (fun r => (r.file, r.verifier))
    (fun _ => rfl) (fun _ => rfl) Wire.format⟩

end NfsServer.Nfs
