import NfsServer.Path.Basic
import NfsServer.Time

/-!
# Stores

A store keeps a tree of files, directories and symbolic links.  The server asks it for one thing at
a time (`StoreRequest`), and every request is answered at once (`Store.perform`), so that what a
store does is a function of its state and the time.
-/

namespace NfsServer

/-- What kind of object a store keeps. -/
inductive FileKind
  | file | directory | symlink
  deriving DecidableEq, Repr

/-- The attributes of an object as its store sees them. -/
structure Metadata where
  kind : FileKind
  /-- The permission bits. -/
  mode : UInt32
  size : Nat
  uid : UInt32
  gid : UInt32
  accessed : Time
  modified : Time
  changed : Time
  /-- What tells the object from all others, if the store knows. -/
  fileId : Option Nat
  deriving DecidableEq, Repr

/-- Whether the attributes are those of a directory. -/
def Metadata.isDirectory (m : Metadata) : Bool := m.kind = .directory

/-- Why a store does not do what it is asked. -/
inductive StoreError
  | notFound | alreadyExists | permissionDenied | notADirectory | isADirectory | directoryNotEmpty
  | storageFull | readOnly | fileTooLarge | invalidInput | unsupported
  /-- Any other cause, by its name. -/
  | other (name : String)
  deriving DecidableEq, Repr

namespace StoreError

/-- The causes that have a constructor of their own. -/
def known : List StoreError :=
  [notFound, alreadyExists, permissionDenied, notADirectory, isADirectory, directoryNotEmpty,
    storageFull, readOnly, fileTooLarge, invalidInput, unsupported]

/-- The name of a cause. -/
def name : StoreError → String
  | notFound => "NotFound"
  | alreadyExists => "AlreadyExists"
  | permissionDenied => "PermissionDenied"
  | notADirectory => "NotADirectory"
  | isADirectory => "IsADirectory"
  | directoryNotEmpty => "DirectoryNotEmpty"
  | storageFull => "StorageFull"
  | readOnly => "ReadOnlyFilesystem"
  | fileTooLarge => "FileTooLarge"
  | invalidInput => "InvalidInput"
  | unsupported => "Unsupported"
  | other name => name

/-- The cause with a name. -/
def ofName (name : String) : StoreError :=
  (known.find? fun e => e.name == name).getD (other name)

end StoreError

/-- A name in a directory and the attributes of its object. -/
structure Child where
  name : Bytes
  metadata : Metadata
  deriving DecidableEq, Repr

/-- Changes to the attributes of an object; nothing leaves an attribute as it is. -/
structure AttributeChanges where
  mode : Option UInt32
  size : Option Nat
  accessed : Option Time
  modified : Option Time
  deriving DecidableEq, Repr

/-- Whether the changes change nothing. -/
def AttributeChanges.isEmpty (c : AttributeChanges) : Bool := c = ⟨none, none, none, none⟩

/-- Room and object counts. -/
structure Space where
  totalBytes : Nat
  freeBytes : Nat
  availableBytes : Nat
  totalFiles : Nat
  freeFiles : Nat
  availableFiles : Nat
  deriving DecidableEq, Repr

/-- Data of a file, and whether it reaches to the end. -/
structure Chunk where
  data : Bytes
  endOfFile : Bool
  deriving DecidableEq, Repr

/-- What a store can be asked, with the type of the answer. -/
inductive StoreRequest : Type → Type
  /-- Whether the store refuses all changes. -/
  | isReadOnly : StoreRequest Bool
  /-- The size that no file may exceed. -/
  | maxFileSize : StoreRequest Nat
  /-- The attributes of an object. -/
  | stat (path : Path) : StoreRequest (Except StoreError Metadata)
  /-- A new empty file; an existing file is kept unless the creation is exclusive. -/
  | create (path : Path) (mode : UInt32) (exclusive : Bool) :
      StoreRequest (Except StoreError Metadata)
  /-- At most `count` bytes of a file from `offset` on. -/
  | read (path : Path) (offset count : Nat) : StoreRequest (Except StoreError Chunk)
  /-- Data put into a file at `offset`. -/
  | write (path : Path) (offset : Nat) (data : Bytes) : StoreRequest (Except StoreError Metadata)
  /-- A new directory. -/
  | makeDirectory (path : Path) (mode : UInt32) : StoreRequest (Except StoreError Metadata)
  /-- The entries of a directory, in any order. -/
  | readDirectory (path : Path) : StoreRequest (Except StoreError (List Child))
  /-- The removal of what is no directory. -/
  | removeFile (path : Path) : StoreRequest (Except StoreError Unit)
  /-- The removal of an empty directory. -/
  | removeDirectory (path : Path) : StoreRequest (Except StoreError Unit)
  /-- A new place for an object and all below it. -/
  | rename (source target : Path) : StoreRequest (Except StoreError Unit)
  /-- Changed attributes. -/
  | setAttributes (path : Path) (changes : AttributeChanges) :
      StoreRequest (Except StoreError Metadata)
  /-- A new symbolic link. -/
  | symlink (path : Path) (target : Bytes) : StoreRequest (Except StoreError Metadata)
  /-- Where a symbolic link points. -/
  | readLink (path : Path) : StoreRequest (Except StoreError Bytes)
  /-- Room and object counts. -/
  | space : StoreRequest (Except StoreError Space)

/-- A type whose values are the states of a store. -/
class Store (σ : Type) where
  /-- The answer to a request at a point in time, and the state behind it. -/
  perform : {α : Type} → Time → StoreRequest α → σ → α × σ

end NfsServer
