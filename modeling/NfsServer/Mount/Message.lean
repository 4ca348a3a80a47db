import NfsServer.Nfs.Attributes

/-!
# Messages of the mount service

A mount turns the name of a directory into the handle from which a client starts.
-/

namespace NfsServer.Mount

/-- Why a directory cannot be mounted. -/
inductive MountError
  | notOwner | noEntry | io | access | notDirectory | invalid | nameTooLong | notSupported
  | serverFault
  deriving DecidableEq, Repr

/-- Success, or why there was none. -/
inductive MountStatus
  | ok
  | failed (cause : MountError)
  deriving DecidableEq, Repr

namespace MountError

/-- Every cause once, in the order of their numbers. -/
def all : List MountError :=
  [notOwner, noEntry, io, access, notDirectory, invalid, nameTooLong, notSupported, serverFault]

/-- The number of a cause on the wire. -/
def number : MountError → UInt32
  | notOwner => 1
  | noEntry => 2
  | io => 5
  | access => 13
  | notDirectory => 20
  | invalid => 22
  | nameTooLong => 63
  | notSupported => 10004
  | serverFault => 10006

/-- The name by which the definition of the mount service calls a cause. -/
def symbol : MountError → String
  | notOwner => "MNT3ERR_PERM"
  | noEntry => "MNT3ERR_NOENT"
  | io => "MNT3ERR_IO"
  | access => "MNT3ERR_ACCES"
  | notDirectory => "MNT3ERR_NOTDIR"
  | invalid => "MNT3ERR_INVAL"
  | nameTooLong => "MNT3ERR_NAMETOOLONG"
  | notSupported => "MNT3ERR_NOTSUPP"
  | serverFault => "MNT3ERR_SERVERFAULT"

end MountError

instance : Enumeration MountStatus where
  members := .ok :: MountError.all.map .failed
  number
    | .ok => 0
    | .failed cause => cause.number
  symbol
    | .ok => "MNT3_OK"
    | .failed cause => cause.symbol
  find_number
    | .ok => rfl
    | .failed cause => by cases cause <;> rfl

instance : Wire MountStatus := ⟨.enumerator MountStatus⟩

/-- The handle of a mounted directory and the credentials that calls on it may carry. -/
structure MountedRoot where
  handle : FileHandle
  flavors : List UInt32
  deriving DecidableEq, Repr

instance : Wire MountedRoot :=
  ⟨.via (fun (handle, flavors) => ⟨handle, flavors⟩) (fun m => (m.handle, m.flavors))
    (fun _ => rfl) (fun _ => rfl) Wire.format⟩

/-- The answer to a mount. -/
inductive MountResult
  | ok (root : MountedRoot)
  | failed (cause : MountError)
  deriving DecidableEq, Repr

namespace MountResult

abbrev Payload : MountStatus → Type
  | .ok => MountedRoot
  | .failed _ => Unit

def payload : (s : MountStatus) → Format (Payload s)
  | .ok => Wire.format
  | .failed _ => .void

def toTagged : MountResult → (s : MountStatus) × Payload s
  | ok root => ⟨.ok, root⟩
  | failed cause => ⟨.failed cause, ()⟩

def ofTagged : (s : MountStatus) × Payload s → MountResult
  | ⟨.ok, root⟩ => ok root
  | ⟨.failed cause, _⟩ => failed cause

instance : Wire MountResult :=
  ⟨.via ofTagged toTagged (fun r => by cases r <;> rfl) (fun ⟨s, _⟩ => by cases s <;> rfl)
    (.tagged Wire.format payload)⟩

end MountResult

/-- The list of exports: at most one directory, which every client may mount. -/
structure ExportList where
  /-- Whether an export is listed. -/
  present : Bool
  /-- The name of the exported directory. -/
  directory : Bytes
  /-- Whether a list of client groups follows. -/
  groups : Bool
  /-- Whether another export follows. -/
  more : Bool
  deriving DecidableEq, Repr

instance : Wire ExportList :=
  ⟨.via (fun (present, directory, groups, more) => ⟨present, directory, groups, more⟩)
    (fun e => (e.present, e.directory, e.groups, e.more))
    (fun _ => rfl) (fun _ => rfl) Wire.format⟩

end NfsServer.Mount
