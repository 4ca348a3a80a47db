import NfsServer.Wire.Format

/-!
# Attributes on the wire

The types that describe an object to a client and the changes that a client asks for: handles,
times, full attributes (`FileAttributes`), the subset for cache checks (`WccAttributes`), the pair
of attributes before and after a change (`WccData`), and requested attributes
(`AttributeRequest`).
-/

namespace NfsServer

/-- What a client names an object by. -/
structure FileHandle where
  bytes : Bytes
  deriving DecidableEq, Repr

instance : Wire FileHandle :=
  ⟨.via FileHandle.mk FileHandle.bytes (fun _ => rfl) (fun _ => rfl) Wire.format⟩

namespace Nfs

/-- What an object is. -/
inductive FileType
  | regular | directory | blockDevice | characterDevice | symlink | socket | pipe
  deriving DecidableEq, Repr

instance : Enumeration FileType where
  members := [.regular, .directory, .blockDevice, .characterDevice, .symlink, .socket, .pipe]
  number
    | .regular => 1
    | .directory => 2
    | .blockDevice => 3
    | .characterDevice => 4
    | .symlink => 5
    | .socket => 6
    | .pipe => 7
  symbol
    | .regular => "NF3REG"
    | .directory => "NF3DIR"
    | .blockDevice => "NF3BLK"
    | .characterDevice => "NF3CHR"
    | .symlink => "NF3LNK"
    | .socket => "NF3SOCK"
    | .pipe => "NF3FIFO"
  find_number a := by cases a <;> rfl

instance : Wire FileType := ⟨.enumerator FileType⟩

/-- The major and the minor number of a device. -/
structure DeviceNumbers where
  major : UInt32
  minor : UInt32
  deriving DecidableEq, Repr

instance : Wire DeviceNumbers :=
  ⟨.via (fun (major, minor) => ⟨major, minor⟩) (fun d => (d.major, d.minor))
    (fun _ => rfl) (fun _ => rfl) Wire.format⟩

/-- A point in time as clients see it. -/
structure NfsTime where
  seconds : UInt32
  nanoseconds : UInt32
  deriving DecidableEq, Repr

instance : Wire NfsTime :=
  ⟨.via (fun (seconds, nanoseconds) => ⟨seconds, nanoseconds⟩)
    (fun t => (t.seconds, t.nanoseconds)) (fun _ => rfl) (fun _ => rfl) Wire.format⟩

/-- Everything a client can learn about an object but its contents. -/
structure FileAttributes where
  type : FileType
  mode : UInt32
  links : UInt32
  uid : UInt32
  gid : UInt32
  size : UInt64
  used : UInt64
  device : DeviceNumbers
  fileSystem : UInt64
  fileId : UInt64
  accessed : NfsTime
  modified : NfsTime
  changed : NfsTime
  deriving DecidableEq, Repr

instance : Wire FileAttributes :=
  ⟨.via
    (fun (type, mode, links, uid, gid, size, used, device, fileSystem, fileId, accessed, modified,
        changed) =>
      ⟨type, mode, links, uid, gid, size, used, device, fileSystem, fileId, accessed, modified,
        changed⟩)
    (fun a => (a.type, a.mode, a.links, a.uid, a.gid, a.size, a.used, a.device, a.fileSystem,
      a.fileId, a.accessed, a.modified, a.changed))
    (fun _ => rfl) (fun _ => rfl) Wire.format⟩

/-- The attributes by which a client tells whether its cache is still good. -/
structure WccAttributes where
  size : UInt64
  modified : NfsTime
  changed : NfsTime
  deriving DecidableEq, Repr

instance : Wire WccAttributes :=
  ⟨.via (fun (size, modified, changed) => ⟨size, modified, changed⟩)
    (fun a => (a.size, a.modified, a.changed)) (fun _ => rfl) (fun _ => rfl) Wire.format⟩

/-- An object before and after a call, as far as the server can tell. -/
structure WccData where
  before : Option WccAttributes
  after : Option FileAttributes
  deriving DecidableEq, Repr

/-- The pair that says nothing. -/
def WccData.empty : WccData := ⟨none, none⟩

instance : Wire WccData :=
  ⟨.via (fun (before, after) => ⟨before, after⟩) (fun d => (d.before, d.after))
    (fun _ => rfl) (fun _ => rfl) Wire.format⟩

/-! ### Requested changes -/

/-- What to do with a time stamp. -/
inductive TimeChoice
  | keep
  | serverTime
  | clientTime (t : NfsTime)
  deriving DecidableEq, Repr

/-- The kinds of `TimeChoice`. -/
inductive TimeTag
  | keep | serverTime | clientTime
  deriving DecidableEq, Repr

instance : Enumeration TimeTag where
  members := [.keep, .serverTime, .clientTime]
  number
    | .keep => 0
    | .serverTime => 1
    | .clientTime => 2
  symbol
    | .keep => "DONT_CHANGE"
    | .serverTime => "SET_TO_SERVER_TIME"
    | .clientTime => "SET_TO_CLIENT_TIME"
  find_number a := by cases a <;> rfl

abbrev TimeTag.Payload : TimeTag → Type
  | clientTime => NfsTime
  | keep | serverTime => Unit

def TimeTag.payload : (t : TimeTag) → Format t.Payload
  | clientTime => Wire.format
  | keep | serverTime => .void

namespace TimeChoice

def toTagged : TimeChoice → (t : TimeTag) × t.Payload
  | keep => ⟨.keep, ()⟩
  | serverTime => ⟨.serverTime, ()⟩
  | clientTime t => ⟨.clientTime, t⟩

def ofTagged : (t : TimeTag) × t.Payload → TimeChoice
  | ⟨.keep, _⟩ => keep
  | ⟨.serverTime, _⟩ => serverTime
  | ⟨.clientTime, t⟩ => clientTime t

instance : Wire TimeChoice :=
  ⟨.via ofTagged toTagged (fun c => by cases c <;> rfl) (fun ⟨t, _⟩ => by cases t <;> rfl)
    (.tagged (.discriminant TimeTag "time_how value") TimeTag.payload)⟩

end TimeChoice

/-- The attributes that a client asks to set; nothing means that one stays as it is. -/
structure AttributeRequest where
  mode : Option UInt32
  uid : Option UInt32
  gid : Option UInt32
  size : Option UInt64
  accessed : TimeChoice
  modified : TimeChoice
  deriving DecidableEq, Repr

/-- The request that asks for nothing. -/
def AttributeRequest.empty : AttributeRequest := ⟨none, none, none, none, .keep, .keep⟩

instance : Wire AttributeRequest :=
  ⟨.via (fun (mode, uid, gid, size, accessed, modified) =>
      ⟨mode, uid, gid, size, accessed, modified⟩)
    (fun r => (r.mode, r.uid, r.gid, r.size, r.accessed, r.modified))
    (fun _ => rfl) (fun _ => rfl) Wire.format⟩

end Nfs

end NfsServer
