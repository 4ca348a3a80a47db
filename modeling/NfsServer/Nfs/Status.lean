import NfsServer.Wire.Format

/-!
# Statuses of file service calls

`NfsError` lists the ways in which a file service call fails and `Status` adds success.  Results
begin with a status, and what follows depends on it: `Outcome` is the type of such results and
`Outcome.format` their format.
-/

namespace NfsServer.Nfs

/-- Why a file service call fails. -/
inductive NfsError
  | notOwner | noEntry | io | noDevice | access | exists | crossDevice | noSuchDevice
  | notDirectory | isDirectory | invalid | tooBig | noSpace | readOnly | tooManyLinks
  | nameTooLong | notEmpty | quota | stale | remote | badHandle | notSync | badCookie
  | notSupported | tooSmall | serverFault | badType | tryLater
  deriving DecidableEq, Repr

/-- Success, or why there was none. -/
inductive Status
  | ok
  | failed (cause : NfsError)
  deriving DecidableEq, Repr

namespace NfsError

/-- Every cause once, in the order of their numbers. -/
def all : List NfsError :=
  [notOwner, noEntry, io, noDevice, access, .exists, crossDevice, noSuchDevice, notDirectory,
    isDirectory, invalid, tooBig, noSpace, readOnly, tooManyLinks, nameTooLong, notEmpty, quota,
    stale, remote, badHandle, notSync, badCookie, notSupported, tooSmall, serverFault, badType,
    tryLater]

/-- The number of a cause on the wire. -/
def number : NfsError → UInt32
  | notOwner => 1
  | noEntry => 2
  | io => 5
  | noDevice => 6
  | access => 13
  | .exists => 17
  | crossDevice => 18
  | noSuchDevice => 19
  | notDirectory => 20
  | isDirectory => 21
  | invalid => 22
  | tooBig => 27
  | noSpace => 28
  | readOnly => 30
  | tooManyLinks => 31
  | nameTooLong => 63
  | notEmpty => 66
  | quota => 69
  | stale => 70
  | remote => 71
  | badHandle => 10001
  | notSync => 10002
  | badCookie => 10003
  | notSupported => 10004
  | tooSmall => 10005
  | serverFault => 10006
  | badType => 10007
  | tryLater => 10008

/-- The name by which the definition of the file service calls a cause. -/
def symbol : NfsError → String
  | notOwner => "NFS3ERR_PERM"
  | noEntry => "NFS3ERR_NOENT"
  | io => "NFS3ERR_IO"
  | noDevice => "NFS3ERR_NXIO"
  | access => "NFS3ERR_ACCES"
  | .exists => "NFS3ERR_EXIST"
  | crossDevice => "NFS3ERR_XDEV"
  | noSuchDevice => "NFS3ERR_NODEV"
  | notDirectory => "NFS3ERR_NOTDIR"
  | isDirectory => "NFS3ERR_ISDIR"
  | invalid => "NFS3ERR_INVAL"
  | tooBig => "NFS3ERR_FBIG"
  | noSpace => "NFS3ERR_NOSPC"
  | readOnly => "NFS3ERR_ROFS"
  | tooManyLinks => "NFS3ERR_MLINK"
  | nameTooLong => "NFS3ERR_NAMETOOLONG"
  | notEmpty => "NFS3ERR_NOTEMPTY"
  | quota => "NFS3ERR_DQUOT"
  | stale => "NFS3ERR_STALE"
  | remote => "NFS3ERR_REMOTE"
  | badHandle => "NFS3ERR_BADHANDLE"
  | notSync => "NFS3ERR_NOT_SYNC"
  | badCookie => "NFS3ERR_BAD_COOKIE"
  | notSupported => "NFS3ERR_NOTSUPP"
  | tooSmall => "NFS3ERR_TOOSMALL"
  | serverFault => "NFS3ERR_SERVERFAULT"
  | badType => "NFS3ERR_BADTYPE"
  | tryLater => "NFS3ERR_JUKEBOX"

end NfsError

instance : Enumeration Status where
  members := .ok :: NfsError.all.map .failed
  number
    | .ok => 0
    | .failed cause => cause.number
  symbol
    | .ok => "NFS3_OK"
    | .failed cause => cause.symbol
  find_number
    | .ok => rfl
    | .failed cause => by cases cause <;> rfl

instance : Wire Status := ⟨.enumerator Status⟩

/-- The result of a call: a value of `α`, or a cause of failure and what `φ` adds to it. -/
inductive Outcome (α φ : Type)
  | ok (a : α)
  | failed (cause : NfsError) (detail : φ)
  deriving DecidableEq, Repr

namespace Outcome

variable {α φ : Type}

/-- The status of a result. -/
def status : Outcome α φ → Status
  | ok _ => .ok
  | failed cause _ => .failed cause

abbrev Payload (α φ : Type) : Status → Type
  | .ok => α
  | .failed _ => φ

/-- A result as its status and what follows. -/
def toTagged : Outcome α φ → (s : Status) × Payload α φ s
  | ok a => ⟨.ok, a⟩
  | failed cause detail => ⟨.failed cause, detail⟩

/-- The result with a status and what follows. -/
def ofTagged : (s : Status) × Payload α φ s → Outcome α φ
  | ⟨.ok, a⟩ => ok a
  | ⟨.failed cause, detail⟩ => failed cause detail

/-- The formats of what follows a status. -/
def payload (f : Format α) (g : Format φ) : (s : Status) → Format (Payload α φ s)
  | .ok => f
  | .failed _ => g

/-- A result is a status, followed by the value on success and by the detail on failure. -/
def format (f : Format α) (g : Format φ) : Format (Outcome α φ) :=
  .via ofTagged toTagged (fun o => by cases o <;> rfl) (fun ⟨s, _⟩ => by cases s <;> rfl)
    (.tagged Wire.format (payload f g))

instance [Wire α] [Wire φ] : Wire (Outcome α φ) := ⟨format Wire.format Wire.format⟩

end Outcome

end NfsServer.Nfs
