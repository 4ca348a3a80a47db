import NfsServer.Mount.Mounting

/-!
# The procedures of the mount service

For each procedure the table gives the type and the format of its arguments and of its results, and
the program that turns the one into the other.
-/

namespace NfsServer.Mount

/-- The procedures. -/
inductive Procedure
  | null | mount | listMounts | unmount | unmountAll | listExports
  deriving DecidableEq, Repr

namespace Procedure

/-- The number of the mount service. -/
def program : UInt32 := 100005

instance : Enumeration Procedure where
  members := [null, mount, listMounts, unmount, unmountAll, listExports]
  number
    | null => 0
    | mount => 1
    | listMounts => 2
    | unmount => 3
    | unmountAll => 4
    | listExports => 5
  symbol
    | .null => "MOUNTPROC3_NULL"
    | .mount => "MOUNTPROC3_MNT"
    | .listMounts => "MOUNTPROC3_DUMP"
    | .unmount => "MOUNTPROC3_UMNT"
    | .unmountAll => "MOUNTPROC3_UMNTALL"
    | .listExports => "MOUNTPROC3_EXPORT"
  find_number p := by cases p <;> rfl

/-- The arguments of a procedure. -/
abbrev Args : Procedure → Type
  | mount | unmount => Bytes
  | null | listMounts | unmountAll | listExports => Unit

/-- The results of a procedure. -/
abbrev Result : Procedure → Type
  | mount => MountResult
  | listMounts => Bool
  | listExports => ExportList
  | null | unmount | unmountAll => Unit

/-- The format of the arguments of a procedure. -/
def argsFormat : (p : Procedure) → Format p.Args
  | null | mount | listMounts | unmount | unmountAll | listExports => Wire.format

/-- The format of the results of a procedure. -/
def resultFormat : (p : Procedure) → Format p.Result
  | null | mount | listMounts | unmount | unmountAll | listExports => Wire.format

/-- The program of a procedure. -/
def perform (exportName : Text) : (p : Procedure) → p.Args → Program p.Result
  | null, _ => return ()
  | mount, name => Mount.mount exportName name
  | listMounts, _ => return false
  | unmount, _ => Mount.unmount
  | unmountAll, _ => Mount.unmount
  | listExports, _ => return Mount.exports exportName

end Procedure

end NfsServer.Mount
