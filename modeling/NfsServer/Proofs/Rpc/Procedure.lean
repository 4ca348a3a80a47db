import NfsServer.Proofs.Mount
import NfsServer.Proofs.Nfs.Changes
import NfsServer.Proofs.Nfs.Directories
import NfsServer.Rpc.Dispatch

/-!
# All procedures keep handles
-/

namespace NfsServer

variable {now : Time} {b : Backend Memory}

theorem Program.Stable.responding {α : Type} {p : Program α} (hb : b.Sound)
    (h : p.Stable now b fun _ _ => True) : p.responding.Stable now b fun _ _ => True :=
  h.bind hb fun _ _ hb' _ => Program.stable_pure hb' trivial

namespace Nfs

theorem Procedure.stable_perform (hb : b.Sound) (verifier : FixedBytes 8) (p : Procedure)
    (args : p.Args) : (p.perform now verifier args).Stable now b fun _ _ => True := by
  cases p with
  | null => exact Program.stable_pure hb trivial
  | getAttributes => exact ((asks_getAttributes args).stable hb).responding hb
  | setAttributes => exact (stable_setAttributes hb args).responding hb
  | lookup => exact (stable_lookup hb args).responding hb
  | access => exact ((asks_access args).stable hb).responding hb
  | readLink => exact ((asks_readLink args).stable hb).responding hb
  | read => exact ((asks_read args).stable hb).responding hb
  | write => exact stable_write hb verifier args
  | create => exact (stable_create hb args).responding hb
  | makeDirectory => exact (stable_makeDirectory hb args).responding hb
  | makeSymlink => exact (stable_makeSymlink hb args).responding hb
  | makeNode => exact ((asks_makeNode args).stable hb).responding hb
  | remove => exact (stable_remove hb args).responding hb
  | removeDirectory => exact (stable_removeDirectory hb args).responding hb
  | rename => exact (stable_rename hb args).responding hb
  | makeLink => exact ((asks_makeLink args).stable hb).responding hb
  | readDirectory => exact ((asks_readDirectory args).stable hb).responding hb
  | readDirectoryPlus => exact (stable_readDirectoryPlus hb args).responding hb
  | fileSystemSpace => exact ((asks_fileSystemSpace args).stable hb).responding hb
  | fileSystemLimits => exact ((asks_fileSystemLimits args).stable hb).responding hb
  | namingLimits => exact ((asks_namingLimits args).stable hb).responding hb
  | commit => exact ((asks_commit verifier args).stable hb).responding hb

end Nfs

namespace Mount

theorem Procedure.stable_perform (hb : b.Sound) (exportName : Text) (p : Procedure)
    (args : p.Args) : (p.perform exportName args).Stable now b fun _ _ => True := by
  cases p with
  | null => exact Program.stable_pure hb trivial
  | mount => exact stable_mount hb exportName args
  | listMounts => exact Program.stable_pure hb trivial
  | unmount => exact stable_unmount hb
  | unmountAll => exact stable_unmount hb
  | listExports => exact Program.stable_pure hb trivial

end Mount

namespace Rpc

/-- Whatever procedure is performed, handles follow objects. -/
theorem Procedure.stable_perform (hb : b.Sound) (verifier : FixedBytes 8) (exportName : Text)
    (p : Procedure) (args : p.Args) :
    (p.perform now verifier exportName args).Stable now b fun _ _ => True := by
  cases p with
  | nfs p => exact p.stable_perform hb verifier args
  | mount p => exact (p.stable_perform hb exportName args).responding hb

end Rpc

end NfsServer
