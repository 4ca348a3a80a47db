import NfsServer.Nfs.Changes
import NfsServer.Nfs.Directories

/-!
# The procedures of the file service

For each procedure the table gives the type and the format of its arguments and of its results, and
the program that turns the one into the other.
-/

namespace NfsServer.Nfs

/-- The procedures. -/
inductive Procedure
  | null | getAttributes | setAttributes | lookup | access | readLink | read | write | create
  | makeDirectory | makeSymlink | makeNode | remove | removeDirectory | rename | makeLink
  | readDirectory | readDirectoryPlus | fileSystemSpace | fileSystemLimits | namingLimits | commit
  deriving DecidableEq, Repr

namespace Procedure

/-- The number of the file service. -/
def program : UInt32 := 100003

instance : Enumeration Procedure where
  members := [null, getAttributes, setAttributes, lookup, access, readLink, read, write, create,
    makeDirectory, makeSymlink, makeNode, remove, removeDirectory, rename, makeLink,
    readDirectory, readDirectoryPlus, fileSystemSpace, fileSystemLimits, namingLimits, commit]
  number
    | null => 0
    | getAttributes => 1
    | setAttributes => 2
    | lookup => 3
    | access => 4
    | readLink => 5
    | read => 6
    | write => 7
    | create => 8
    | makeDirectory => 9
    | makeSymlink => 10
    | makeNode => 11
    | remove => 12
    | removeDirectory => 13
    | rename => 14
    | makeLink => 15
    | readDirectory => 16
    | readDirectoryPlus => 17
    | fileSystemSpace => 18
    | fileSystemLimits => 19
    | namingLimits => 20
    | commit => 21
  symbol
    | .null => "NFSPROC3_NULL"
    | .getAttributes => "NFSPROC3_GETATTR"
    | .setAttributes => "NFSPROC3_SETATTR"
    | .lookup => "NFSPROC3_LOOKUP"
    | .access => "NFSPROC3_ACCESS"
    | .readLink => "NFSPROC3_READLINK"
    | .read => "NFSPROC3_READ"
    | .write => "NFSPROC3_WRITE"
    | .create => "NFSPROC3_CREATE"
    | .makeDirectory => "NFSPROC3_MKDIR"
    | .makeSymlink => "NFSPROC3_SYMLINK"
    | .makeNode => "NFSPROC3_MKNOD"
    | .remove => "NFSPROC3_REMOVE"
    | .removeDirectory => "NFSPROC3_RMDIR"
    | .rename => "NFSPROC3_RENAME"
    | .makeLink => "NFSPROC3_LINK"
    | .readDirectory => "NFSPROC3_READDIR"
    | .readDirectoryPlus => "NFSPROC3_READDIRPLUS"
    | .fileSystemSpace => "NFSPROC3_FSSTAT"
    | .fileSystemLimits => "NFSPROC3_FSINFO"
    | .namingLimits => "NFSPROC3_PATHCONF"
    | .commit => "NFSPROC3_COMMIT"
  find_number p := by cases p <;> rfl

/-- The arguments of a procedure. -/
abbrev Args : Procedure → Type
  | null => Unit
  | getAttributes => FileHandle
  | setAttributes => SetAttributesArgs
  | lookup => EntryName
  | access => AccessArgs
  | readLink => FileHandle
  | read => ReadArgs
  | write => WriteArgs
  | create => CreateArgs
  | makeDirectory => MakeDirectoryArgs
  | makeSymlink => SymlinkArgs
  | makeNode => MakeNodeArgs
  | remove => EntryName
  | removeDirectory => EntryName
  | rename => RenameArgs
  | makeLink => LinkArgs
  | readDirectory => ReadDirectoryArgs
  | readDirectoryPlus => ReadDirectoryPlusArgs
  | fileSystemSpace => FileHandle
  | fileSystemLimits => FileHandle
  | namingLimits => FileHandle
  | commit => CommitArgs

/-- The results of a procedure. -/
abbrev Result : Procedure → Type
  | null => Unit
  | getAttributes => Outcome FileAttributes Unit
  | setAttributes => Outcome WccData WccData
  | lookup => Outcome LookupResult (Option FileAttributes)
  | access => Outcome AccessResult (Option FileAttributes)
  | readLink => Outcome ReadLinkResult (Option FileAttributes)
  | read => Outcome ReadResult (Option FileAttributes)
  | write => Outcome WriteResult WccData
  | create => Outcome CreateResult WccData
  | makeDirectory => Outcome CreateResult WccData
  | makeSymlink => Outcome CreateResult WccData
  | makeNode => Outcome WccData WccData
  | remove => Outcome WccData WccData
  | removeDirectory => Outcome WccData WccData
  | rename => Outcome RenameDirectories RenameDirectories
  | makeLink => Outcome LinkObjects LinkObjects
  | readDirectory => Outcome (DirectoryPage Entry) (Option FileAttributes)
  | readDirectoryPlus => Outcome (DirectoryPage EntryPlus) (Option FileAttributes)
  | fileSystemSpace => Outcome SpaceResult (Option FileAttributes)
  | fileSystemLimits => Outcome LimitsResult (Option FileAttributes)
  | namingLimits => Outcome NamingResult (Option FileAttributes)
  | commit => Outcome CommitResult WccData

/-- The format of the arguments of a procedure. -/
def argsFormat : (p : Procedure) → Format p.Args
  | null | getAttributes | setAttributes | lookup | access | readLink | read | write | create
  | makeDirectory | makeSymlink | makeNode | remove | removeDirectory | rename | makeLink
  | readDirectory | readDirectoryPlus | fileSystemSpace | fileSystemLimits | namingLimits
  | commit => Wire.format

/-- The format of the results of a procedure. -/
def resultFormat : (p : Procedure) → Format p.Result
  | null | getAttributes | setAttributes | lookup | access | readLink | read | write | create
  | makeDirectory | makeSymlink | makeNode | remove | removeDirectory | rename | makeLink
  | readDirectory | readDirectoryPlus | fileSystemSpace | fileSystemLimits | namingLimits
  | commit => Wire.format

/-- The program of a procedure; `verifier` tells this run of the server from others. -/
def perform (now : Time) (verifier : FixedBytes 8) :
    (p : Procedure) → p.Args → Program (Response p.Result)
  | null, _ => return .results ()
  | getAttributes, args => (Nfs.getAttributes args).responding
  | setAttributes, args => (Nfs.setAttributes now args).responding
  | lookup, args => (Nfs.lookup args).responding
  | access, args => (Nfs.access args).responding
  | readLink, args => (Nfs.readLink args).responding
  | read, args => (Nfs.read args).responding
  | write, args => Nfs.write verifier args
  | create, args => (Nfs.create now args).responding
  | makeDirectory, args => (Nfs.makeDirectory now args).responding
  | makeSymlink, args => (Nfs.makeSymlink args).responding
  | makeNode, args => (Nfs.makeNode args).responding
  | remove, args => (Nfs.remove args).responding
  | removeDirectory, args => (Nfs.removeDirectory args).responding
  | rename, args => (Nfs.rename args).responding
  | makeLink, args => (Nfs.makeLink args).responding
  | readDirectory, args => (Nfs.readDirectory args).responding
  | readDirectoryPlus, args => (Nfs.readDirectoryPlus args).responding
  | fileSystemSpace, args => (Nfs.fileSystemSpace args).responding
  | fileSystemLimits, args => (Nfs.fileSystemLimits args).responding
  | namingLimits, args => (Nfs.namingLimits args).responding
  | commit, args => (Nfs.commit verifier args).responding

end Procedure

end NfsServer.Nfs
