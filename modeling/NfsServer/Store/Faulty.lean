import NfsServer.Store.Basic

/-!
# Stores that misbehave on purpose

`Faulty σ` is a store of type `σ` seen through a layer that makes chosen operations fail and hides
or alters some of what the store reports.  A server in front of it shows how it copes.
-/

namespace NfsServer

/-- The operations that can be made to fail. -/
inductive StoreOperation
  | stat | create | read | write | makeDirectory | readDirectory | removeFile | removeDirectory
  | rename | setAttributes | symlink | readLink | space
  deriving DecidableEq, Repr

/-- The operation that a request asks for and the path that it is about.  A rename is about its
source, and the counts of a store are about its root. -/
def StoreRequest.subject? {α : Type} : StoreRequest α → Option (StoreOperation × Path)
  | .isReadOnly => none
  | .maxFileSize => none
  | .stat p => some (.stat, p)
  | .create p _ _ => some (.create, p)
  | .read p _ _ => some (.read, p)
  | .write p _ _ => some (.write, p)
  | .makeDirectory p _ => some (.makeDirectory, p)
  | .readDirectory p => some (.readDirectory, p)
  | .removeFile p => some (.removeFile, p)
  | .removeDirectory p => some (.removeDirectory, p)
  | .rename source _ => some (.rename, source)
  | .setAttributes p _ => some (.setAttributes, p)
  | .symlink p _ => some (.symlink, p)
  | .readLink p => some (.readLink, p)
  | .space => some (.space, .root)

/-- An operation that fails, at one place or everywhere. -/
structure Fault where
  operation : StoreOperation
  path : Option Path
  error : StoreError
  deriving DecidableEq, Repr

/-- Whether a fault strikes an operation at a path. -/
def Fault.strikes (f : Fault) (operation : StoreOperation) (path : Path) : Bool :=
  f.operation = operation && f.path.all fun p => p.location = path.location

/-- A store behind a layer of faults. -/
structure Faulty (σ : Type) where
  store : σ
  /-- The faults, of which the first that strikes counts. -/
  faults : List Fault
  /-- Names that every directory seems to hold besides its own. -/
  extraNames : List Bytes
  /-- Whether the numbers of objects are hidden. -/
  hidesFileIds : Bool
  /-- Whether the store seems to know neither a size limit nor any counts. -/
  hidesLimits : Bool

namespace Faulty

variable {σ : Type}

/-- The largest size limit that a store can have. -/
def largestFileSize : Nat := 0x7FFFFFFFFFFFFFFF

/-- The error with which a request fails, if a fault strikes it. -/
def fault? {α : Type} (s : Faulty σ) (r : StoreRequest α) : Option StoreError :=
  match r.subject? with
  | none => none
  | some (operation, path) => (s.faults.find? (·.strikes operation path)).map Fault.error

/-- Attributes as the layer lets them through. -/
def filter (s : Faulty σ) (m : Metadata) : Metadata :=
  if s.hidesFileIds then { m with fileId := none } else m

/-- Attributes or an error as the layer lets them through. -/
def filterAnswer (s : Faulty σ) (answer : Except StoreError Metadata) :
    Except StoreError Metadata :=
  answer.map s.filter

/-- The entries of a directory as the layer lets them through, and behind them the extra names,
which seem to be files with the attributes of the directory. -/
def filterChildren (s : Faulty σ) (directory : Except StoreError Metadata)
    (children : List Child) : List Child :=
  let extra := match directory with
    | .ok m => s.extraNames.map fun name => ⟨name, { m with kind := .file }⟩
    | .error _ => []
  (children ++ extra).map fun c => { c with metadata := s.filter c.metadata }

/-- Passes a request on to the store. -/
def forward [Store σ] {α : Type} (now : Time) (r : StoreRequest α) (s : Faulty σ) : α × Faulty σ :=
  let (a, store) := Store.perform now r s.store
  (a, { s with store })

/-- Passes on a request for attributes. -/
def forwardMetadata [Store σ] (now : Time) (r : StoreRequest (Except StoreError Metadata))
    (s : Faulty σ) : Except StoreError Metadata × Faulty σ :=
  match s.fault? r with
  | some e => (.error e, s)
  | none =>
    let (a, s) := s.forward now r
    (s.filterAnswer a, s)

/-- Passes on any other request that can fail. -/
def forwardFallible [Store σ] {α : Type} (now : Time) (r : StoreRequest (Except StoreError α))
    (s : Faulty σ) : Except StoreError α × Faulty σ :=
  match s.fault? r with
  | some e => (.error e, s)
  | none => s.forward now r

/-- The answer to a request, and the store behind it. -/
def perform [Store σ] {α : Type} (now : Time) : StoreRequest α → Faulty σ → α × Faulty σ
  | .isReadOnly, s => s.forward now .isReadOnly
  | .maxFileSize, s =>
    if s.hidesLimits then (largestFileSize, s) else s.forward now .maxFileSize
  | .stat p, s => s.forwardMetadata now (.stat p)
  | .create p mode exclusive, s => s.forwardMetadata now (.create p mode exclusive)
  | .read p offset count, s => s.forwardFallible now (.read p offset count)
  | .write p offset data, s => s.forwardMetadata now (.write p offset data)
  | .makeDirectory p mode, s => s.forwardMetadata now (.makeDirectory p mode)
  | .readDirectory p, s =>
    match s.fault? (.readDirectory p) with
    | some e => (.error e, s)
    | none =>
      let (children, s) := s.forward now (.readDirectory p)
      let (directory, s) := s.forward now (.stat p)
      (children.map (s.filterChildren directory), s)
  | .removeFile p, s => s.forwardFallible now (.removeFile p)
  | .removeDirectory p, s => s.forwardFallible now (.removeDirectory p)
  | .rename source target, s => s.forwardFallible now (.rename source target)
  | .setAttributes p changes, s => s.forwardMetadata now (.setAttributes p changes)
  | .symlink p target, s => s.forwardMetadata now (.symlink p target)
  | .readLink p, s => s.forwardFallible now (.readLink p)
  | .space, s =>
    match s.fault? .space with
    | some e => (.error e, s)
    | none => if s.hidesLimits then (.ok ⟨0, 0, 0, 0, 0, 0⟩, s) else s.forward now .space

instance [Store σ] : Store (Faulty σ) := ⟨fun now r s => perform now r s⟩

end Faulty

end NfsServer
