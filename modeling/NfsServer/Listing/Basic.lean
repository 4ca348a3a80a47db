import NfsServer.Nfs.Conversion

/-!
# Directory listings

A listing of a directory holds `.`, `..` and then the children in the order of the bytes of their
names.  The entry at index `i` has the cookie `i + 1`, so that the cookie of the last entry that a
client has is the index at which it goes on (`Listing.resume`).  The verifier of a listing is a
digest of the directory's place and the names in it; with it a client shows that its cookie belongs
to the directory as it still is.
-/

namespace NfsServer

/-- An entry of a listing. -/
structure ListedEntry where
  name : Bytes
  path : Path
  metadata : Metadata
  deriving DecidableEq, Repr

namespace ListedEntry

/-- The attributes of the object of an entry. -/
def attributes (e : ListedEntry) : Nfs.FileAttributes := e.metadata.attributesAt e.path

/-- What tells the object of an entry apart. -/
def fileId (e : ListedEntry) : UInt64 := e.attributes.fileId

end ListedEntry

/-- The entries of a directory at one point in time. -/
structure Listing where
  entries : List ListedEntry
  verifier : FixedBytes 8
  deriving DecidableEq, Repr

namespace Listing

/-- The children of a directory in the order of their names. -/
def sorted (children : List Child) : List Child :=
  children.mergeSort fun a b => decide (a.name ≤ b.name)

/-- The message that stands for a directory and the names of its children. -/
def message (directory : Location) (names : List Bytes) : Bytes :=
  directory.message ++ names.flatMap fun name => Bytes.littleEndian 8 name.length ++ name

/-- The verifier of a directory with the given names, which is never zero. -/
def verifierOf (directory : Location) (names : List Bytes) : FixedBytes 8 :=
  let digest := SipHash.hash (message directory names)
  Bytes.ofHyper (if digest = 0 then 1 else digest)

/-- The entries of the children of a directory. -/
def childEntries (directory : Path) : List Child → Except Nfs.NfsError (List ListedEntry)
  | [] => .ok []
  | c :: rest =>
    match directory.entry c.name with
    | .error _ => .error .invalid
    | .ok path =>
      match childEntries directory rest with
      | .error e => .error e
      | .ok entries => .ok (⟨c.name, path, c.metadata⟩ :: entries)

/-- The attributes of the directory that holds a directory; the root holds itself. -/
def parentMetadata (directory : Path) (m : Metadata) : Program (Except Nfs.NfsError Metadata) :=
  if directory.parent.SamePlace directory then pure (.ok m)
  else Nfs.attempt (.stat directory.parent)

/-- The listing of a directory with the given attributes. -/
def read (directory : Path) (m : Metadata) : Program (Except Nfs.NfsError Listing) := do
  match ← Nfs.attempt (.readDirectory directory) with
  | .error e => return .error e
  | .ok children =>
    let children := sorted children
    match ← parentMetadata directory m with
    | .error e => return .error e
    | .ok parent =>
      match childEntries directory children with
      | .error e => return .error e
      | .ok entries =>
        return .ok
          { entries :=
              ⟨[Path.dot], directory, m⟩ :: ⟨[Path.dot, Path.dot], directory.parent, parent⟩ ::
                entries
            verifier := verifierOf directory.location (children.map Child.name) }

/-- The index of the first entry behind a cookie.  A verifier of zeros goes with every listing, for
clients that never send one back. -/
def resume (l : Listing) (cookie : UInt64) (verifier : FixedBytes 8) : Except Nfs.NfsError Nat :=
  if cookie = 0 then .ok 0
  else if verifier ≠ Bytes.zeros 8 ∧ verifier ≠ l.verifier then .error .badCookie
  else if cookie.toNat ≤ l.entries.length then .ok cookie.toNat
  else .error .badCookie

end Listing

end NfsServer
