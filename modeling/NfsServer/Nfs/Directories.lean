import NfsServer.Listing.Page
import NfsServer.Nfs.Queries

/-!
# Procedures that list directories

Both procedures answer with one page of the listing of a directory.  The second one adds attributes
and handles, and issues handles only for the entries that the client receives.
-/

namespace NfsServer.Nfs

/-- The listing of a directory and the index at which a client goes on. -/
def listFrom (directory : Path) (m : Metadata) (cookie : UInt64) (verifier : FixedBytes 8) :
    Program (Except NfsError (Listing × Nat)) := do
  match ← Listing.read directory m with
  | .error e => return .error e
  | .ok listing =>
    match listing.resume cookie verifier with
    | .error e => return .error e
    | .ok start => return .ok (listing, start)

/-- Answers with a page of a directory: `cut` makes the page from the listing and an index. -/
def listDirectory {ε : Type} (directory : FileHandle) (cookie : UInt64) (verifier : FixedBytes 8)
    (cut : Listing → Nat → Program (Except NfsError (Page ε))) :
    Program (Outcome (DirectoryPage ε) (Option FileAttributes)) := do
  match ← Program.resolve directory with
  | .error e => return .failed e none
  | .ok path =>
    match ← attempt (.stat path) with
    | .error e => return .failed e none
    | .ok m =>
      let attributes := some (m.attributesAt path)
      if !m.isDirectory then return .failed .notDirectory attributes
      match ← listFrom path m cookie verifier with
      | .error e => return .failed e attributes
      | .ok (listing, start) =>
        match ← cut listing start with
        | .error e => return .failed e attributes
        | .ok page => return .ok ⟨attributes, listing.verifier, page.entries, page.endOfList⟩

/-- A page of a directory. -/
def readDirectory (args : ReadDirectoryArgs) :
    Program (Outcome (DirectoryPage Entry) (Option FileAttributes)) :=
  listDirectory args.directory args.cookie args.verifier fun listing start =>
    return Page.of listing start (.plain args.count) Page.plainEntry

/-- Puts handles into entries, one after the other. -/
def attachHandles : List EntryPlus → List ListedEntry → Program (List EntryPlus)
  | entry :: entries, listed :: rest => do
    let handle ← Program.issue listed.path
    let entries ← attachHandles entries rest
    return { entry with handle := some handle } :: entries
  | entries, _ => return entries

/-- A page of a directory with attributes and handles. -/
def readDirectoryPlus (args : ReadDirectoryPlusArgs) :
    Program (Outcome (DirectoryPage EntryPlus) (Option FileAttributes)) :=
  listDirectory args.directory args.cookie args.verifier fun listing start => do
    let budget := PageBudget.withHandles args.directoryCount args.maxCount
    match Page.of listing start budget Page.fullEntry with
    | .error e => return .error e
    | .ok page =>
      let entries ← attachHandles page.entries (listing.entries.drop start)
      return .ok { page with entries }

end NfsServer.Nfs
