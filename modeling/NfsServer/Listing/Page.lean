import NfsServer.Listing.Basic
import NfsServer.Nfs.Results

/-!
# Pages of a listing

A page is as much of a listing as fits into the sizes that a client allows (`PageBudget`).  Entries
are taken one after the other while they fit (`Page.cut`), so that a page is the longest beginning
of what is left of the listing that keeps within the budget.
-/

namespace NfsServer

/-- The sizes that a page must keep. -/
structure PageBudget where
  /-- The size of the whole result. -/
  maxBytes : Nat
  /-- The size of the numbers, names and cookies of all entries. -/
  maxDirectoryBytes : Option Nat
  /-- The room kept in every entry for a handle that is put in later. -/
  handleReserve : Nat
  deriving DecidableEq, Repr

namespace PageBudget

/-- The longest handle that clients accept. -/
def maxHandleLength : Nat := 64

/-- The budget of a page without handles. -/
def plain (count : UInt32) : PageBudget := ⟨count.toNat, none, 0⟩

/-- The budget of a page with handles: room is kept for the length word and the longest handle. -/
def withHandles (directoryCount maxCount : UInt32) : PageBudget :=
  ⟨maxCount.toNat, some directoryCount.toNat, 4 + maxHandleLength⟩

end PageBudget

/-- A part of a listing. -/
structure Page (ε : Type) where
  entries : List ε
  endOfList : Bool
  deriving DecidableEq, Repr

namespace Page

variable {ε : Type}

/-- The size of a result besides its entries: the attributes of the directory, the verifier, the
end of the list, and the mark of the last page. -/
def overhead : Nat := 4 + 84 + 8 + 4 + 4

/-- The size of the number, the name and the cookie of an entry. -/
def directoryBytes (e : ListedEntry) : Nat :=
  8 + 4 + (e.name.length + Format.padding e.name.length) + 8

/-- The size of an entry in a result: the mark that it follows, its spelling, and the room kept for
its handle. -/
def entryBytes [Wire ε] (budget : PageBudget) (entry : ε) : Nat :=
  4 + (encode entry).length + budget.handleReserve

/-- The entries that fit, and how many were made to find out. -/
structure Cut (ε : Type) where
  entries : List ε
  made : Nat
  deriving DecidableEq, Repr

/-- Takes entries while they fit behind `used` bytes, of which `directoryUsed` are numbers, names
and cookies; `cookie` is the cookie of the entry before. -/
def cutFrom [Wire ε] (budget : PageBudget) (make : ListedEntry → UInt64 → ε) :
    (used directoryUsed cookie : Nat) → List ListedEntry → Cut ε
  | _, _, _, [] => ⟨[], 0⟩
  | used, directoryUsed, cookie, listed :: rest =>
    if budget.maxDirectoryBytes.any (· < directoryUsed + directoryBytes listed) then ⟨[], 0⟩
    else
      let entry := make listed (UInt64.ofNat (cookie + 1))
      if budget.maxBytes < used + entryBytes budget entry then ⟨[], 1⟩
      else
        let cut := cutFrom budget make (used + entryBytes budget entry)
          (directoryUsed + directoryBytes listed) (cookie + 1) rest
        ⟨entry :: cut.entries, cut.made + 1⟩

/-- The entries of a listing from index `start` on that fit. -/
def cut [Wire ε] (l : Listing) (start : Nat) (budget : PageBudget)
    (make : ListedEntry → UInt64 → ε) : Cut ε :=
  cutFrom budget make overhead 0 start (l.entries.drop start)

/-- The page of a listing from index `start` on.  Where entries are left, one must fit. -/
def of [Wire ε] (l : Listing) (start : Nat) (budget : PageBudget)
    (make : ListedEntry → UInt64 → ε) : Except Nfs.NfsError (Page ε) :=
  let remaining := (l.entries.drop start).length
  let entries := (cut l start budget make).entries
  if entries = [] ∧ remaining ≠ 0 then .error .tooSmall
  else .ok ⟨entries, decide (entries.length = remaining)⟩

/-! ### Entries -/

/-- The entry of a page without attributes. -/
def plainEntry (e : ListedEntry) (cookie : UInt64) : Nfs.Entry := ⟨e.fileId, e.name, cookie⟩

/-- The entry of a page with attributes; its handle is put in later. -/
def fullEntry (e : ListedEntry) (cookie : UInt64) : Nfs.EntryPlus :=
  ⟨e.fileId, e.name, cookie, some e.attributes, none⟩

end Page

end NfsServer
