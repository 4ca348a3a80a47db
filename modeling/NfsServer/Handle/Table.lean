import NfsServer.Handle.Cache
import NfsServer.Nfs.Status
import NfsServer.Text.Utf8

/-!
# Handle tables

How a server turns paths into handles and back: either the handle is the text of the path, or a
`HandleCache` issues handles that say nothing about it.
-/

namespace NfsServer

/-- How paths become handles. -/
inductive HandleTable
  /-- A handle is the text of its path. -/
  | pathText
  /-- Handles are issued by a cache. -/
  | cached (cache : HandleCache)

namespace HandleTable

/-- The handle of a path. -/
def issue (t : HandleTable) (p : Path) : FileHandle × HandleTable :=
  match t with
  | pathText => (⟨p.text⟩, pathText)
  | cached c =>
    let (h, c) := c.issue p
    (h, cached c)

/-- The path of a handle.  A handle of a cache that is not live is stale, and a handle that is not
the text of an absolute path is malformed. -/
def resolve (t : HandleTable) (h : FileHandle) : Except Nfs.NfsError Path × HandleTable :=
  match t with
  | pathText =>
    if h.bytes.head? = some Path.slash && Utf8.isValid h.bytes then (.ok ⟨h.bytes⟩, pathText)
    else (.error .badHandle, pathText)
  | cached c =>
    match c.resolve h with
    | (some p, c) => (.ok p, cached c)
    | (none, c) => (.error .stale, cached c)

/-- Makes a handle stale. -/
def forget (t : HandleTable) (h : FileHandle) : HandleTable :=
  match t with
  | pathText => pathText
  | cached c => cached (c.forget h)

/-- Makes the handles of a path and of all that lies below it stale. -/
def forgetPath (t : HandleTable) (p : Path) : HandleTable :=
  match t with
  | pathText => pathText
  | cached c => cached (c.forgetPath p)

/-- The limit of a table that has none: the largest 64-bit number. -/
def unlimited : Nat := 0xFFFFFFFFFFFFFFFF

/-- How many handles are kept alive. -/
def limit : HandleTable → Nat
  | pathText => unlimited
  | cached c => c.capacity

end HandleTable

end NfsServer
