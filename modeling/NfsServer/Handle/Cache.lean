import NfsServer.Handle.Source
import NfsServer.Path.Basic

/-!
# The handle cache

A `HandleCache` binds handles to paths and keeps a bounded number of bindings, the last used one
first.  A second table finds the handle of a place; the operations change both tables together.  A
path that has no live handle gets one that is drawn from a source; when there is no room for it, the
binding that has not been used for the longest time is dropped, and its handle is dead for ever.
-/

namespace NfsServer

/-- A handle and the path that it stands for. -/
structure Binding where
  handle : FileHandle
  path : Path
  deriving DecidableEq, Repr

/-- A bounded table of handles. -/
structure HandleCache where
  /-- Where fresh handles come from. -/
  ids : HandleSource
  /-- How many bindings are kept. -/
  capacity : Nat
  /-- The live bindings, the last used one first. -/
  bindings : List Binding
  /-- The places that have a handle, each with its handle. -/
  places : List (Location × FileHandle)
  /-- How many handles have been issued. -/
  issued : Nat

namespace HandleCache

/-- The empty cache that keeps at most `limit` bindings, but at least one.  Unless there is another
source, it numbers its handles. -/
def empty (limit : Nat) (ids : HandleSource := .serials) : HandleCache :=
  ⟨ids, max limit 1, [], [], 0⟩

/-- The handle of a place. -/
def handleAt? (c : HandleCache) (l : Location) : Option FileHandle := c.places.lookup l

/-- The live binding of a handle. -/
def binding? (c : HandleCache) (h : FileHandle) : Option Binding :=
  c.bindings.find? fun b => b.handle = h

/-- The live binding of a place: that of its handle. -/
def bindingOf? (c : HandleCache) (l : Location) : Option Binding :=
  (c.handleAt? l).bind c.binding?

/-- Drops the binding of a handle. -/
def forget (c : HandleCache) (h : FileHandle) : HandleCache :=
  match c.binding? h with
  | some b =>
    { c with
      bindings := c.bindings.filter fun b' => b'.handle ≠ h
      places := c.places.filter fun e => e.1 ≠ b.path.location }
  | none => c

/-- Puts a live binding in front. -/
def use (c : HandleCache) (b : Binding) : HandleCache :=
  { c with bindings := b :: c.bindings.filter fun b' => b'.handle ≠ b.handle }

/-- Makes room for one more binding: a full cache drops the last one. -/
def evict (c : HandleCache) : HandleCache :=
  if c.bindings.length < c.capacity then c
  else
    match c.bindings.getLast? with
    | some last =>
      { c with
        bindings := c.bindings.dropLast
        places := c.places.filter fun e => e.1 ≠ last.path.location }
    | none => c

/-- Puts a new binding in front, where there is room for it. -/
def add (c : HandleCache) (b : Binding) : HandleCache :=
  { c with
    bindings := b :: c.bindings
    places := (b.path.location, b.handle) :: c.places.filter fun e => e.1 ≠ b.path.location
    issued := c.issued + 1 }

/-- The live handle of a path, or else a fresh one. -/
def issue (c : HandleCache) (p : Path) : FileHandle × HandleCache :=
  match c.bindingOf? p.location with
  | some b => (b.handle, c.use b)
  | none =>
    let h := c.ids.draw c.issued
    (h, c.evict.add ⟨h, p⟩)

/-- The path that a live handle stands for. -/
def resolve (c : HandleCache) (h : FileHandle) : Option Path × HandleCache :=
  match c.binding? h with
  | some b => (some b.path, c.use b)
  | none => (none, c)

/-- The handles of a place and of all that lies below it. -/
def handlesBelow (c : HandleCache) (l : Location) : List FileHandle :=
  (c.places.filter fun e => l.isPrefixOf e.1).map Prod.snd

/-- Drops the bindings of a path and of all that lies below it. -/
def forgetPath (c : HandleCache) (p : Path) : HandleCache :=
  (c.handlesBelow p.location).foldl forget c

end HandleCache

end NfsServer
