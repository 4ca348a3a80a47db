import NfsServer.Proofs.Frame
import NfsServer.Proofs.Handle.Stable
import NfsServer.Proofs.Nfs.Changes
import NfsServer.Proofs.Nfs.Queries
import NfsServer.Proofs.Store.Data

/-!
# Calls on one object

What the procedures that read, write and change one object answer for a live handle, and what they
leave.  The handle stands for the object at a place (`Backend.StandsFor`), so that each of them
comes down to one request to the store.
-/

namespace NfsServer

namespace Backend

variable {b : Backend Memory} {h : FileHandle} {p : Path} {o : Object}

/-- The handle is live, and this is the object at the place that it stands for. -/
structure StandsFor (b : Backend Memory) (h : FileHandle) (p : Path) (o : Object) : Prop where
  resolve : (b.handles.resolve h).1 = .ok p
  find? : b.store.find? p.location = some o

/-- What is left when a handle has been looked up and the store has been changed. -/
def resolvedWith (b : Backend Memory) (h : FileHandle) (store : Memory) : Backend Memory :=
  { b.resolved h with store }

/-- A handle that has been looked up stands for what is at its place then. -/
theorem StandsFor.resolvedWith (hb : b.handles.WellFormed) (hobject : b.StandsFor h p o)
    {store : Memory} {o' : Object} (ho' : store.find? p.location = some o') :
    (b.resolvedWith h store).StandsFor h p o' :=
  ⟨hb.resolve_after hobject.resolve h, ho'⟩

/-- A live handle of a cache stands for an object. -/
theorem Sound.exists_standsFor (hb : b.Sound) (hcached : ∃ c, b.handles = .cached c)
    (hpath : (b.handles.resolve h).1 = .ok p) : ∃ o, b.StandsFor h p o := by
  obtain ⟨f, hf⟩ := hb.idAt _ (HandleTable.mem_bindings_of_resolve hcached hpath)
  obtain ⟨o, ho, -⟩ := Memory.idAt_eq_some_iff.1 hf
  exact ⟨o, hpath, ho⟩

end Backend

namespace Nfs

open Program

variable {now : Time} {b : Backend Memory} {h : FileHandle} {p : Path} {o : Object}

/-! ## Asking the store -/

theorem run_attempt {α : Type} (r : StoreRequest (Except StoreError α)) (now : Time)
    (b : Backend Memory) : (attempt r).run now b =
      (report (Memory.perform now r b.store).1,
        { b with store := (Memory.perform now r b.store).2 }) := rfl

section Object

variable (ho : b.store.find? p.location = some o)

include ho

theorem run_attempt_stat_of_find? :
    (attempt (.stat p)).run now b = (.ok o.metadata, b) := by
  have hstat : b.store.stat p.location = .ok o.metadata := Memory.stat_eq_ok_iff.2 ⟨o, ho, rfl⟩
  exact congrArg (fun r => (report r, b)) hstat

theorem run_attributesOf? :
    (attributesOf? p).run now b = (some (o.metadata.attributesAt p), b) := by
  rw [attributesOf?, run_bind, run_attempt_stat_of_find? ho]
  rfl

theorem run_wccOf? : (wccOf? p).run now b = (some o.metadata.toWcc, b) := by
  rw [wccOf?, run_bind, run_attempt_stat_of_find? ho]
  rfl

theorem run_wccSince (before : Option WccAttributes) :
    (wccSince before p).run now b = (⟨before, some (o.metadata.attributesAt p)⟩, b) := by
  rw [wccSince, run_bind, run_attributesOf? ho]
  rfl

theorem run_wccSince_pure {α : Type} (before : Option WccAttributes) (f : WccData → α) :
    (wccSince before p >>= fun wcc => pure (f wcc)).run now b =
      (f ⟨before, some (o.metadata.attributesAt p)⟩, b) := by
  rw [run_bind, run_wccSince ho]
  rfl

end Object

/-! ## Procedures -/

/-- The attributes of an object, before and after a call that leaves it as it is. -/
def unchangedWcc (o : Object) (p : Path) : WccData :=
  ⟨some o.metadata.toWcc, some (o.metadata.attributesAt p)⟩

theorem run_isReadOnly (now : Time) (b : Backend Memory) :
    isReadOnly.run now b = (b.store.isReadOnly, b) := rfl

theorem run_getAttributes_of_standsFor (now : Time) (hb : b.StandsFor h p o) :
    (getAttributes h).run now b = (.ok (o.metadata.attributesAt p), b.resolved h) := by
  have ho : (b.resolved h).store.find? p.location = some o := hb.find?
  rw [getAttributes, run_resolve_then hb.resolve]
  dsimp only
  rw [run_bind, ← Backend.resolved, run_attempt_stat_of_find? ho]
  rfl

/-- A read ends with what the store has read. -/
theorem run_read (now : Time) {args : ReadArgs} (hb : b.StandsFor args.file p o)
    (hfile : o.isDirectory = false) {chunk : Chunk}
    (hchunk : b.store.read p.location args.offset.toNat (min args.count maxTransfer).toNat =
      .ok chunk) :
    (read args).run now b =
      (.ok ⟨some (o.metadata.attributesAt p), UInt32.ofNat chunk.data.length, chunk.endOfFile,
        chunk.data⟩, b.resolved args.file) := by
  have ho : (b.resolved args.file).store.find? p.location = some o := hb.find?
  have hdirectory : ¬o.metadata.isDirectory = true := by
    rw [show o.metadata.isDirectory = o.isDirectory from rfl, hfile]
    exact Bool.false_ne_true
  have hdata : (readData p args.offset (min args.count maxTransfer)).run now
      (b.resolved args.file) = (.ok chunk, b.resolved args.file) := by
    rw [readData, run_bind, run_attempt_stat_of_find? ho]
    dsimp only
    rw [if_neg hdirectory]
    exact congrArg (fun r => (report r, b.resolved args.file)) hchunk
  rw [read, run_resolve_then hb.resolve]
  dsimp only
  rw [run_bind, ← Backend.resolved, hdata, run_bind, run_attributesOf? ho]
  rfl

/-- A write ends with what the store says of it. -/
theorem run_write (now : Time) {args : WriteArgs} (hb : b.StandsFor args.file p o)
    (hwrite : b.store.isReadOnly = false) (hcount : args.data.length = args.count.toNat)
    (verifier : FixedBytes 8) :
    (write verifier args).run now b =
      match b.store.write now p.location args.offset.toNat args.data with
      | .error e => (.results (.failed e.toNfs (unchangedWcc o p)), b.resolved args.file)
      | .ok (a, m') =>
        (.results (.ok ⟨⟨some o.metadata.toWcc, some (a.attributesAt p)⟩, args.count, .fileSync,
          verifier⟩), b.resolvedWith args.file m') := by
  have ho : (b.resolved args.file).store.find? p.location = some o := hb.find?
  have hperform : Memory.perform now (.write p args.offset.toNat args.data)
      (b.resolved args.file).store =
        b.store.answer (b.store.write now p.location args.offset.toNat args.data) := rfl
  rw [write, if_neg (by simp [hcount]), run_bind, run_isReadOnly, hwrite]
  dsimp only
  rw [if_neg Bool.false_ne_true, run_resolve_then hb.resolve]
  dsimp only
  rw [← Backend.resolved, run_bind, run_wccOf? ho, run_bind, run_attempt, hperform]
  cases b.store.write now p.location args.offset.toNat args.data with
  | error e =>
    exact run_wccSince_pure ho _ fun wcc => Response.results (Outcome.failed e.toNfs wcc)
  | ok r => rfl

/-- A change of attributes fails if the object has changed since the client looked, and otherwise
ends with what the store says of it. -/
theorem run_setAttributes (now : Time) {args : SetAttributesArgs} (hb : b.StandsFor args.object p o)
    (hwrite : b.store.isReadOnly = false) :
    (setAttributes now args).run now b =
      if guardHolds (some o.metadata.toWcc) args.guard then
        match b.store.setAttributes now p.location (args.requested.toChanges now) with
        | .error e => (.failed e.toNfs (unchangedWcc o p), b.resolved args.object)
        | .ok (a, m') =>
          (.ok ⟨some o.metadata.toWcc, some (a.attributesAt p)⟩, b.resolvedWith args.object m')
      else (.failed .notSync (unchangedWcc o p), b.resolved args.object) := by
  have ho : (b.resolved args.object).store.find? p.location = some o := hb.find?
  have hperform : Memory.perform now (.setAttributes p (args.requested.toChanges now))
      (b.resolved args.object).store = b.store.answer
        (b.store.setAttributes now p.location (args.requested.toChanges now)) := rfl
  rw [setAttributes, run_bind, run_isReadOnly, hwrite]
  dsimp only
  rw [if_neg Bool.false_ne_true, run_resolve_then hb.resolve]
  dsimp only
  rw [← Backend.resolved, run_bind, run_wccOf? ho]
  dsimp only
  cases guardHolds (some o.metadata.toWcc) args.guard with
  | false =>
    exact run_wccSince_pure ho _ fun wcc => Outcome.failed .notSync wcc
  | true =>
    rw [if_neg (by decide), run_bind, run_attempt, hperform]
    cases b.store.setAttributes now p.location (args.requested.toChanges now) with
    | error e =>
      exact run_wccSince_pure ho _ fun wcc => Outcome.failed e.toNfs wcc
    | ok r => rfl

/-- A change of attributes through a handle that stands for nothing. -/
theorem run_setAttributes_of_error (now : Time) {args : SetAttributesArgs} {e : NfsError}
    (he : (b.handles.resolve args.object).1 = .error e) (hwrite : b.store.isReadOnly = false) :
    (setAttributes now args).run now b = (.failed e .empty, b.resolved args.object) := by
  have hresolve : (Program.resolve args.object).run now b = (.error e, b.resolved args.object) :=
    Prod.ext he rfl
  rw [setAttributes, run_bind, run_isReadOnly, hwrite]
  dsimp only
  rw [if_neg Bool.false_ne_true, run_bind, hresolve]
  rfl

end Nfs

end NfsServer
