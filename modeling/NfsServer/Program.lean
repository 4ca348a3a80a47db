import NfsServer.Handle.Table
import NfsServer.Store.Basic

/-!
# Programs of atomic requests

A procedure of the server is a `Program`: it asks for one thing at a time and goes on with the
answer.  Every `Request` to the store, to the handle table or to the listeners for mounts is one
atomic step.  `Program.run` performs a program at one point in time without interruption; since a
program is data, its steps can also be interleaved with those of others.
-/

namespace NfsServer

/-- What listeners learn about clients that come and go. -/
inductive MountEvent
  | mounted | unmounted
  deriving DecidableEq, Repr

/-- An atomic step, with the type of its answer. -/
inductive Request : Type → Type 1
  /-- A request to the store. -/
  | store {α : Type} (r : StoreRequest α) : Request α
  /-- The handle of a path. -/
  | issue (path : Path) : Request FileHandle
  /-- The path of a handle. -/
  | resolve (handle : FileHandle) : Request (Except Nfs.NfsError Path)
  /-- That the handles of a path and of all that lies below it become stale. -/
  | forgetPath (path : Path) : Request Unit
  /-- That listeners learn of an event. -/
  | announce (event : MountEvent) : Request Unit

/-- A procedure that ends with a value of `α`. -/
inductive Program (α : Type) : Type 1
  | done (a : α)
  | ask {β : Type} (r : Request β) (next : β → Program α)

namespace Program

variable {α β : Type}

/-- Goes on with the value of a program. -/
def bind : Program α → (α → Program β) → Program β
  | done a, k => k a
  | ask r next, k => ask r fun b => (next b).bind k

instance : Monad Program where
  pure := done
  bind := bind

theorem bind_done (p : Program α) : p.bind done = p := by
  induction p with
  | done a => rfl
  | ask r next ih => exact congrArg (ask r) (funext ih)

theorem bind_assoc {γ : Type} (p : Program α) (k : α → Program β) (l : β → Program γ) :
    (p.bind k).bind l = p.bind fun a => (k a).bind l := by
  induction p with
  | done a => rfl
  | ask r next ih => exact congrArg (ask r) (funext ih)

instance : LawfulMonad Program :=
  LawfulMonad.mk' Program (fun p => bind_done p) (fun _ _ => rfl) (fun p k l => bind_assoc p k l)

/-- The program that makes one request. -/
def request (r : Request α) : Program α := ask r done

end Program

/-- What programs work on: a store, a handle table, and the events that listeners have not yet been
told of, the first one first. -/
structure Backend (σ : Type) where
  store : σ
  handles : HandleTable
  events : List MountEvent

namespace Backend

variable {σ : Type}

/-- The answer to a request, and what it leaves. -/
def perform [Store σ] {α : Type} (now : Time) : Request α → Backend σ → α × Backend σ
  | .store r, b =>
    let (a, store) := Store.perform now r b.store
    (a, { b with store })
  | .issue p, b =>
    let (h, handles) := b.handles.issue p
    (h, { b with handles })
  | .resolve h, b =>
    let (p, handles) := b.handles.resolve h
    (p, { b with handles })
  | .forgetPath p, b => ((), { b with handles := b.handles.forgetPath p })
  | .announce e, b => ((), { b with events := b.events ++ [e] })

end Backend

/-- Performs a program without interruption. -/
def Program.run {σ α : Type} [Store σ] (now : Time) : Program α → Backend σ → α × Backend σ
  | done a, b => (a, b)
  | ask r next, b =>
    let (a, b) := b.perform now r
    (next a).run now b

theorem Program.run_bind {σ α β : Type} [Store σ] (now : Time) (p : Program α)
    (k : α → Program β) (b : Backend σ) :
    (p >>= k).run now b = (k (p.run now b).1).run now (p.run now b).2 := by
  induction p generalizing b with
  | done a => rfl
  | ask r next ih => exact ih (b.perform now r).1 (b.perform now r).2

/-- How a call ends whose arguments could be read: with results, or with the finding that the
arguments contradict each other. -/
inductive Response (α : Type)
  | garbageArguments
  | results (a : α)
  deriving DecidableEq, Repr

/-- The program that responds with the value of another. -/
def Program.responding {α : Type} (p : Program α) : Program (Response α) := do
  return .results (← p)

/-! ### Requests as programs -/

namespace Program

/-- The answer to a request to the store. -/
def store {α : Type} (r : StoreRequest α) : Program α := request (.store r)

/-- The handle of a path. -/
def issue (path : Path) : Program FileHandle := request (.issue path)

/-- The path of a handle. -/
def resolve (handle : FileHandle) : Program (Except Nfs.NfsError Path) := request (.resolve handle)

/-- Makes the handles of a path and of all that lies below it stale. -/
def forgetPath (path : Path) : Program Unit := request (.forgetPath path)

/-- Tells listeners of an event. -/
def announce (event : MountEvent) : Program Unit := request (.announce event)

end Program

end NfsServer
