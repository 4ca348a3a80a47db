import NfsServer.Program
import NfsServer.Proofs.Handle.Table
import NfsServer.Proofs.Store.Changes

/-!
# What programs do

Rules for all programs at once.  `Program.Asks` bounds the requests that a program may make; a
program of queries leaves everything as it is.  `Program.namings` lists the moments of a run at
which a handle is issued or found to stand for a path, each with what the program works on at that
moment.
-/

namespace NfsServer

namespace Program

variable {σ α β : Type}

/-! ## Bounds on requests -/

/-- Every request that the program may make, whatever it is answered, satisfies `P`. -/
def Asks (P : ∀ {β : Type}, Request β → Prop) : Program α → Prop
  | done _ => True
  | ask r next => P r ∧ ∀ b, (next b).Asks P

variable {P : ∀ {β : Type}, Request β → Prop}

theorem asks_pure (a : α) : (pure a : Program α).Asks P := trivial

theorem asks_request {r : Request α} (h : P r) : (request r).Asks P := ⟨h, fun _ => trivial⟩

theorem Asks.bind {p : Program α} {k : α → Program β} (hp : p.Asks P) (hk : ∀ a, (k a).Asks P) :
    (p >>= k).Asks P := by
  induction p with
  | done a => exact hk a
  | ask r next ih => exact ⟨hp.1, fun b => ih b (hp.2 b)⟩

theorem Asks.mono {Q : ∀ {β : Type}, Request β → Prop} {p : Program α} (hp : p.Asks P)
    (himp : ∀ {β : Type} {r : Request β}, P r → Q r) : p.Asks Q := by
  induction p with
  | done a => trivial
  | ask r next ih => exact ⟨himp hp.1, fun b => ih b (hp.2 b)⟩

end Program

/-- Whether a request asks the store and changes nothing. -/
def Request.IsQuery {α : Type} : Request α → Prop
  | .store r => r.IsQuery
  | _ => False

/-- Whether a request only looks: at the store, or at what a handle stands for. -/
def Request.IsLook {α : Type} : Request α → Prop
  | .store r => r.IsQuery
  | .resolve _ => True
  | _ => False

/-- Whether a request leaves the store as it is. -/
def Request.KeepsStore {α : Type} : Request α → Prop
  | .store r => r.IsQuery
  | _ => True

theorem Request.IsLook.keepsStore {α : Type} {r : Request α} (h : r.IsLook) : r.KeepsStore := by
  cases r with
  | store r => exact h
  | resolve handle => trivial
  | issue p => trivial
  | forgetPath p => trivial
  | announce e => trivial

/-- Whether a request is one to the store. -/
def Request.IsToStore {α : Type} : Request α → Prop
  | .store _ => True
  | _ => False

theorem Request.IsQuery.isLook {α : Type} {r : Request α} (h : r.IsQuery) : r.IsLook := by
  cases r with
  | store r => exact h
  | resolve handle => trivial
  | issue p => exact h
  | forgetPath p => exact h
  | announce e => exact h

section Looks

variable {α : Type} {P : ∀ {β : Type}, Request β → Prop}
  (hlook : ∀ {β : Type} {r : Request β}, r.IsLook → P r)

include hlook

theorem Program.Asks.query {p : Program α} (hp : p.Asks Request.IsQuery) : p.Asks P :=
  hp.mono fun hr => hlook hr.isLook

theorem Program.asks_resolve (h : FileHandle) : (Program.resolve h).Asks P :=
  asks_request (hlook trivial)

end Looks

/-- What the answer to a request says about handles: the path that a handle stands for. -/
def Request.naming? {α : Type} : Request α → α → Option (FileHandle × Path)
  | .issue p, h => some (h, p)
  | .resolve h, .ok p => some (h, p)
  | _, _ => none

/-- A moment at which a handle has been issued or found to stand for a path. -/
structure Naming (σ : Type) where
  handle : FileHandle
  path : Path
  /-- What the program works on at that moment. -/
  backend : Backend σ

/-- The handle stands for the place of the path at that moment, if it is one of a cache. -/
def Naming.Bound {σ : Type} (e : Naming σ) : Prop :=
  ∀ c, e.backend.handles = .cached c →
    ∃ x ∈ c.bindings, x.handle = e.handle ∧ x.path.location = e.path.location

namespace Program

variable {σ α β : Type} [Store σ]

/-- The moments of a run at which handles are issued or resolved, the first one first. -/
def namings (now : Time) : Program α → Backend σ → List (Naming σ)
  | done _, _ => []
  | ask r next, b =>
    let (a, b') := b.perform now r
    ((r.naming? a).map fun (h, p) => ⟨h, p, b'⟩).toList ++ (next a).namings now b'

theorem namings_ask (now : Time) (r : Request β) (next : β → Program α) (b : Backend σ) :
    (ask r next).namings now b =
      ((r.naming? (b.perform now r).1).map fun n => ⟨n.1, n.2, (b.perform now r).2⟩).toList ++
        (next (b.perform now r).1).namings now (b.perform now r).2 := rfl

theorem namings_bind (now : Time) (p : Program α) (k : α → Program β) (b : Backend σ) :
    (p >>= k).namings now b =
      p.namings now b ++ (k (p.run now b).1).namings now (p.run now b).2 := by
  induction p generalizing b with
  | done a => rfl
  | ask r next ih =>
    have hnext := ih (b.perform now r).1 (b.perform now r).2
    rw [namings_ask, List.append_assoc]
    exact congrArg (_ ++ ·) hnext

/-- A handle gets known by the first request or later. -/
theorem mem_namings_ask {r : Request β} {next : β → Program α} {now : Time} {b : Backend σ}
    {e : Naming σ} (he : e ∈ (ask r next).namings now b) :
    (r.naming? (b.perform now r).1 = some (e.handle, e.path) ∧
        e.backend = (b.perform now r).2) ∨
      e ∈ (next (b.perform now r).1).namings now (b.perform now r).2 := by
  rw [namings_ask, List.mem_append, Option.mem_toList, Option.map_eq_some_iff] at he
  rcases he with ⟨n, hn, rfl⟩ | he
  · exact Or.inl ⟨hn, rfl⟩
  · exact Or.inr he

theorem mem_namings_request {r : Request α} {now : Time} {b : Backend σ} {e : Naming σ}
    (he : e ∈ (request r).namings now b) :
    r.naming? (b.perform now r).1 = some (e.handle, e.path) ∧ e.backend = (b.perform now r).2 :=
  (mem_namings_ask he).resolve_right List.not_mem_nil

/-- A program of queries leaves everything as it is and deals with no handle. -/
theorem run_of_asks_isQuery {p : Program α} (hp : p.Asks Request.IsQuery) (now : Time)
    (b : Backend Memory) : (p.run now b).2 = b ∧ p.namings now b = [] := by
  induction p generalizing b with
  | done a => exact ⟨rfl, rfl⟩
  | ask r next ih =>
    cases r with
    | store r =>
      have hsame : (b.perform now (.store r)).2 = b :=
        congrArg (fun m => { b with store := m }) (Memory.perform_of_isQuery hp.1)
      have hnext := ih (b.perform now (.store r)).1 (hp.2 _) b
      rw [namings_ask, hsame]
      refine ⟨?_, hnext.2⟩
      show ((next _).run now (b.perform now (.store r)).2).2 = b
      rw [hsame]
      exact hnext.1
    | issue p => exact hp.1.elim
    | resolve h => exact hp.1.elim
    | forgetPath p => exact hp.1.elim
    | announce e => exact hp.1.elim

theorem run_bind_of_asks_isQuery {p : Program α} (hp : p.Asks Request.IsQuery)
    (k : α → Program β) (now : Time) (b : Backend Memory) :
    (p >>= k).run now b = (k (p.run now b).1).run now b := by
  rw [run_bind, (run_of_asks_isQuery hp now b).1]

/-- A program that begins with a live handle goes on with its path. -/
theorem run_resolve_then {b : Backend σ} {h : FileHandle} {p : Path}
    (hp : (b.handles.resolve h).1 = .ok p) (k : Except Nfs.NfsError Path → Program α) (now : Time) :
    (resolve h >>= k).run now b =
      (k (.ok p)).run now { b with handles := (b.handles.resolve h).2 } := by
  have hresolve : (resolve h).run now b = (.ok p, { b with handles := (b.handles.resolve h).2 }) :=
    Prod.ext hp rfl
  rw [run_bind, hresolve]

/-- A program that makes no changes to the store leaves the store as it is. -/
theorem Asks.store_run {p : Program α} (hp : p.Asks Request.KeepsStore) (now : Time)
    (b : Backend Memory) : (p.run now b).2.store = b.store := by
  induction p generalizing b with
  | done a => rfl
  | ask r next ih =>
    refine (ih (b.perform now r).1 (hp.2 _) (b.perform now r).2).trans ?_
    cases r with
    | store r => exact Memory.perform_of_isQuery hp.1
    | resolve handle => rfl
    | issue p => rfl
    | forgetPath p => rfl
    | announce e => rfl

/-- A program that asks nothing but the store leaves everything else as it is. -/
theorem Asks.handles_run {p : Program α} (hp : p.Asks Request.IsToStore) (now : Time)
    (b : Backend σ) : (p.run now b).2.handles = b.handles ∧ (p.run now b).2.events = b.events := by
  induction p generalizing b with
  | done a => exact ⟨rfl, rfl⟩
  | ask r next ih =>
    cases r with
    | store r => exact ih (b.perform now (.store r)).1 (hp.2 _) (b.perform now (.store r)).2
    | resolve handle => exact hp.1.elim
    | issue p => exact hp.1.elim
    | forgetPath p => exact hp.1.elim
    | announce e => exact hp.1.elim

theorem run_responding (p : Program α) (now : Time) (b : Backend σ) :
    p.responding.run now b = (.results (p.run now b).1, (p.run now b).2) :=
  run_bind now p _ b

theorem run_eq_of_responding {p : Program α} {now : Time} {b : Backend σ} {r : α}
    (h : (p.responding.run now b).1 = .results r) : (p.run now b).1 = r := by
  rw [run_responding] at h
  exact Response.results.inj h

/-- A program that goes on after a query only if that succeeds. -/
theorem run_bind_eq_ok {ε : Type} {p : Program (Except ε α)} (hp : p.Asks Request.IsQuery)
    {k : Except ε α → Program (Except ε β)} {now : Time} {b : Backend Memory} {y : β}
    (h : ((p >>= k).run now b).1 = .ok y) (hk : ∀ e, k (.error e) = pure (.error e)) :
    ∃ a, (p.run now b).1 = .ok a ∧ ((k (.ok a)).run now b).1 = .ok y := by
  rw [run_bind_of_asks_isQuery hp] at h
  cases hresult : (p.run now b).1 with
  | error e =>
    rw [hresult, hk] at h
    cases h
  | ok a =>
    rw [hresult] at h
    exact ⟨a, rfl, h⟩

/-! ## All programs -/

/-- What every request to a store keeps, a program keeps. -/
theorem store_run {Q : Memory → Prop} (hQ : Memory.Kept Q) (p : Program α) (now : Time)
    (b : Backend Memory) (h : Q b.store) : Q (p.run now b).2.store := by
  induction p generalizing b with
  | done a => exact h
  | ask r next ih =>
    apply ih _ (b.perform now r).2
    cases r with
    | store r => exact hQ now r b.store h
    | issue p => exact h
    | resolve handle => exact h
    | forgetPath p => exact h
    | announce e => exact h

theorem handles_perform (now : Time) (r : Request α) {b : Backend σ} (h : b.handles.WellFormed) :
    (b.perform now r).2.handles.WellFormed ∧ b.handles.Later (b.perform now r).2.handles := by
  cases r with
  | store r => exact ⟨h, .refl _⟩
  | issue p => exact ⟨(h.issue p).1, (h.issue p).2.1⟩
  | resolve handle => exact ⟨(h.resolve handle).1, (h.resolve handle).2.1⟩
  | forgetPath p => exact ⟨(h.forgetPath p).1, (h.forgetPath p).2.1⟩
  | announce e => exact ⟨h, .refl _⟩

/-- Whatever a program does, the handle table remains well-formed, and no handle that was issued
comes to stand for something else. -/
theorem handles_run (p : Program α) (now : Time) (b : Backend σ) (h : b.handles.WellFormed) :
    (p.run now b).2.handles.WellFormed ∧ b.handles.Later (p.run now b).2.handles := by
  induction p generalizing b with
  | done a => exact ⟨h, .refl _⟩
  | ask r next ih =>
    obtain ⟨hwell, hlater⟩ := handles_perform now r h
    obtain ⟨hwell', hlater'⟩ := ih (b.perform now r).1 (b.perform now r).2 hwell
    exact ⟨hwell', hlater.trans hlater'⟩

/-- What a request says about a handle of a cache is so. -/
theorem bound_perform {now : Time} {r : Request α} {b : Backend σ} (h : b.handles.WellFormed)
    {n : FileHandle × Path} (hn : r.naming? (b.perform now r).1 = some n) :
    Naming.Bound ⟨n.1, n.2, (b.perform now r).2⟩ := by
  obtain ⟨store, handles, events⟩ := b
  cases r with
  | store r => cases hn
  | forgetPath p => cases hn
  | announce e => cases hn
  | issue p =>
    obtain rfl := Option.some.inj hn
    intro c hc
    cases handles with
    | pathText => cases hc
    | cached c' =>
      obtain ⟨-, -, hbound, -⟩ := HandleCache.WellFormed.issue h p
      cases hc
      exact hbound
  | resolve handle =>
    intro c hc
    cases handles with
    | pathText =>
      change (HandleTable.pathText.resolve handle).2 = .cached c at hc
      rw [HandleTable.resolve_pathText] at hc
      cases hc
    | cached c' =>
      change (Request.resolve handle).naming? ((HandleTable.cached c').resolve handle).1 =
        some n at hn
      change ((HandleTable.cached c').resolve handle).2 = .cached c at hc
      rw [HandleTable.resolve_cached] at hn hc
      rcases hresolve : (c'.resolve handle).1 with _ | p
      · rw [hresolve] at hn
        cases hn
      · rw [hresolve] at hn
        obtain rfl := Option.some.inj hn
        obtain ⟨-, huse⟩ := HandleCache.resolve_eq_some hresolve
        obtain rfl := HandleTable.cached.inj hc
        rw [huse]
        exact ⟨⟨handle, p⟩, List.mem_cons_self, rfl, rfl⟩

/-- Whenever a program gets to know a handle of a cache, the handle is bound. -/
theorem bound_of_mem_namings (p : Program α) (now : Time) (b : Backend σ)
    (h : b.handles.WellFormed) : ∀ e ∈ p.namings now b, e.Bound := by
  induction p generalizing b with
  | done a => exact fun e he => absurd he List.not_mem_nil
  | ask r next ih =>
    intro e he
    rcases mem_namings_ask he with ⟨hn, hbackend⟩ | he
    · obtain ⟨handle, path, _⟩ := e
      obtain rfl := hbackend
      exact bound_perform h hn
    · refine ih _ _ ?_ e he
      exact (handles_run (request r) now b h).1

end Program

end NfsServer
