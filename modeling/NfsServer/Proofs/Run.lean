import NfsServer.Server

/-!
# Runs of a server

A server takes one message after the other.  An `Incoming` message comes from a client and is dealt
with at certain readings of the clock; `Server.after` and `Server.outcomes` are the server behind a
sequence of messages and what becomes of each of them.  In a `Timely` run the clock never goes back.
-/

namespace NfsServer

/-- A message from a client, and the readings of the clock while it is dealt with. -/
structure Incoming where
  clock : CallClock
  client : String
  input : Bytes
  deriving DecidableEq, Repr

namespace Incoming

/-- The readings of the clock in a run, one after the other. -/
def readings (ms : List Incoming) : List Time :=
  ms.flatMap fun m => [m.clock.arrived, m.clock.performed, m.clock.completed]

/-- The clock shows no time before `start` and never goes back. -/
def TimelyFrom (start : Time) (ms : List Incoming) : Prop :=
  (start :: readings ms).Pairwise (· ≤ ·)

/-- The clock shows only times that clocks can show and never goes back. -/
def Timely (ms : List Incoming) : Prop := TimelyFrom Time.earliest ms

theorem readings_append (ms ns : List Incoming) :
    readings (ms ++ ns) = readings ms ++ readings ns := List.flatMap_append

theorem readings_cons (m : Incoming) (ms : List Incoming) :
    readings (m :: ms) =
      m.clock.arrived :: m.clock.performed :: m.clock.completed :: readings ms :=
  List.flatMap_cons

theorem TimelyFrom.le {start : Time} {ms : List Incoming} (h : TimelyFrom start ms) {t : Time}
    (ht : t ∈ readings ms) : start ≤ t :=
  List.rel_of_pairwise_cons h ht

theorem TimelyFrom.tail {start : Time} {m : Incoming} {ms : List Incoming}
    (h : TimelyFrom start (m :: ms)) : TimelyFrom m.clock.completed ms := by
  rw [TimelyFrom, readings_cons] at h
  exact h.tail.tail.tail

theorem TimelyFrom.tail_arrived {start : Time} {m : Incoming} {ms : List Incoming}
    (h : TimelyFrom start (m :: ms)) : TimelyFrom m.clock.arrived ms := by
  rw [TimelyFrom, readings_cons] at h
  exact h.tail.sublist (((List.sublist_cons_self _ _).trans
    (List.sublist_cons_self _ _)).cons_cons m.clock.arrived)

theorem TimelyFrom.arrived_le_completed {start : Time} {m : Incoming} {ms : List Incoming}
    (h : TimelyFrom start (m :: ms)) : m.clock.arrived ≤ m.clock.completed := by
  rw [TimelyFrom, readings_cons] at h
  exact List.rel_of_pairwise_cons h.tail (by simp)

theorem TimelyFrom.left {start : Time} {ms ns : List Incoming} (h : TimelyFrom start (ms ++ ns)) :
    TimelyFrom start ms := by
  rw [TimelyFrom, readings_append] at h
  exact h.sublist ((List.sublist_append_left _ _).cons_cons start)

theorem TimelyFrom.right {start : Time} {ms ns : List Incoming} (h : TimelyFrom start (ms ++ ns)) :
    TimelyFrom start ns := by
  rw [TimelyFrom, readings_append] at h
  exact h.sublist ((List.sublist_append_right _ _).cons_cons start)

theorem TimelyFrom.le_of_mem_append {start : Time} {ms ns : List Incoming}
    (h : TimelyFrom start (ms ++ ns)) {s t : Time} (hs : s ∈ readings ms) (ht : t ∈ readings ns) :
    s ≤ t := by
  rw [TimelyFrom, readings_append] at h
  exact (List.pairwise_append.1 h.tail).2.2 s hs t ht

end Incoming

namespace Server

variable {σ : Type} [Store σ]

/-- Takes a message. -/
def take (s : Server σ) (m : Incoming) : CallOutcome × Server σ :=
  s.callDuring m.clock m.client m.input

/-- The server behind a sequence of messages. -/
def after (s : Server σ) : List Incoming → Server σ
  | [] => s
  | m :: ms => (s.take m).2.after ms

/-- What becomes of each message of a sequence. -/
def outcomes (s : Server σ) : List Incoming → List CallOutcome
  | [] => []
  | m :: ms => (s.take m).1 :: (s.take m).2.outcomes ms

theorem after_append (s : Server σ) (ms ns : List Incoming) :
    s.after (ms ++ ns) = (s.after ms).after ns := by
  induction ms generalizing s with
  | nil => rfl
  | cons m ms ih => exact ih (s.take m).2

theorem outcomes_append (s : Server σ) (ms ns : List Incoming) :
    s.outcomes (ms ++ ns) = s.outcomes ms ++ (s.after ms).outcomes ns := by
  induction ms generalizing s with
  | nil => rfl
  | cons m ms ih => exact congrArg ((s.take m).1 :: ·) (ih (s.take m).2)

/-! ## What becomes of a message -/

section

open Rpc

variable {s : Server σ} {m : Incoming} {xid : UInt32} {header : CallHeader} {arguments : Bytes}

theorem take_of_read_closed {e : CallError}
    (hread : Arrival.read s.config.policy m.input = .closed e) : s.take m = (.closed e, s) := by
  unfold take callDuring
  rw [hread]

theorem take_of_read_denied {cause : Rejection}
    (hread : Arrival.read s.config.policy m.input = .denied xid cause) :
    s.take m = (.reply (encode (Message.denied xid cause)), s) := by
  unfold take callDuring
  rw [hread]

/-- A call that the log knows is dropped. -/
theorem take_of_read_repeated
    (hread : Arrival.read s.config.policy m.input = .call xid header arguments)
    (hrepeated : (s.calls.arrive m.clock.arrived ⟨xid, m.client⟩).1 = true) :
    s.take m =
      (.silent, { s with calls := (s.calls.arrive m.clock.arrived ⟨xid, m.client⟩).2 }) := by
  unfold take callDuring
  rw [hread]
  dsimp only
  generalize s.calls.arrive m.clock.arrived ⟨xid, m.client⟩ = arrival at hrepeated ⊢
  obtain ⟨repeated, calls⟩ := arrival
  obtain rfl : repeated = true := hrepeated
  rfl

/-- Any other call is answered and then logged as completed. -/
theorem take_of_read_first
    (hread : Arrival.read s.config.policy m.input = .call xid header arguments)
    (hfirst : (s.calls.arrive m.clock.arrived ⟨xid, m.client⟩).1 = false) :
    s.take m =
      ((s.answer m.clock.performed xid header arguments).1,
        { s with
          backend := (s.answer m.clock.performed xid header arguments).2
          calls := (s.calls.arrive m.clock.arrived ⟨xid, m.client⟩).2.complete m.clock.completed
            ⟨xid, m.client⟩ }) := by
  unfold take callDuring
  rw [hread]
  dsimp only
  generalize s.calls.arrive m.clock.arrived ⟨xid, m.client⟩ = arrival at hfirst ⊢
  obtain ⟨repeated, calls⟩ := arrival
  obtain rfl : repeated = false := hfirst
  rfl

end

theorem config_take (s : Server σ) (m : Incoming) : (s.take m).2.config = s.config := by
  cases hread : Rpc.Arrival.read s.config.policy m.input with
  | closed e => rw [take_of_read_closed hread]
  | denied xid cause => rw [take_of_read_denied hread]
  | call xid header arguments =>
    cases hrepeated : (s.calls.arrive m.clock.arrived ⟨xid, m.client⟩).1 with
    | true => rw [take_of_read_repeated hread hrepeated]
    | false => rw [take_of_read_first hread hrepeated]

theorem config_after (s : Server σ) (ms : List Incoming) : (s.after ms).config = s.config := by
  induction ms generalizing s with
  | nil => rfl
  | cons m ms ih => exact (ih (s.take m).2).trans (s.config_take m)

end Server

end NfsServer
