import NfsServer.Time

/-!
# Retransmissions

A client that waits too long for a reply sends its call again.  A `CallLog` remembers the calls that
are under way or were completed a short time ago, so that no call is executed twice.  Calls that
have been completed for longer are forgotten when the next call arrives.
-/

namespace NfsServer.Rpc

/-- What tells calls apart: their number, and the client that sent them. -/
structure CallKey where
  xid : UInt32
  client : String
  deriving DecidableEq, Repr

/-- How far a call has got. -/
inductive CallState
  | running
  | completed (time : Time)
  deriving DecidableEq, Repr

/-- Whether a call is still remembered when those completed before `cutoff` are forgotten. -/
def CallState.isRecent (cutoff : Time) : CallState → Bool
  | running => true
  | completed time => cutoff.nanoseconds ≤ time.nanoseconds

/-- The calls that a server remembers. -/
structure CallLog where
  /-- For how many nanoseconds completed calls are remembered. -/
  retention : Nat
  /-- The remembered calls, each once. -/
  calls : List (CallKey × CallState)
  deriving DecidableEq, Repr

namespace CallLog

/-- The log that remembers no call. -/
def empty (retention : Nat) : CallLog := ⟨retention, []⟩

/-- Forgets the calls that have been completed for longer than the retention time.  Nothing is
forgotten as long as the time before which they would have been completed is none that a clock can
show. -/
def expire (log : CallLog) (now : Time) : CallLog :=
  match now.before? log.retention with
  | none => log
  | some cutoff => { log with calls := log.calls.filter fun (_, state) => state.isRecent cutoff }

/-- What is remembered of a call. -/
def state? (log : CallLog) (key : CallKey) : Option CallState := log.calls.lookup key

/-- Whether a call that arrives repeats one that is remembered; if it does not, it is remembered as
under way from now on. -/
def arrive (log : CallLog) (now : Time) (key : CallKey) : Bool × CallLog :=
  let log := log.expire now
  match log.state? key with
  | some _ => (true, log)
  | none => (false, { log with calls := (key, .running) :: log.calls })

/-- Remembers that a call has been completed, if it is remembered at all. -/
def complete (log : CallLog) (now : Time) (key : CallKey) : CallLog :=
  { log with
    calls := log.calls.map fun (k, state) => (k, if k = key then .completed now else state) }

theorem state?_complete (log : CallLog) (now : Time) (key k : CallKey) :
    (log.complete now key).state? k =
      if k = key then (log.state? k).map fun _ => .completed now else log.state? k := by
  unfold state? complete
  induction log.calls with
  | nil => simp
  | cons entry rest ih =>
    obtain ⟨j, state⟩ := entry
    by_cases hk : k = j
    · subst hk
      by_cases hkey : k = key <;> simp [hkey]
    · have hj : (k == j) = false := beq_false_of_ne hk
      simp only [List.map_cons, List.lookup_cons, hj]
      exact ih

end CallLog

end NfsServer.Rpc
