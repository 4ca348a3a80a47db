import Mathlib.Data.Nat.Find
import Mathlib.Data.UInt
import Mathlib.Tactic.ByContra
import NfsServer.Proofs.Nfs.Data
import NfsServer.Proofs.Rpc.Reply

/-!
# Reading

A read of a file is answered with a piece of its data (`Nfs.ReadResult.IsPieceOf`), and a client
that goes on behind each piece until it is told that it has reached the end (`Reader`) receives the
whole file, whatever amounts it asks for and whatever others do in between, as long as the file
stays as it is (`Reader.receives_whole_file`).  What carries the induction is that the client has
received what lies before its offset, and that its offset grows in each turn but the last.
-/

namespace NfsServer

/-! ## Pieces -/

namespace Nfs.ReadResult

/-- The result is the data from an offset on, or else from its end: as much as was asked for, but no
more than there is and than one call transfers.  It says whether the data ends there. -/
structure IsPieceOf (result : ReadResult) (data : Bytes) (offset : UInt64) (count : UInt32) :
    Prop where
  data_eq : let first := min offset.toNat data.length
    result.data = data.extract first (min (first + min count.toNat (2 ^ 20)) data.length)
  count_eq : result.count.toNat = result.data.length
  endOfFile_iff : result.endOfFile = true ↔
    data.length ≤ min offset.toNat data.length + min count.toNat (2 ^ 20)

variable {result : ReadResult} {data : Bytes} {offset : UInt64} {count : UInt32}

theorem IsPieceOf.length_eq (h : result.IsPieceOf data offset count) :
    result.data.length =
      min (min count.toNat (2 ^ 20)) (data.length - min offset.toNat data.length) := by
  rw [h.data_eq, List.extract_eq_take_drop, List.length_take, List.length_drop]
  omega

theorem IsPieceOf.take_append (h : result.IsPieceOf data offset count)
    (hoffset : offset.toNat ≤ data.length) :
    data.take offset.toNat ++ result.data = data.take (offset.toNat + result.data.length) := by
  have hpiece : result.data = (data.drop offset.toNat).take result.data.length := by
    have heq := h.data_eq
    dsimp only at heq
    rw [Nat.min_eq_left hoffset, List.extract_eq_take_drop] at heq
    rw [heq, List.length_take, List.length_drop, List.take_eq_take_iff, List.length_drop]
    omega
  rw [List.take_add, ← hpiece]

/-- A client that is told that it has reached the end has received everything. -/
theorem IsPieceOf.take_append_of_endOfFile (h : result.IsPieceOf data offset count)
    (hoffset : offset.toNat ≤ data.length) (hend : result.endOfFile = true) :
    data.take offset.toNat ++ result.data = data := by
  have hlength := h.length_eq
  have hle := h.endOfFile_iff.1 hend
  rw [h.take_append hoffset, List.take_of_length_le (by omega)]

/-- A client that is not told so gets something, and there is more. -/
theorem IsPieceOf.advance (h : result.IsPieceOf data offset count)
    (hoffset : offset.toNat ≤ data.length) (hcount : 0 < count) (hdata : data.length < 2 ^ 64)
    (hend : result.endOfFile = false) :
    (offset + result.count.toUInt64).toNat = offset.toNat + result.data.length ∧
      0 < result.data.length ∧ offset.toNat + result.data.length < data.length := by
  have hlength := h.length_eq
  have hmore : ¬data.length ≤ min offset.toNat data.length + min count.toNat (2 ^ 20) := by
    rw [← h.endOfFile_iff, hend]
    exact Bool.false_ne_true
  have hpos : 0 < count.toNat := hcount
  refine ⟨?_, by omega, by omega⟩
  rw [UInt64.toNat_add, UInt32.toNat_toUInt64, h.count_eq]
  omega

/-- A piece is short enough to be sent. -/
theorem IsPieceOf.fits (h : result.IsPieceOf data offset count) :
    (Rpc.Procedure.resultFormat (.nfs .read)).Fits (.ok result : Outcome ReadResult _) := by
  have hlength := h.length_eq
  have hshort : result.data.length ≤ 4 * 2 ^ 20 := by omega
  refine ⟨trivial, ?_⟩
  show Format.Fits Wire.format result
  simpa [Wire.format, Format.Fits, Format.enumerator] using hshort

end Nfs.ReadResult

/-- The piece of a file that a client finds in the answer to its call, if there is one. -/
def CallOutcome.readResult? (outcome : CallOutcome) : Option Nfs.ReadResult :=
  match outcome.results?.map (Rpc.Procedure.resultFormat (.nfs .read)).decode with
  | some (.ok (.ok result, _)) => some result
  | _ => none

theorem Nfs.ReadResult.IsPieceOf.readResult?_eq {result : ReadResult} {data : Bytes}
    {offset : UInt64} {count : UInt32} (h : result.IsPieceOf data offset count) (xid : UInt32) :
    (CallOutcome.reply (Server.replyTo xid (.nfs .read) (.results (.ok result)))).readResult? =
      some result := by
  have hdecode := Format.readsBack_encode _ h.fits []
  rw [List.append_nil] at hdecode
  unfold CallOutcome.readResult?
  rw [Server.results?_replyTo]
  dsimp only [Option.map]
  rw [hdecode]

/-! ## Calls -/

namespace Server

open Rpc

/-- A read from a live handle of a file is answered with a piece of the data and leaves everything
as it was. -/
theorem take_read {s : Server Memory} (hs : s.backend.store.Built) {m : Incoming} {xid : UInt32}
    {args : Nfs.ReadArgs} {path : Path} {o : Object} {data : Bytes}
    (hcall : s.performed? m = some ⟨xid, .nfs .read, args⟩)
    (hobject : s.backend.StandsFor args.file path o) (hdata : o.contents = .file data) :
    ∃ result : Nfs.ReadResult, result.IsPieceOf data args.offset args.count ∧
      result.attributes = some (o.metadata.attributesAt path) ∧
      (s.take m).1 = .reply (replyTo xid (.nfs .read) (.results (.ok result))) ∧
      (s.take m).2.backend = s.backend.resolved args.file := by
  have hkind := (hs.isConsistent hobject.find?).kind_eq
  rw [hdata] at hkind
  have hfile : o.isDirectory = false := by
    rw [Object.isDirectory, hkind]
    rfl
  have hcount : (min args.count Nfs.maxTransfer).toNat = min args.count.toNat (2 ^ 20) :=
    UInt32.toNat_min _ _
  have hread := Memory.read_of_file hobject.find? hdata args.offset.toNat
    (min args.count Nfs.maxTransfer).toNat
  have hrun := Nfs.run_read m.clock.performed hobject hfile hread
  obtain ⟨hreply, hbackend⟩ := take_of_run_responding rfl hcall hrun
  refine ⟨_, ⟨?_, ?_, ?_⟩, rfl, hreply, hbackend⟩
  · rw [hcount]
  · rw [hcount]
    refine UInt32.toNat_ofNat_of_lt' ?_
    rw [List.extract_eq_take_drop, List.length_take]
    show _ < 0x100000000
    omega
  · rw [hcount]
    exact decide_eq_true_iff

end Server

/-! ## Clients -/

/-- What happens until a client has its next piece of a file: messages of others come in, and then
the call with which the client asks for what lies behind an offset. -/
structure Reader.Turn where
  others : List Incoming
  ask : UInt64 → Incoming

/-- A client that reads a file piece by piece, and the server that it asks. -/
structure Reader where
  server : Server Memory
  /-- Where the next piece begins. -/
  offset : UInt64
  received : Bytes
  /-- Whether the client has been told that it has reached the end. -/
  finished : Bool

namespace Reader

/-- A client that has yet to begin. -/
def start (s : Server Memory) : Reader := ⟨s, 0, [], false⟩

/-- The client goes on behind the piece that it gets.  It asks no more when it has reached the
end. -/
def next (r : Reader) (t : Turn) : Reader :=
  if r.finished then r
  else
    let (outcome, server) := (r.server.after t.others).take (t.ask r.offset)
    match outcome.readResult? with
    | none => { r with server }
    | some result =>
      ⟨server, r.offset + result.count.toUInt64, r.received ++ result.data, result.endOfFile⟩

/-- The client after the first `n` turns. -/
def after (r : Reader) (turns : Nat → Turn) : Nat → Reader
  | 0 => r
  | n + 1 => (r.after turns n).next (turns n)

/-- In a turn the client's call is performed, it asks for some data from where the client is, and
the handle then stands for a file with the given data. -/
structure Asks (r : Reader) (t : Turn) (file : FileHandle) (data : Bytes) : Prop where
  stands : ∃ path o, (r.server.after t.others).backend.StandsFor file path o ∧
    o.contents = .file data
  performed : ∃ xid count, 0 < count ∧ (r.server.after t.others).performed? (t.ask r.offset) =
    some ⟨xid, .nfs .read, ⟨file, r.offset, count⟩⟩

variable {r : Reader} {t : Turn} {file : FileHandle} {data : Bytes}

theorem next_of_finished (h : r.finished = true) : r.next t = r := if_pos h

theorem config_after (r : Reader) (turns : Nat → Turn) (n : Nat) :
    (r.after turns n).server.config = r.server.config := by
  induction n with
  | zero => rfl
  | succ n ih =>
    rw [after, next]
    split
    · exact ih
    · dsimp only
      split
      · rw [Server.config_take, Server.config_after, ih]
      · rw [Server.config_take, Server.config_after, ih]

/-- A client that has not reached the end gets a piece of the data in its turn. -/
theorem next_eq (hr : r.server.backend.store.Built) (hunfinished : r.finished = false)
    (ht : r.Asks t file data) :
    ∃ count result, 0 < count ∧ Nfs.ReadResult.IsPieceOf result data r.offset count ∧
      data.length < 2 ^ 64 ∧
      r.next t = ⟨((r.server.after t.others).take (t.ask r.offset)).2,
        r.offset + result.count.toUInt64, r.received ++ result.data, result.endOfFile⟩ := by
  obtain ⟨path, o, hobject, hdata⟩ := ht.stands
  obtain ⟨xid, count, hcount, hcall⟩ := ht.performed
  have hs := Server.store_after Memory.kept_built hr t.others
  obtain ⟨result, hpiece, -, hreply, -⟩ := Server.take_read hs hcall hobject hdata
  have hshort : data.length < 2 ^ 64 := by
    have hle := (hs.isConsistent hobject.find?).length_le data hdata
    have hlimit := hs.maxFileSize_le
    unfold Memory.addressLimit at hlimit
    omega
  refine ⟨count, result, hcount, hpiece, hshort, ?_⟩
  unfold next
  rw [if_neg (by simp [hunfinished])]
  dsimp only
  rw [hreply, hpiece.readResult?_eq]

/-- What is true of a client after some turns: as long as it has not reached the end, it has
received what lies before its offset, and each turn has brought something. -/
structure Progress (r : Reader) (data : Bytes) (turns : Nat) : Prop where
  built : r.server.backend.store.Built
  whole : r.finished = true → r.received = data
  part : r.finished = false → r.received = data.take r.offset.toNat ∧ r.offset.toNat ≤ data.length
  grown : r.finished = false → turns ≤ r.offset.toNat
  more : r.finished = false → 0 < turns → r.offset.toNat < data.length

theorem progress_start {s : Server Memory} (hs : s.backend.store.Built) :
    (start s).Progress data 0 where
  built := hs
  whole := nofun
  part := fun _ => ⟨rfl, Nat.zero_le _⟩
  grown := fun _ => Nat.le_refl _
  more := fun _ h => absurd h (Nat.lt_irrefl 0)

theorem Progress.next {n : Nat} (h : r.Progress data n)
    (ht : r.finished = false → r.Asks t file data) : (r.next t).Progress data (n + 1) := by
  cases hfinished : r.finished with
  | true =>
    rw [next_of_finished hfinished]
    exact ⟨h.built, h.whole, h.part, by simp [hfinished], by simp [hfinished]⟩
  | false =>
    obtain ⟨hreceived, hoffset⟩ := h.part hfinished
    have hgrown := h.grown hfinished
    obtain ⟨count, result, hcount, hpiece, hshort, hnext⟩ :=
      next_eq h.built hfinished (ht hfinished)
    rw [hnext]
    refine ⟨?_, fun hend => ?_, fun hend => ?_, fun hend => ?_, fun hend _ => ?_⟩
    · exact Server.store_take Memory.kept_built (Server.store_after Memory.kept_built h.built _) _
    · rw [← hpiece.take_append_of_endOfFile hoffset hend, hreceived]
    · obtain ⟨hadd, -, hlt⟩ := hpiece.advance hoffset hcount hshort hend
      dsimp only
      rw [hadd, hreceived, hpiece.take_append hoffset]
      exact ⟨rfl, hlt.le⟩
    · obtain ⟨hadd, hpos, -⟩ := hpiece.advance hoffset hcount hshort hend
      dsimp only
      omega
    · obtain ⟨hadd, -, hlt⟩ := hpiece.advance hoffset hcount hshort hend
      dsimp only
      omega

theorem progress_after {turns : Nat → Turn} (h : r.Progress data 0)
    (hturns : ∀ k, (r.after turns k).finished = false → (r.after turns k).Asks (turns k) file data)
    (n : Nat) : (r.after turns n).Progress data n := by
  induction n with
  | zero => exact h
  | succ n ih => exact ih.next (hturns n)

/-- Whatever messages a server has taken: a read from a live handle of a file is answered with the
piece of the data that was asked for.  And so a client that begins at the start, asks for any
positive amounts and goes on behind each piece is told that it has reached the end after no more
calls than there are bytes, or after the first one; till then it has always received the beginning
of the file, and in the end the whole. -/
theorem receives_whole_file (config : ServerConfig) (handles : HandleTable)
    (hhandles : handles.WellFormed) (store : Memory) (hstore : store.Built)
    (before : List Incoming) (file : FileHandle) (data : Bytes) :
    let s := (Server.start config ⟨store, handles, []⟩).after before
    (∀ m xid offset count path o,
      s.performed? m = some ⟨xid, .nfs .read, ⟨file, offset, count⟩⟩ →
      s.backend.StandsFor file path o → o.contents = .file data →
      ∃ result : Nfs.ReadResult, (s.take m).1 =
          .reply (Server.replyTo xid (.nfs .read) (.results (.ok result))) ∧
        result.IsPieceOf data offset count ∧ s.backend.Same (s.take m).2.backend) ∧
      ∀ turns : Nat → Turn, let client := (start s).after turns
        (∀ k, (client k).finished = false → (client k).Asks (turns k) file data) →
        ∃ n, n ≤ max 1 data.length ∧ (client n).finished = true ∧ (client n).received = data ∧
          ∀ k < n, (client k).finished = false ∧
            (client k).received = data.take (client k).offset.toNat := by
  intro s
  have hwell : s.backend.handles.WellFormed := (Server.handles_after hhandles before).1
  have hbuilt : s.backend.store.Built := Server.store_after Memory.kept_built hstore before
  constructor
  · intro m xid offset count path o hcall hobject hdata
    obtain ⟨result, hpiece, -, hreply, hbackend⟩ := Server.take_read hbuilt hcall hobject hdata
    refine ⟨result, hreply, hpiece, ?_⟩
    rw [hbackend]
    exact Backend.same_resolved hwell file
  · intro turns client hturns
    have hprogress := progress_after (progress_start hbuilt) hturns
    -- A client that were still going on after so many turns would be behind the end.
    have hends : (client (max 1 data.length)).finished = true := by
      by_contra hgoes
      have hunfinished := Bool.eq_false_iff.2 hgoes
      have hgrown := (hprogress _).grown hunfinished
      have hmore := (hprogress _).more hunfinished (by omega)
      omega
    have hexists : ∃ n, (client n).finished = true := ⟨_, hends⟩
    refine ⟨Nat.find hexists, Nat.find_min' hexists hends, Nat.find_spec hexists,
      (hprogress _).whole (Nat.find_spec hexists), fun k hk => ?_⟩
    have hunfinished := Bool.eq_false_iff.2 (Nat.find_min hexists hk)
    exact ⟨hunfinished, ((hprogress k).part hunfinished).1⟩

/-- A file of three bytes is read in two turns by a client that asks for two bytes at a time. -/
theorem receives_whole_file_in_two_turns :
    let config : ServerConfig := ⟨.known, ['/'], Bytes.zeros 8⟩
    let file := FileHandle.serial 2
    let before := [Rpc.Call.sentAt ⟨5⟩ ⟨7, .mount .mount, [0x2F]⟩,
      Rpc.Call.sentAt ⟨5⟩ ⟨8, .nfs .create, ⟨⟨.serial 1, [0x66]⟩, .unchecked .empty⟩⟩,
      Rpc.Call.sentAt ⟨5⟩ ⟨9, .nfs .write, ⟨file, 0, 3, .unstable, [1, 2, 3]⟩⟩]
    let s := (Server.start config ⟨.empty ⟨0⟩ false 10, .cached (.empty 4), []⟩).after before
    let turn : Turn := ⟨[], fun offset =>
      Rpc.Call.sentAt ⟨5⟩ ⟨10 + offset.toUInt32, .nfs .read, ⟨file, offset, 2⟩⟩⟩
    let client := (start s).after fun _ => turn
    (∀ k, (client k).finished = false → (client k).Asks turn file [1, 2, 3]) ∧
      ∃ n, n ≤ 3 ∧ (client n).finished = true ∧ (client n).received = [1, 2, 3] ∧
        ∀ k < n, (client k).finished = false ∧
          (client k).received = [1, 2, 3].take (client k).offset.toNat := by
  intro config file before s turn client
  have hasks : ∀ k, (client k).finished = false → (client k).Asks turn file [1, 2, 3] := by
    have hstands : ∀ k < 2, (((client k).server.after turn.others).backend.handles.resolve file).1 =
        .ok ⟨[0x2F, 0x66]⟩ ∧ ((client k).server.after turn.others).backend.store.find?
          (Path.location ⟨[0x2F, 0x66]⟩) =
            some ⟨.file [1, 2, 3], .file, 0o644, 3, ⟨5⟩, ⟨5⟩, ⟨5⟩, 2⟩ := by decide +kernel
    have hconfig : ∀ k, ((client k).server.after turn.others).config = config := fun k =>
      (Server.config_after _ _).trans ((config_after _ _ k).trans (Server.config_after _ before))
    have hanswered : ∀ k < 2, (((client k).server.after turn.others).take
        (turn.ask (client k).offset)).1 ≠ .silent := by decide +kernel
    have hcall : ∀ k < 2, Rpc.Call.read? config.policy (turn.ask (client k).offset).input =
        some ⟨10 + (client k).offset.toUInt32, .nfs .read, ⟨file, (client k).offset, 2⟩⟩ := by
      have hfits : Format.Fits (Wire.format : Format FileHandle) file := by decide +kernel
      exact fun k _ => Rpc.Call.read?_sentAt rfl ⟨hfits, trivial, trivial⟩
    have hlate : ∀ k, (client (k + 2)).finished = true := by
      intro k
      induction k with
      | zero => decide +kernel
      | succ k ih => exact (congrArg Reader.finished (next_of_finished ih)).trans ih
    intro k hunfinished
    by_cases hk : k < 2
    · refine ⟨⟨_, _, ⟨(hstands k hk).1, (hstands k hk).2⟩, rfl⟩,
        10 + (client k).offset.toUInt32, 2, by decide, ?_⟩
      rw [Server.performed?_of_ne_silent (hanswered k hk), hconfig k]
      exact hcall k hk
    · obtain ⟨k, rfl⟩ := Nat.exists_eq_add_of_le' (Nat.le_of_not_lt hk)
      rw [hlate k] at hunfinished
      cases hunfinished
  obtain ⟨-, hall⟩ := receives_whole_file config (.cached (.empty 4))
    (HandleCache.wellFormed_empty 4 _) (.empty ⟨0⟩ false 10) (.empty _ _ _) before file [1, 2, 3]
  exact ⟨hasks, hall (fun _ => turn) hasks⟩

end Reader

end NfsServer
