import NfsServer.Proofs.Handle.Stability
import NfsServer.Proofs.Interleaving.Procedures

/-!
# Calls at the same time

However calls take turns, a live handle has an object when all of them have been completed, and so
it goes on to stand for one object as long as it lives.  There is one exception: a call may be
overtaken by the removal of an object that it has seen, and then issue a handle for nothing
(`Server.live_handles_have_objects`, `Server.lookup_overtaken_by_remove`).
-/

namespace NfsServer

namespace Server

open Rpc

/-- The programs of calls that the server performs at the same time, each with the time at which it
has begun. -/
def together (s : Server Memory) (calls : List (Call × Time)) : Pool :=
  ⟨calls.map fun c => ⟨c.1.program s.config c.2⟩, s.backend⟩

/-- In whatever state messages have brought a server, and however calls that it performs from then
on take turns: handles are issued for objects that are there; when all calls have been completed
every live handle has an object, and whatever messages follow, it stands for that object as long as
it lives.  The exception is a call that has been overtaken by the removal of an object that it had
seen. -/
theorem live_handles_have_objects (config : ServerConfig) (limit : Nat) (ids : HandleSource)
    (store : Memory) (before : List Incoming) (calls : List (Call × Time)) (turns : List Turn) :
    let s := (start config ⟨store, .cached (.empty limit ids), []⟩).after before
    ∀ events rest, (s.together calls).run turns = (events, rest) →
      (∀ e ∈ events, ∀ p, e.issued = some p →
        (∃ f, e.before.store.idAt p.location = some f) ∨ Raced events p.location) ∧
      (rest.isDone = true →
        (∀ x ∈ rest.backend.handles.bindings,
          (∃ f, rest.backend.store.idAt x.path.location = some f) ∨
            Raced events x.path.location) ∧
        ((∀ x ∈ rest.backend.handles.bindings, ¬Raced events x.path.location) →
          ∀ (log : CallLog) (later : List Incoming),
            rest.backend.Later ((mk s.config rest.backend log).after later).backend)) := by
  intro s events rest hrun
  have hsound : s.backend.Sound := (sound_after (sound_start config store limit ids) before).1
  have horderly : ∀ q ∈ (s.together calls).processes, q.rest.IsOrderly ∅ := by
    intro q hq
    obtain ⟨c, -, rfl⟩ := List.mem_map.1 hq
    exact c.1.procedure.isOrderly_perform c.2 _ _ c.1.arguments ∅
  have hend := Pool.invariant_run hsound horderly turns
  rw [hrun] at hend
  refine ⟨hend.issued, fun hdone => ⟨fun x hx => hend.bound_of_isDone hdone hx, ?_⟩⟩
  intro hraced log later
  exact (sound_after (s := mk s.config _ log) (hend.sound hdone hraced) later).2

/-- A file is made anew between its removal and the forgetting of its handle: the handle that the
creation gives is forgotten, too. -/
theorem live_handles_have_objects_remade :
    let config : ServerConfig := ⟨.known, ['/'], Bytes.zeros 8⟩
    let file : Nfs.EntryName := ⟨.serial 1, [0x66]⟩
    let mount : Call := ⟨1, .mount .mount, [0x2F]⟩
    let create : Call := ⟨2, .nfs .create, ⟨file, .unchecked .empty⟩⟩
    let remove : Call := ⟨3, .nfs .remove, file⟩
    let s := (start config ⟨Memory.empty ⟨0⟩ false 1000, .cached (.empty 4), []⟩).after []
    let turns (i n : Nat) : List Turn := List.replicate n ⟨i, ⟨0⟩⟩
    let run := (s.together [(mount, ⟨0⟩), (create, ⟨0⟩), (remove, ⟨0⟩), (create, ⟨0⟩)]).run
      (turns 0 3 ++ turns 1 6 ++ turns 2 4 ++ turns 3 6 ++ turns 2 2)
    ∃ events rest, run = (events, rest) ∧ rest.isDone = true ∧
      rest.backend.handles.bindings.map Binding.handle = [.serial 1] ∧
      ∀ log later, rest.backend.Later ((mk s.config rest.backend log).after later).backend := by
  intro config file mount create remove s turns run
  obtain ⟨events, rest, hrun⟩ : ∃ events rest, run = (events, rest) :=
    ⟨run.1, run.2, Prod.mk.eta.symm⟩
  have hdone : run.2.isDone = true := by decide +kernel
  have hlive : run.2.backend.handles.bindings.map Binding.handle = [.serial 1] := by
    decide +kernel
  have hissued : ∀ e ∈ run.1, ∀ p ∈ e.issued, (e.before.store.idAt p.location).isSome := by
    decide +kernel
  rw [hrun] at hdone hlive hissued
  have hall := live_handles_have_objects config 4 .serials (.empty ⟨0⟩ false 1000) []
    [(mount, ⟨0⟩), (create, ⟨0⟩), (remove, ⟨0⟩), (create, ⟨0⟩)]
    (turns 0 3 ++ turns 1 6 ++ turns 2 4 ++ turns 3 6 ++ turns 2 2) events rest hrun
  refine ⟨events, rest, hrun, hdone, hlive, (hall.2 hdone).2 fun x _ hraced => ?_⟩
  -- A race would show in a handle that is issued where there is nothing.
  obtain ⟨e, he, hgone, hp⟩ := hraced.exists_issue
  obtain ⟨p, hp, hplace⟩ := Option.map_eq_some_iff.1 hp
  rw [← hplace] at hgone
  exact hgone (Option.isSome_iff_exists.1 (hissued e he p hp))

/-- A lookup that is overtaken by the removal of the file that it has seen gives a live handle for
nothing, and the handle then stands for the next file of this name. -/
theorem lookup_overtaken_by_remove :
    let config : ServerConfig := ⟨.known, ['/'], Bytes.zeros 8⟩
    let file : Nfs.EntryName := ⟨.serial 1, [0x66]⟩
    let mount : Call := ⟨1, .mount .mount, [0x2F]⟩
    let create : Call := ⟨2, .nfs .create, ⟨file, .unchecked .empty⟩⟩
    let lookup : Call := ⟨3, .nfs .lookup, file⟩
    let remove : Call := ⟨4, .nfs .remove, file⟩
    let mounted := ((mount.program config ⟨0⟩).run ⟨0⟩
      ⟨Memory.empty ⟨0⟩ false 1000, .cached (.empty 4), []⟩).2
    let s := start config ((create.program config ⟨0⟩).run ⟨0⟩ mounted).2
    let turns (i n : Nat) : List Turn := List.replicate n ⟨i, ⟨0⟩⟩
    let rest := ((s.together [(lookup, ⟨0⟩), (remove, ⟨0⟩)]).run
      (turns 0 3 ++ turns 1 6 ++ turns 0 1)).2
    let remade := ((create.program config ⟨0⟩).run ⟨0⟩ rest.backend).2
    rest.isDone = true ∧ ∃ x ∈ rest.backend.handles.bindings,
      rest.backend.store.idAt x.path.location = none ∧
        x ∈ remade.handles.bindings ∧ remade.store.idAt x.path.location = some 3 := by
  decide +kernel

end Server

end NfsServer
