import NfsServer.Proofs.Interleaving.Calls
import NfsServer.Proofs.Rpc.Limits
import NfsServer.Proofs.Store.Places

/-!
# Places that clients can reach

A handle is issued only for a place at which the program that wants it has seen an object.  So what
is true of all places in the stores on the way is true of the places of all handles, too, however
programs take turns (`Pool.placed_run`).  Stores keep to normal places; therefore no client, with
whatever names and paths, gets a handle that leads out of the exported directory
(`Server.client_names_stay_inside`).
-/

namespace NfsServer

namespace Pool

variable {Q : Memory → Prop} {R : Location → Prop} {events : List Event} {s s' : Pool} {t : Turn}
  {e : Event}

/-- What steps of orderly programs that make admitted requests keep of stores and of the places of
handles. -/
structure Placed (Q : Memory → Prop) (R : Location → Prop) (events : List Event) (s : Pool) :
    Prop extends Invariant events s where
  asks : ∀ (i : Nat) (q : Process), s.processes[i]? = some q → q.rest.Asks Request.IsAdmitted
  store : Q s.backend.store
  seen : ∀ e ∈ events, Q e.after.store
  bindings : ∀ x ∈ s.backend.handles.bindings, R x.path.location

section Step

variable {α β : Type} {r : Request α} {next : α → Program β}

variable (hR : ∀ m, Q m → ∀ l ∈ m.places, R l)
  (hprocess : s.processes[t.process]? = some ⟨.ask r next⟩) (h : Placed Q R events s)

include hR hprocess h

/-- A handle is wanted only for a place that some store on the way has had. -/
theorem Placed.of_issued {p : Path} (hp : r.issued? = some p) : R p.location := by
  rcases h.isOrderly _ _ hprocess with hlooks | hclean
  · obtain ⟨look, hlook, -, hl, -⟩ := hlooks.2.1 p hp
    exact hR _ (h.seen look hlook) _ hl
  · cases hclean.1.symm.trans hp

theorem Placed.bindings_advance {x : Binding}
    (hx : x ∈ (s.advance t r next).backend.handles.bindings) : R x.path.location := by
  rcases Backend.of_mem_bindings_perform h.wellFormed hx with ⟨hmem, -⟩ | hp
  · exact h.bindings x hmem
  · exact h.of_issued hR hprocess hp

end Step

variable (hQ : Store.Keeps Q) (hR : ∀ m, Q m → ∀ l ∈ m.places, R l)

include hQ hR

theorem Placed.step (h : Placed Q R events s) (hs : s.step t = some (e, s')) :
    Placed Q R (events ++ [e]) s' := by
  have hinvariant := h.toInvariant.step hs
  obtain ⟨α, β, r, next, hprocess, rfl, rfl⟩ := step_eq_some hs
  have hasks := h.asks _ _ hprocess
  have hstore : Q (s.backend.perform t.now r).2.store := hasks.1.store_keeps hQ t.now h.store
  refine ⟨hinvariant, fun j q hq => ?_, hstore, fun e he => ?_,
    fun x hx => h.bindings_advance hR hprocess hx⟩
  · rcases getElem?_advance hq with ⟨-, rfl⟩ | ⟨-, hq⟩
    · exact hasks.2 _
    · exact h.asks j q hq
  · rcases List.mem_append.1 he with he | he
    · exact h.seen e he
    · obtain rfl := List.mem_singleton.1 he
      exact hstore

/-- However the programs take turns, what admitted requests keep of stores is kept, and the places
of all handles are as those of stores. -/
theorem placed_run (hb : s.backend.Sound) (hstore : Q s.backend.store)
    (horderly : ∀ q ∈ s.processes, q.rest.IsOrderly ∅)
    (hasks : ∀ q ∈ s.processes, q.rest.Asks Request.IsAdmitted) (turns : List Turn) :
    Placed Q R (s.run turns).1 (s.run turns).2 := by
  have hstart : Placed Q R [] s :=
    { toInvariant := invariant_run hb horderly []
      asks := fun i q hq => hasks q (List.mem_of_getElem? hq)
      store := hstore
      seen := fun e he => absurd he List.not_mem_nil
      bindings := fun x hx => hR _ hstore _ (hb.idAt x hx) }
  exact run_induction (Placed.step hQ hR) hstart turns

end Pool

theorem Memory.HasNormalPlaces.isNormal_of_mem_places {m : Memory} (h : m.HasNormalPlaces)
    {l : Location} (hl : l ∈ m.places) : l.IsNormal := by
  obtain ⟨f, hf⟩ := hl
  obtain ⟨o, ho, -⟩ := Memory.idAt_eq_some_iff.1 hf
  exact h.isNormal_of_find? ho

namespace Server

open Rpc

/-- Calls that have been read keep a store to normal places, and get handles only for these. -/
theorem placed_together {s : Server Memory} (hsound : s.backend.Sound)
    (hnormal : s.backend.store.HasNormalPlaces) {calls : List (Call × Time)}
    (hcalls : ∀ c ∈ calls, ∃ policy input, Call.read? policy input = some c.1)
    (turns : List Turn) :
    Pool.Placed Memory.HasNormalPlaces Location.IsNormal ((s.together calls).run turns).1
      ((s.together calls).run turns).2 := by
  refine Pool.placed_run Memory.keeps_hasNormalPlaces (fun _ hm _ hl =>
    hm.isNormal_of_mem_places hl) hsound hnormal (fun q hq => ?_) (fun q hq => ?_) turns
  · obtain ⟨c, -, rfl⟩ := List.mem_map.1 hq
    exact c.1.procedure.isOrderly_perform c.2 _ _ c.1.arguments ∅
  · obtain ⟨c, hc, rfl⟩ := List.mem_map.1 hq
    obtain ⟨policy, input, hread⟩ := hcalls c hc
    exact c.1.procedure.asks_perform _ _ (Call.fits_of_read? hread)

/-- Whatever names and paths clients send, they do not leave the exported directory.  A name is
refused as a bad argument, or it leads from a directory to the entry of that name, and to no other
entry of any directory.  In whatever state messages have brought a server, and however calls that it
performs from then on take turns, all objects of the store lie at normal places, and all handles
stand for such places. -/
theorem client_names_stay_inside (config : ServerConfig) (limit : Nat) (ids : HandleSource)
    (store : Memory) (hstore : store.HasNormalPlaces) (before : List Incoming)
    (calls : List (Call × Time))
    (hcalls : ∀ c ∈ calls, ∃ input, Call.read? config.policy input = some c.1)
    (turns : List Turn) :
    (∀ (directory : Path) (name : Bytes), directory.location.IsNormal →
      ((∃ p, directory.entry name = .ok p) ↔
        name ≠ [] ∧ (∃ text, Utf8.encode text = name) ∧ name ≠ [Path.dot] ∧
          name ≠ [Path.dot, Path.dot] ∧ Path.slash ∉ name) ∧
      (∀ e, directory.entry name = .error e → e.cause = .invalidInput) ∧
      ∀ p, directory.entry name = .ok p →
        p.IsEntryOf directory name ∧
          ∀ (directory' : Path) (name' : Bytes) (p' : Path),
            directory'.entry name' = .ok p' → p.SamePlace p' →
              directory.SamePlace directory' ∧ name = name') ∧
      let s := (start config ⟨store, .cached (.empty limit ids), []⟩).after before
      let b := ((s.together calls).run turns).2.backend
      b.store.HasNormalPlaces ∧
        ∃ c, b.handles = .cached c ∧ (∀ x ∈ c.bindings, x.path.location.IsNormal) ∧
          ∀ e ∈ c.places, e.1.IsNormal := by
  refine ⟨fun directory name hdirectory => ⟨Path.exists_entry_iff, fun _ _ => rfl, fun p hp =>
    ⟨Path.entry_isEntryOf hdirectory hp, fun _ _ _ hp' hsame =>
      Path.eq_of_entry_samePlace hp hp' hsame⟩⟩, ?_⟩
  intro s b
  have hstart := sound_start config store limit ids
  have hsound : s.backend.Sound := (sound_after hstart before).1
  have hnormal : s.backend.store.HasNormalPlaces :=
    keeps_after Memory.keeps_hasNormalPlaces hstore before
  have hend := placed_together hsound hnormal
    (fun c hc => ⟨config.policy, hcalls c hc⟩) turns
  have hcached : ∃ c, s.backend.handles = .cached c := exists_cached_after hstart ⟨_, rfl⟩ before
  have hlater := (@Pool.handles_run (s.together calls) hsound.handles turns).2
  obtain ⟨c, hc⟩ := hlater.cached_iff.1 hcached
  refine ⟨hend.store, c, hc, ?_⟩
  have hwell : (HandleTable.cached c).WellFormed := hc ▸ hend.wellFormed
  have hbindings : ∀ x ∈ (HandleTable.cached c).bindings, x.path.location.IsNormal :=
    hc ▸ hend.bindings
  refine ⟨hbindings, fun e he => ?_⟩
  obtain ⟨x, hx, rfl⟩ := HandleCache.WellFormed.exists_binding_of_mem_places hwell he
  exact hbindings x hx

/-- The root is mounted by a name with a dot, then its parent is looked up while a directory is made
in it: what comes of it is a handle of the root and one of the directory. -/
theorem client_names_stay_inside_root :
    let config : ServerConfig := ⟨.known, ['/'], Bytes.zeros 8⟩
    let mount := Call.sentAt ⟨0⟩ ⟨7, .mount .mount, [0x2F, 0x2E, 0x2F]⟩
    let above : Nfs.EntryName := ⟨.serial 1, [0x2E, 0x2E]⟩
    let directory : Nfs.MakeDirectoryArgs := ⟨⟨.serial 1, [0x64]⟩, .empty⟩
    let calls : List (Call × Time) :=
      [(⟨8, .nfs .lookup, above⟩, ⟨0⟩), (⟨9, .nfs .makeDirectory, directory⟩, ⟨0⟩)]
    let turns (i n : Nat) : List Turn := List.replicate n ⟨i, ⟨0⟩⟩
    let s := (start config ⟨.empty ⟨0⟩ false 1000, .cached (.empty 4), []⟩).after [mount]
    let b := ((s.together calls).run (turns 0 2 ++ turns 1 9 ++ turns 0 9)).2.backend
    (∀ c ∈ calls, ∃ input, Call.read? config.policy input = some c.1) ∧
      b.store.HasNormalPlaces ∧ (∀ x ∈ b.handles.bindings, x.path.location.IsNormal) ∧
      b.handles.bindings.map (fun x => (x.handle, x.path.location)) =
        [(.serial 1, [.root]), (.serial 2, [.root, .name [0x64]])] := by
  intro config mount above directory calls turns s b
  have hcalls : ∀ c ∈ calls, ∃ input, Call.read? config.policy input = some c.1 := by
    have hfits : ∀ c ∈ calls, c.1.procedure.argsFormat.Fits c.1.arguments := by decide
    exact fun c hc => ⟨(c.1.sentAt ⟨0⟩).input, Call.read?_sentAt rfl (hfits c hc)⟩
  have hall := (client_names_stay_inside config 4 .serials (.empty ⟨0⟩ false 1000)
    (Memory.hasNormalPlaces_empty ⟨0⟩ false 1000) [mount] calls hcalls
    (turns 0 2 ++ turns 1 9 ++ turns 0 9)).2
  have hs : (start config ⟨.empty ⟨0⟩ false 1000, .cached (.empty 4), []⟩).after [mount] = s := rfl
  dsimp only at hall
  rw [hs] at hall
  obtain ⟨hstore, c, hc, hbindings, -⟩ := hall
  have hb : b.handles = .cached c := hc
  have hshown : b.handles.bindings.map (fun x => (x.handle, x.path.location)) =
      [(.serial 1, [.root]), (.serial 2, [.root, .name [0x64]])] := by decide +kernel
  refine ⟨hcalls, hstore, ?_, hshown⟩
  rw [hb]
  exact hbindings

end Server

end NfsServer
