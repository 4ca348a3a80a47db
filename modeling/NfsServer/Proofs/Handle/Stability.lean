import NfsServer.Proofs.Rpc.Call
import NfsServer.Proofs.Rpc.Procedure
import NfsServer.Proofs.Wire.RoundTrip

/-!
# Handles stand for one object as long as they live

From the moment at which a handle is issued or resolved, a call for the attributes of its object
gets either these attributes or the answer that the handle is stale, whatever other calls do to the
store and to the handles (`Server.handle_follows_object`).
-/

namespace NfsServer

namespace Server

open Rpc

variable {s : Server Memory}

/-! ## Runs -/

/-- A message keeps what handles stand for, at its end and at all moments in between. -/
theorem sound_take (h : s.backend.Sound) (m : Incoming) :
    (s.take m).2.backend.Sound ∧ s.backend.Later (s.take m).2.backend ∧
      ∀ e ∈ s.namings m, e.Bound ∧ e.backend.Sound ∧
        e.backend.Later (s.take m).2.backend := by
  rw [backend_take]
  unfold namings
  cases s.performed? m with
  | none => exact ⟨h, .refl _, fun _ he => absurd he List.not_mem_nil⟩
  | some c =>
    have hstable : (c.program s.config m.clock.performed).Stable m.clock.performed s.backend
        fun _ _ => True :=
      c.procedure.stable_perform h s.config.writeVerifier s.config.exportName c.arguments
    exact ⟨hstable.sound, hstable.later, fun e he =>
      ⟨Program.bound_of_mem_namings _ _ _ h.handles e he, hstable.named e he⟩⟩

theorem sound_after (h : s.backend.Sound) (ms : List Incoming) :
    (s.after ms).backend.Sound ∧ s.backend.Later (s.after ms).backend := by
  induction ms generalizing s with
  | nil => exact ⟨h, .refl _⟩
  | cons m ms ih =>
    obtain ⟨hsound, hlater, -⟩ := sound_take h m
    obtain ⟨hsound', hlater'⟩ := ih hsound
    exact ⟨hsound', hlater.trans hlater' h⟩

/-- A server goes on with the kind of handles with which it began. -/
theorem exists_cached_after (h : s.backend.Sound) (hcached : ∃ c, s.backend.handles = .cached c)
    (ms : List Incoming) : ∃ c, (s.after ms).backend.handles = .cached c :=
  (sound_after h ms).2.handles.cached_iff.1 hcached

theorem sound_start (config : ServerConfig) (store : Memory) (limit : Nat)
    (ids : HandleSource) :
    (start config ⟨store, .cached (.empty limit ids), []⟩).backend.Sound :=
  ⟨HandleCache.wellFormed_empty limit ids, fun _ hx => absurd hx List.not_mem_nil⟩

end Server

/-! ## Attributes of an object -/

namespace Nfs

variable {now : Time} {b : Backend Memory}

theorem run_getAttributes (h : FileHandle) (now : Time) (b : Backend Memory) :
    ((getAttributes h).run now b).1 = match (b.handles.resolve h).1 with
      | .error e => .failed e ()
      | .ok path => match b.store.stat path.location with
        | .error e => .failed e.toNfs ()
        | .ok m => .ok (m.attributesAt path) := by
  have hresolve : (Program.resolve h).run now b =
      ((b.handles.resolve h).1, { b with handles := (b.handles.resolve h).2 }) := rfl
  unfold getAttributes
  rw [Program.run_bind, hresolve]
  cases (b.handles.resolve h).1 with
  | error e => rfl
  | ok path =>
    dsimp only
    have hstat : ((attempt (.stat path)).run now
        { b with handles := (b.handles.resolve h).2 }).1 =
          report (b.store.stat path.location) := rfl
    rw [Program.run_bind, hstat]
    cases b.store.stat path.location <;> rfl

/-- A handle that is not bound is stale. -/
theorem run_getAttributes_of_not_bound {c : HandleCache} (hc : b.handles = .cached c)
    {h : FileHandle} (hdead : ∀ x ∈ c.bindings, x.handle ≠ h) :
    ((getAttributes h).run now b).1 = .failed .stale () := by
  rw [run_getAttributes, hc, HandleTable.resolve_of_not_bound hdead]

/-- A handle that is bound gets the attributes of the object at its place. -/
theorem run_getAttributes_of_bound (now : Time) (hb : b.Sound) {x : Binding}
    (hx : x ∈ b.handles.bindings) :
    ∃ o, b.store.find? x.path.location = some o ∧
      ((getAttributes x.handle).run now b).1 = .ok (o.metadata.attributesAt x.path) := by
  obtain ⟨f, hf⟩ := hb.idAt x hx
  obtain ⟨o, ho, -⟩ := Memory.idAt_eq_some_iff.1 hf
  refine ⟨o, ho, ?_⟩
  rw [run_getAttributes, hb.handles.resolve_eq hx]
  dsimp only
  rw [Memory.stat_eq_ok_iff.2 ⟨o, ho, rfl⟩]

end Nfs

namespace Server

open Rpc

/-- The outcome of a call for attributes that is no repetition. -/
def attributesReply (xid : UInt32) (r : Nfs.Outcome Nfs.FileAttributes Unit) : CallOutcome :=
  .reply (replyTo xid (.nfs .getAttributes) (.results r))

theorem fits_attributes (r : Nfs.Outcome Nfs.FileAttributes Unit) :
    (Procedure.resultFormat (.nfs .getAttributes)).Fits r := by
  show Format.Fits (.tagged Wire.format (Nfs.Outcome.payload Wire.format Wire.format)) r.toTagged
  rw [Format.Fits]
  cases r with
  | failed cause detail => exact ⟨trivial, trivial⟩
  | ok a =>
    refine ⟨trivial, ?_⟩
    show Format.Fits Wire.format a
    simp [Wire.format, Format.enumerator, Format.Fits]

theorem attributesReply_inj {xid : UInt32} {r r' : Nfs.Outcome Nfs.FileAttributes Unit}
    (h : attributesReply xid r = attributesReply xid r') : r = r' :=
  Format.encode_injOn _ (fits_attributes r) (fits_attributes r')
    (List.append_cancel_left (CallOutcome.reply.inj h))

end Server

/-! ## What becomes of a handle -/

namespace Naming

variable {e : Naming Memory} {b : Backend Memory}

/-- A handle of a cache stands for an object when it is issued or resolved. -/
theorem exists_binding (hbound : e.Bound) (hcached : ∃ c, e.backend.handles = .cached c) :
    ∃ x ∈ e.backend.handles.bindings, x.handle = e.handle ∧ x.path.location = e.path.location := by
  obtain ⟨c, hc⟩ := hcached
  rw [hc]
  exact hbound c hc

/-- Later the handle is not bound any more, or it stands for the same object at the same place. -/
theorem dead_or_same (hbound : e.Bound) (hcached : ∃ c, e.backend.handles = .cached c)
    (hsound : e.backend.Sound) (hlater : e.backend.Later b) :
    (∀ x ∈ b.handles.bindings, x.handle ≠ e.handle) ∨
      ∃ x ∈ b.handles.bindings, x.handle = e.handle ∧ x.path.location = e.path.location ∧
        b.store.idAt e.path.location = e.backend.store.idAt e.path.location := by
  obtain ⟨x, hx, hhandle, hplace⟩ := exists_binding hbound hcached
  by_cases hlive : ∃ y ∈ b.handles.bindings, y.handle = e.handle
  · obtain ⟨y, hy, hyhandle⟩ := hlive
    have hsame : y.handle = x.handle := hyhandle.trans hhandle.symm
    have hissued : e.backend.handles.HasIssued y.handle :=
      hsame ▸ hsound.handles.hasIssued hx
    have hmem : y ∈ e.backend.handles.bindings := hlater.handles.mem_of_mem hy hissued
    obtain rfl := hsound.handles.eq_of_handle_eq hmem hx hsame
    refine Or.inr ⟨y, hy, hyhandle, hplace, ?_⟩
    rw [← hplace]
    exact hlater.idAt_eq y hmem hy
  · exact Or.inl fun y hy heq => hlive ⟨y, hy, heq⟩

/-- A handle that is not bound any more will not be bound again. -/
theorem dead_later (hbound : e.Bound) (hcached : ∃ c, e.backend.handles = .cached c)
    (hsound : e.backend.Sound) {b' : Backend Memory} (hlater : e.backend.Later b)
    (hdead : ∀ x ∈ b.handles.bindings, x.handle ≠ e.handle) (hlater' : b.Later b') :
    ∀ x ∈ b'.handles.bindings, x.handle ≠ e.handle := by
  intro y hy heq
  obtain ⟨x, hx, hhandle, -⟩ := exists_binding hbound hcached
  have hissued : b.handles.HasIssued y.handle := by
    rw [heq, ← hhandle]
    exact (hsound.handles.hasIssued hx).later hlater.handles
  exact hdead y (hlater'.handles.mem_of_mem hy hissued) heq

end Naming

namespace Server

open Rpc

/-- A call for attributes is dropped or gets what its program ends with. -/
theorem take_getAttributes {s : Server Memory} {g : Incoming} {xid : UInt32} {h : FileHandle}
    (hcall : Call.read? s.config.policy g.input = some ⟨xid, .nfs .getAttributes, h⟩) :
    (s.take g).1 = .silent ∨ (s.take g).1 =
      attributesReply xid ((Nfs.getAttributes h).run g.clock.performed s.backend).1 := by
  rcases take_of_call hcall with ⟨hsilent, -⟩ | ⟨hreply, -⟩
  · exact Or.inl hsilent
  · refine Or.inr (hreply.trans ?_)
    exact congrArg (fun r => CallOutcome.reply (replyTo xid (.nfs .getAttributes) r))
      (congrArg Prod.fst (Program.run_responding (Nfs.getAttributes h) _ s.backend))

/-- The attributes are those of the object with number `f` at the place of `p`, and no other object
has this number. -/
def ShowsObject (store : Memory) (f : Nat) (p : Path) (a : Nfs.FileAttributes) : Prop :=
  a.fileId = UInt64.ofNat f ∧
    (∃ o, store.find? p.location = some o ∧ o.fileId = f ∧ a = o.metadata.attributesAt p) ∧
    ∀ l, store.idAt l = some f → l = p.location

theorem attributes_of_naming {e : Naming Memory} {b : Backend Memory} (hbound : e.Bound)
    (hcached : ∃ c, e.backend.handles = .cached c) (hsound : e.backend.Sound)
    (hlater : e.backend.Later b) (hb : b.Sound) (htree : b.store.IsTree) {f : Nat}
    (hf : e.backend.store.idAt e.path.location = some f) (now : Time) :
    let r := ((Nfs.getAttributes e.handle).run now b).1
    (r = .failed .stale () ∧ ∀ x ∈ b.handles.bindings, x.handle ≠ e.handle) ∨
      ∃ a, r = .ok a ∧ ShowsObject b.store f e.path a := by
  rcases Naming.dead_or_same hbound hcached hsound hlater with hdead | ⟨x, hx, hhandle, hplace, hid⟩
  · obtain ⟨c, hc⟩ := hlater.handles.cached_iff.1 hcached
    rw [hc] at hdead
    refine Or.inl ⟨Nfs.run_getAttributes_of_not_bound hc hdead, ?_⟩
    rw [hc]
    exact hdead
  · right
    obtain ⟨o, ho, hrun⟩ := Nfs.run_getAttributes_of_bound now hb hx
    rw [hplace] at ho
    rw [hf] at hid
    obtain ⟨o', ho', hof⟩ := Memory.idAt_eq_some_iff.1 hid
    obtain rfl := Option.some.inj (ho.symm.trans ho')
    refine ⟨_, hhandle ▸ hrun, ?_, ⟨o, ho, hof, ?_⟩, fun l hl => htree.eq_of_idAt_eq hl hid⟩
    · rw [← hof]
      rfl
    · rw [Metadata.attributesAt, Metadata.attributesAt, hplace]

/-- Whenever a handle is issued or resolved, it stands for an object.  From then on a call for the
attributes of its object shows that object or is told that the handle is stale, unless it is dropped
as a repetition; and once it is told so, all such calls are. -/
theorem handle_follows_object (config : ServerConfig) (limit : Nat) (ids : HandleSource)
    (store : Memory) (hstore : store.Built) (before : List Incoming) (m : Incoming) :
    let s := start config ⟨store, .cached (.empty limit ids), []⟩
    ∀ e ∈ (s.after before).namings m, ∃ f, e.backend.store.idAt e.path.location = some f ∧
      ∀ later g xid,
        Call.read? config.policy g.input = some ⟨xid, .nfs .getAttributes, e.handle⟩ →
        let s' := s.after (before ++ m :: later)
        ((s'.take g).1 = .silent ∨ (s'.take g).1 = attributesReply xid (.failed .stale ()) ∨
          ∃ a, (s'.take g).1 = attributesReply xid (.ok a) ∧
            ShowsObject s'.backend.store f e.path a) ∧
        ((s'.take g).1 = attributesReply xid (.failed .stale ()) → ∀ later' g' xid',
          Call.read? config.policy g'.input = some ⟨xid', .nfs .getAttributes, e.handle⟩ →
          (((s'.take g).2.after later').take g').1 = .silent ∨
            (((s'.take g).2.after later').take g').1 =
              attributesReply xid' (.failed .stale ())) := by
  intro s e he
  have hstart := sound_start config store limit ids
  obtain ⟨hsound, hlater⟩ := sound_after hstart before
  obtain ⟨hsound', hlater', hnamings⟩ := sound_take hsound m
  obtain ⟨hbound, hesound, helater⟩ := hnamings e he
  -- Of all that happens from here on only `Later` is used.
  have hcached : ∃ c, e.backend.handles = .cached c :=
    helater.handles.cached_iff.2 (((hlater.trans hlater' hstart).handles.cached_iff).1 ⟨_, rfl⟩)
  obtain ⟨x, hx, -, hplace⟩ := Naming.exists_binding hbound hcached
  obtain ⟨f, hf⟩ := hesound.idAt x hx
  rw [hplace] at hf
  refine ⟨f, hf, fun later g xid hg => ?_⟩
  intro s'
  have hs' : s' = ((s.after before).take m).2.after later := s.after_append before (m :: later)
  have hconfig : s'.config = config := config_after s _
  have hafter := sound_after hsound' later
  rw [← hs'] at hafter
  obtain ⟨hsound'', hlater''⟩ := hafter
  have helater'' : e.backend.Later s'.backend := helater.trans hlater'' hesound
  have hkey := attributes_of_naming hbound hcached hesound helater'' hsound''
    (isTree_after hstore.isTree (before ++ m :: later)) hf g.clock.performed
  have hreply := take_getAttributes (s := s') (by rw [hconfig]; exact hg)
  constructor
  · rcases hreply with hsilent | hreply
    · exact Or.inl hsilent
    · rcases hkey with ⟨hstale, -⟩ | ⟨a, ha, hshows⟩
      · exact Or.inr (Or.inl (by rw [hreply, hstale]))
      · exact Or.inr (Or.inr ⟨a, by rw [hreply, ha], hshows⟩)
  · intro hstale later' g' xid' hg'
    have hdead : ∀ x ∈ s'.backend.handles.bindings, x.handle ≠ e.handle := by
      rcases hreply with hsilent | hreply
      · rw [hsilent] at hstale
        cases hstale
      · have hfailed := attributesReply_inj (hreply.symm.trans hstale)
        rcases hkey with ⟨-, hdead⟩ | ⟨a, ha, -⟩
        · exact hdead
        · rw [hfailed] at ha
          cases ha
    obtain ⟨hsound₃, hlater₃, -⟩ := sound_take hsound'' g
    obtain ⟨hsound₄, hlater₄⟩ := sound_after hsound₃ later'
    have hfurther := hlater₃.trans hlater₄ hsound''
    have hdead' := Naming.dead_later hbound hcached hesound helater'' hdead hfurther
    obtain ⟨c, hc⟩ := (helater''.trans hfurther hesound).handles.cached_iff.1 hcached
    rw [hc] at hdead'
    have hreply' := take_getAttributes (s := (s'.take g).2.after later')
      (by rw [config_after, config_take, hconfig]; exact hg')
    rwa [Nfs.run_getAttributes_of_not_bound hc hdead'] at hreply'

/-- A cache with room for one handle: the handle of the root shows the root as long as it lives, and
it is stale from the moment at which the handle of a new directory takes its place. -/
theorem handle_follows_object_root :
    let config : ServerConfig := ⟨.known, ['/'], Bytes.zeros 8⟩
    let s := start config ⟨.empty ⟨0⟩ false 100, .cached (.empty 1 .uuids), []⟩
    let root := HandleSource.uuids.draw 0
    let mount (xid : UInt32) := Call.sentAt ⟨0⟩ ⟨xid, .mount .mount, [0x2F]⟩
    let make := Call.sentAt ⟨0⟩ ⟨8, .nfs .makeDirectory, ⟨⟨root, [0x64]⟩, .empty⟩⟩
    let get (xid : UInt32) := Call.sentAt ⟨0⟩ ⟨xid, .nfs .getAttributes, root⟩
    (∃ e ∈ (s.after []).namings (mount 7), e.handle = root ∧
      e.backend.store.idAt e.path.location = some 1 ∧
      ∃ a, ((s.after [mount 7]).take (get 9)).1 = attributesReply 9 (.ok a) ∧
        ShowsObject (s.after [mount 7]).backend.store 1 e.path a) ∧
      ((s.after [mount 7, make]).take (get 9)).1 = attributesReply 9 (.failed .stale ()) ∧
      ((((s.after [mount 7, make]).take (get 9)).2.after [mount 10]).take (get 11)).1 =
        attributesReply 11 (.failed .stale ()) := by
  intro config s root mount make get
  have hnaming : ((s.after []).namings (mount 7)).map
      (fun e => (e.handle, e.path, e.backend.store.idAt e.path.location)) =
      [(root, ⟨[0x2F]⟩, some 1)] := by decide +kernel
  have hmem : (root, (⟨[0x2F]⟩ : Path), some 1) ∈ ((s.after []).namings (mount 7)).map
      fun e => (e.handle, e.path, e.backend.store.idAt e.path.location) := by
    rw [hnaming]
    exact List.mem_singleton.2 rfl
  obtain ⟨e, he, heq⟩ := List.mem_map.1 hmem
  obtain ⟨hhandle, hrest⟩ := Prod.mk.inj heq
  obtain ⟨-, hid⟩ := Prod.mk.inj hrest
  obtain ⟨f, hf, hall⟩ := handle_follows_object config 1 .uuids (.empty ⟨0⟩ false 100)
    (.empty _ _ _) [] (mount 7) e he
  obtain rfl := Option.some.inj (hid.symm.trans hf)
  have hs : start config ⟨.empty ⟨0⟩ false 100, .cached (.empty 1 .uuids), []⟩ = s := rfl
  rw [hhandle, hs] at hall
  simp only [List.nil_append] at hall
  have hfits : Format.Fits (Wire.format : Format FileHandle) root := by decide
  have hget : ∀ xid, Call.read? config.policy (get xid).input =
      some ⟨xid, .nfs .getAttributes, root⟩ := fun _ => Call.read?_sentAt rfl hfits
  have hstale : ((s.after [mount 7, make]).take (get 9)).1 =
      attributesReply 9 (.failed .stale ()) := by decide +kernel
  refine ⟨⟨e, he, hhandle, hid, ?_⟩, hstale, ?_⟩
  · have hanswered : ((s.after [mount 7]).take (get 9)).1 ≠ .silent ∧
        ((s.after [mount 7]).take (get 9)).1 ≠ attributesReply 9 (.failed .stale ()) := by
      decide +kernel
    rcases (hall [] (get 9) 9 (hget 9)).1 with hsilent | hdead | hshown
    · exact absurd hsilent hanswered.1
    · exact absurd hdead hanswered.2
    · exact hshown
  · have hanswered : ((((s.after [mount 7, make]).take (get 9)).2.after [mount 10]).take
        (get 11)).1 ≠ .silent := by decide +kernel
    rcases (hall [make] (get 9) 9 (hget 9)).2 hstale [mount 10] (get 11) 11 (hget 11) with
      hsilent | hstays
    · exact absurd hsilent hanswered
    · exact hstays

end Server

end NfsServer
