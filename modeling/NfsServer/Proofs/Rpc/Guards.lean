import NfsServer.Proofs.Rpc.Attributes
import NfsServer.Proofs.Rpc.ReadOnly
import NfsServer.Proofs.Store.Stamps

/-!
# Guards

A client that asks for a change of attributes can say which change time of the object it last saw.
Where the clock shows a later time at each message, this is a compare-and-swap
(`Server.guard_compares_and_swaps`): the change succeeds only if nothing has happened to the object
in between, and of all changes with one guard at most one succeeds.  All that is used of the other
messages is that they stamp what they change (`Server.stamps_after`) and that handles follow
objects.
-/

namespace NfsServer

/-! ## Stamps over a run -/

/-- Whatever a program changes bears the time at which it runs. -/
theorem Program.stamps_run {α : Type} (p : Program α) (now : Time) {b : Backend Memory}
    (hb : b.store.IsTree) : b.store.Stamps (· = now) (p.run now b).2.store := by
  induction p generalizing b with
  | done a => exact .refl _ _
  | ask r next ih =>
    cases r with
    | store r => exact (Memory.perform_stamps hb now r).trans (ih _ (hb.perform now r))
    | issue p => exact ih _ hb
    | resolve h => exact ih _ hb
    | forgetPath p => exact ih _ hb
    | announce e => exact ih _ hb

namespace Incoming

/-- The clock shows times that clients can tell apart, none before `start` and at each message a
later one. -/
structure TickingFrom (start : Time) (ms : List Incoming) : Prop where
  le : ∀ m ∈ ms, start ≤ m.clock.performed
  shown : ∀ m ∈ ms, m.clock.performed.IsShown
  increasing : ms.Pairwise fun m m' =>
    m.clock.performed.nanoseconds < m'.clock.performed.nanoseconds

theorem TickingFrom.left {start : Time} {ms ns : List Incoming}
    (h : TickingFrom start (ms ++ ns)) : TickingFrom start ms where
  le := fun m hm => h.le m (List.mem_append_left ns hm)
  shown := fun m hm => h.shown m (List.mem_append_left ns hm)
  increasing := h.increasing.sublist (List.sublist_append_left ms ns)

end Incoming

/-- The handle stands for this object, and the object holds the same objects as before. -/
structure Backend.Retains (b b' : Backend Memory) (h : FileHandle) (path : Path) (o : Object) :
    Prop where
  standsFor : b'.StandsFor h path o
  idAt_eq : ∀ l, l.parent? = some path.location → b'.store.idAt l = b.store.idAt l

namespace Server

open Rpc

variable {s : Server Memory} {m : Incoming} {ms : List Incoming} {xid : UInt32} {h : FileHandle}
  {path : Path} {o : Object}

theorem stamps_take (hs : s.backend.store.IsTree) (m : Incoming) :
    s.backend.store.Stamps (· = m.clock.performed) (s.take m).2.backend.store := by
  rw [backend_take]
  cases s.performed? m with
  | none => exact .refl _ _
  | some c => exact Program.stamps_run _ _ hs

/-- Whatever messages change bears the time of one of them. -/
theorem stamps_after (hs : s.backend.store.IsTree) (ms : List Incoming) :
    s.backend.store.Stamps (fun t => ∃ m ∈ ms, t = m.clock.performed)
      (s.after ms).backend.store := by
  induction ms generalizing s with
  | nil => exact .refl _ _
  | cons m ms ih =>
    refine ((stamps_take hs m).mono fun t ht => ?_).trans ((ih (isTree_take hs m)).mono ?_)
    · exact ⟨m, List.mem_cons_self, ht⟩
    · exact fun t ⟨m', hm', ht⟩ => ⟨m', List.mem_cons_of_mem m hm', ht⟩

/-- Behind the messages of a ticking clock, change times can be shown and lie before the times of
all later messages. -/
theorem changed_lt_of_ticking {since : Time} {later : List Incoming}
    (hs : s.backend.store.IsTree) (hchanged : ∀ l o, s.backend.store.find? l = some o →
      o.changed ≤ since ∧ o.changed.IsShown)
    (hticking : Incoming.TickingFrom since (ms ++ later)) (hne : ms ≠ []) {l : Location}
    (ho : (s.after ms).backend.store.find? l = some o) :
    o.changed.IsShown ∧
      ∀ m ∈ later, o.changed.nanoseconds < m.clock.performed.nanoseconds := by
  obtain ⟨-, -, hlt⟩ := List.pairwise_append.1 hticking.increasing
  rcases stamps_after hs ms l o ho with ⟨m, hm, htime⟩ | ⟨k, hold, -⟩
  · rw [htime]
    exact ⟨hticking.shown m (List.mem_append_left later hm), hlt m hm⟩
  · obtain ⟨hle, hshown⟩ := hchanged k o hold
    obtain ⟨first, hfirst⟩ := List.exists_mem_of_ne_nil ms hne
    have hstart := hticking.le first (List.mem_append_left later hfirst)
    exact ⟨hshown, fun m hm => lt_of_le_of_lt (hle.trans hstart) (hlt first hfirst m hm)⟩

/-! ## One object in a run -/

section Object

variable (hs : s.backend.Sound) (htree : s.backend.store.IsTree)
  (hcached : ∃ c, s.backend.handles = .cached c)

include hs htree hcached in
/-- An object that bears the time of no message was there before the first of them, with the same
objects in it. -/
theorem retains_of_not_stamped (hissued : s.backend.handles.HasIssued h)
    (hend : (s.after ms).backend.StandsFor h path o)
    (hold : ∀ m ∈ ms, o.changed ≠ m.clock.performed) :
    (s.after ms).backend.Retains s.backend h path o := by
  obtain ⟨-, hlater⟩ := sound_after hs ms
  have hlive : ⟨h, path⟩ ∈ (s.after ms).backend.handles.bindings :=
    HandleTable.mem_bindings_of_resolve (exists_cached_after hs hcached ms) hend.resolve
  have hbound : ⟨h, path⟩ ∈ s.backend.handles.bindings :=
    hlater.handles.mem_of_mem hlive hissued
  have hid : (s.after ms).backend.store.idAt path.location =
      s.backend.store.idAt path.location := hlater.idAt_eq _ hbound hlive
  -- The object was there with its objects, and its number tells where.
  rcases stamps_after htree ms _ _ hend.find? with ⟨m, hm, htime⟩ | ⟨k, ho, hchildren⟩
  · exact absurd htime (hold m hm)
  · have hnumber : s.backend.store.idAt path.location = some o.fileId :=
      hid.symm.trans (Memory.idAt_eq_some_iff.2 ⟨o, hend.find?, rfl⟩)
    obtain rfl : k = path.location :=
      htree.eq_of_idAt_eq (Memory.idAt_eq_some_iff.2 ⟨o, ho, rfl⟩) hnumber
    refine ⟨⟨hs.handles.resolve_eq hbound, ho⟩, fun l hl => ?_⟩
    obtain ⟨c, -, rfl⟩ := Location.parent?_eq_some_iff.1 hl
    exact (hchildren c).symm

include hs htree hcached in
/-- Where the change time of an object is what it was, earlier than the times of all messages since,
nothing has happened to the object. -/
theorem unchanged_of_changed_eq {path' : Path} {o' : Object}
    (hobject : s.backend.StandsFor h path o) (hend : (s.after ms).backend.StandsFor h path' o')
    (hsame : o'.changed = o.changed)
    (hold : ∀ m ∈ ms, o.changed.nanoseconds < m.clock.performed.nanoseconds) :
    ∀ done, done <+: ms → s.backend.Retains (s.after done).backend h path o := by
  have hissued : s.backend.handles.HasIssued h :=
    hs.handles.hasIssued (HandleTable.mem_bindings_of_resolve hcached hobject.resolve)
  have hlate : ∀ m ∈ ms, o'.changed ≠ m.clock.performed := by
    intro m hm heq
    have := hold m hm
    rw [← heq, hsame] at this
    omega
  obtain ⟨hstart, hchildren⟩ := retains_of_not_stamped hs htree hcached hissued hend hlate
  obtain rfl : path' = path := Except.ok.inj (hstart.resolve.symm.trans hobject.resolve)
  obtain rfl : o' = o := Option.some.inj (hstart.find?.symm.trans hobject.find?)
  rintro done ⟨rest, rfl⟩
  rw [after_append] at hend hchildren
  obtain ⟨hsound, hlater⟩ := sound_after hs done
  obtain ⟨hmiddle, hchildren'⟩ := retains_of_not_stamped hsound (isTree_after htree done)
    (exists_cached_after hs hcached done) (hissued.later hlater.handles) hend
    fun m hm => hlate m (List.mem_append_right done hm)
  exact ⟨hmiddle, fun l hl => (hchildren' l hl).trans (hchildren l hl).symm⟩

end Object

/-! ## Calls on one object -/

/-- The attributes that a client gets are those of the object that the handle stands for. -/
theorem exists_standsFor_of_getAttributes {a : Nfs.FileAttributes}
    (hcall : s.Answers m ⟨xid, .nfs .getAttributes, h⟩ (.results (.ok a))) :
    ∃ path o, s.backend.StandsFor h path o ∧ a = o.metadata.attributesAt path := by
  have hrun : .ok a = ((Nfs.getAttributes h).run m.clock.performed s.backend).1 :=
    Response.results.inj (Answers.eq_results rfl hcall)
  rw [Nfs.run_getAttributes] at hrun
  cases hpath : (s.backend.handles.resolve h).1 with
  | error e =>
    rw [hpath] at hrun
    cases hrun
  | ok path =>
    rw [hpath] at hrun
    dsimp only at hrun
    cases hstat : s.backend.store.stat path.location with
    | error e =>
      rw [hstat] at hrun
      cases hrun
    | ok metadata =>
      rw [hstat] at hrun
      obtain ⟨o, ho, rfl⟩ := Memory.stat_eq_ok_iff.1 hstat
      exact ⟨path, o, ⟨hpath, ho⟩, Nfs.Outcome.ok.inj hrun⟩

section SetAttributes

variable {args : Nfs.SetAttributesArgs}
  (hcall : s.performed? m = some ⟨xid, .nfs .setAttributes, args⟩)

include hcall

theorem take_setAttributes_of_readOnly (hreadOnly : s.backend.store.isReadOnly = true) :
    (s.take m).1 = .reply (replyTo xid (.nfs .setAttributes)
        (.results (.failed .readOnly .empty))) ∧ (s.take m).2.backend = s.backend :=
  take_of_run hcall (Nfs.Procedure.run_refused hreadOnly rfl s.config.writeVerifier)

/-- Where a change of attributes succeeds, the store takes changes and the handle stands for an
object. -/
theorem exists_standsFor_of_setAttributes (hs : s.backend.Sound)
    (hcached : ∃ c, s.backend.handles = .cached c) (hok : (s.take m).1.statusWord? = some 0) :
    s.backend.store.isReadOnly = false ∧ ∃ path o, s.backend.StandsFor args.object path o := by
  have hwrite : s.backend.store.isReadOnly = false := by
    rw [Bool.eq_false_iff]
    intro hreadOnly
    exact ne_failed_of_statusWord? hok _ _ _ (take_setAttributes_of_readOnly hcall hreadOnly).1
  refine ⟨hwrite, ?_⟩
  cases hpath : (s.backend.handles.resolve args.object).1 with
  | error e =>
    have hrun := Nfs.run_setAttributes_of_error m.clock.performed hpath hwrite
    have hreply := (take_of_run_responding rfl hcall hrun).1
    exact absurd hreply (ne_failed_of_statusWord? hok _ _ _)
  | ok path => exact ⟨path, hs.exists_standsFor hcached hpath⟩

end SetAttributes

/-! ## Compare and swap -/

theorem guardHolds_eq_true_iff {g : Nfs.NfsTime} :
    Nfs.guardHolds (some o.metadata.toWcc) (some g) = true ↔ o.changed.toNfs = g := by
  simp [Nfs.guardHolds, Metadata.toWcc, Object.metadata]

/-- A change with a guard succeeds only where the object bears the time that the guard says, and
then it bears the time of the call. -/
theorem standsFor_of_guarded {requested : Nfs.AttributeRequest} {g : Nfs.NfsTime}
    (hs : s.backend.Sound) (hcached : ∃ c, s.backend.handles = .cached c)
    (hcall : s.performed? m = some ⟨xid, .nfs .setAttributes, ⟨h, requested, some g⟩⟩)
    (hok : (s.take m).1.statusWord? = some 0) :
    ∃ path o o', s.backend.StandsFor h path o ∧ o.changed.toNfs = g ∧
      (s.take m).2.backend.StandsFor h path o' ∧ o'.changed = m.clock.performed := by
  obtain ⟨hwrite, path, o, hobject⟩ := exists_standsFor_of_setAttributes hcall hs hcached hok
  obtain ⟨hguard, o', htakes, -, hbackend⟩ := take_setAttributes_of_ok hwrite hcall hobject hok
  refine ⟨path, o, o', hobject, guardHolds_eq_true_iff.1 hguard, ?_, htakes.changed_eq⟩
  rw [hbackend]
  exact hobject.resolvedWith hs.handles (Memory.replaced_modify hobject.find? o').here

section Run

variable {config : ServerConfig} {limit : Nat} {ids : HandleSource} {store : Memory}
  {before : List Incoming}

/-- No handle is live before the first message. -/
theorem ne_nil_of_standsFor
    (hobject : ((start config ⟨store, .cached (.empty limit ids), []⟩).after
      before).backend.StandsFor h path o) : before ≠ [] := by
  rintro rfl
  exact absurd (HandleTable.mem_bindings_of_resolve ⟨_, rfl⟩ hobject.resolve) List.not_mem_nil

/-- Where clients are shown the same change time again, nothing has happened to the object since,
and no message came at that time. -/
theorem unchanged_of_ticking (hstore : store.Built) {since : Time}
    (hchanged : ∀ l o, store.find? l = some o → o.changed ≤ since ∧ o.changed.IsShown)
    (hticking : Incoming.TickingFrom since (before ++ ms)) {path' : Path} {o' : Object} :
    let s := (start config ⟨store, .cached (.empty limit ids), []⟩).after before
    s.backend.StandsFor h path o → (s.after ms).backend.StandsFor h path' o' →
      o'.changed.toNfs = o.changed.toNfs →
      (∀ m ∈ ms, o.changed ≠ m.clock.performed) ∧
        ∀ done, done <+: ms → s.backend.Retains (s.after done).backend h path o := by
  intro s hobject hend hsame
  have hstart := sound_start config store limit ids
  obtain ⟨hsound, -⟩ := sound_after hstart before
  have hne := ne_nil_of_standsFor hobject
  obtain ⟨hshown, hold⟩ :=
    changed_lt_of_ticking hstore.isTree hchanged hticking hne hobject.find?
  have hshown' : o'.changed.IsShown := by
    have hticking' : Incoming.TickingFrom since (before ++ ms ++ []) := by rwa [List.append_nil]
    have hend' := hend.find?
    rw [← after_append] at hend'
    exact (changed_lt_of_ticking hstore.isTree hchanged hticking'
      (List.append_ne_nil_of_left_ne_nil hne ms) hend').1
  have heq : o'.changed = o.changed := by
    rw [← Time.ofNfs_toNfs hshown', hsame, Time.ofNfs_toNfs hshown]
  refine ⟨fun m hm htime => ?_, unchanged_of_changed_eq hsound (isTree_after hstore.isTree before)
    (exists_cached_after hstart ⟨_, rfl⟩ before) hobject hend heq hold⟩
  have := hold m hm
  rw [htime] at this
  omega

end Run

/-- In every run in which the clock ticks, a guard is a compare-and-swap.  If a client has seen a
change time and a change of attributes with it as guard succeeds later, the object has stayed as it
was at each message in between, and so have the objects in it.  Of two changes with the same guard
at most one succeeds.  With a guard that is not the current change time nothing changes, and the
client is told so, unless the store takes no changes at all. -/
theorem guard_compares_and_swaps (config : ServerConfig) (limit : Nat) (ids : HandleSource)
    (store : Memory) (hstore : store.Built) (since : Time)
    (hchanged : ∀ l o, store.find? l = some o → o.changed ≤ since ∧ o.changed.IsShown)
    (before : List Incoming) (m : Incoming) :
    let s := (start config ⟨store, .cached (.empty limit ids), []⟩).after before
    (∀ between m' xid xid' h a requested,
      Incoming.TickingFrom since (before ++ m :: between) →
      s.Answers m ⟨xid, .nfs .getAttributes, h⟩ (.results (.ok a)) →
      let s' := s.after (m :: between)
      s'.performed? m' = some ⟨xid', .nfs .setAttributes, ⟨h, requested, some a.changed⟩⟩ →
      (s'.take m').1.statusWord? = some 0 →
      ∃ path o, a = o.metadata.attributesAt path ∧
        ∀ done, done <+: m :: between → s.backend.Retains (s.after done).backend h path o) ∧
      (∀ between m' xid xid' h requested requested' g,
        Incoming.TickingFrom since (before ++ m :: between) →
        s.performed? m = some ⟨xid, .nfs .setAttributes, ⟨h, requested, some g⟩⟩ →
        let s' := s.after (m :: between)
        s'.performed? m' = some ⟨xid', .nfs .setAttributes, ⟨h, requested', some g⟩⟩ →
        (s.take m).1.statusWord? = some 0 → (s'.take m').1.statusWord? ≠ some 0) ∧
      ∀ xid h requested g path o,
        s.performed? m = some ⟨xid, .nfs .setAttributes, ⟨h, requested, some g⟩⟩ →
        s.backend.StandsFor h path o → (o.metadata.attributesAt path).changed ≠ g →
        (s.take m).1 = .reply (replyTo xid (.nfs .setAttributes) (.results
          (if store.isReadOnly then .failed .readOnly .empty
            else .failed .notSync (Nfs.unchangedWcc o path)))) ∧
          s.backend.Same (s.take m).2.backend := by
  intro s
  have hstart := sound_start config store limit ids
  obtain ⟨hsound, -⟩ := sound_after hstart before
  have hcached := exists_cached_after hstart ⟨_, rfl⟩ before
  have hlater : ∀ ms, (s.after ms).backend.Sound ∧ ∃ c, (s.after ms).backend.handles = .cached c :=
    fun ms => ⟨(sound_after hsound ms).1, exists_cached_after hsound hcached ms⟩
  refine ⟨?_, ?_, ?_⟩
  · intro between m' xid xid' h a requested hticking hseen s' hcall hok
    obtain ⟨path, o, hobject, rfl⟩ := exists_standsFor_of_getAttributes hseen
    obtain ⟨hsound', hcached'⟩ := hlater (m :: between)
    obtain ⟨path', o', -, hend, hsame, -⟩ := standsFor_of_guarded hsound' hcached' hcall hok
    exact ⟨path, o, rfl, (unchanged_of_ticking hstore hchanged hticking hobject hend hsame).2⟩
  · intro between m' xid xid' h requested requested' g hticking hcall s' hcall' hok hok'
    obtain ⟨hsound', hcached'⟩ := hlater (m :: between)
    obtain ⟨path, o, o₁, hobject, hg, hobject₁, htime⟩ :=
      standsFor_of_guarded hsound hcached hcall hok
    obtain ⟨path', o', -, hend, hg', -⟩ := standsFor_of_guarded hsound' hcached' hcall' hok'
    obtain ⟨hold, hstays⟩ :=
      unchanged_of_ticking hstore hchanged hticking hobject hend (hg'.trans hg.symm)
    -- The object would have to be as it was behind the first change, which gave it a new time.
    obtain ⟨hobject₂, -⟩ := hstays [m] ⟨between, rfl⟩
    obtain rfl : o = o₁ := Option.some.inj (hobject₂.find?.symm.trans hobject₁.find?)
    exact hold m List.mem_cons_self htime
  · intro xid h requested g path o hcall hobject hother
    have hreadOnly : s.backend.store.isReadOnly = store.isReadOnly :=
      store_after (Memory.kept_isReadOnly _) rfl before
    cases hwrite : store.isReadOnly with
    | true =>
      obtain ⟨hreply, hbackend⟩ :=
        take_setAttributes_of_readOnly hcall (hreadOnly.trans hwrite)
      rw [hbackend]
      exact ⟨hreply, .refl _⟩
    | false =>
      have hguard : Nfs.guardHolds (some o.metadata.toWcc) (some g) = false := by
        rw [Bool.eq_false_iff]
        exact mt guardHolds_eq_true_iff.1 hother
      obtain ⟨hreply, hbackend⟩ :=
        take_setAttributes_of_guard (hreadOnly.trans hwrite) hcall hobject hguard
      rw [hbackend]
      exact ⟨hreply, Backend.same_resolved hsound.handles h⟩

/-- Between the look at a file and its change another file is made; then the same change is tried
again. -/
theorem guard_compares_and_swaps_once :
    let config : ServerConfig := ⟨.known, ['/'], Bytes.zeros 8⟩
    let store := Memory.empty ⟨5⟩ false 10
    let file := FileHandle.serial 2
    let path : Path := ⟨[0x2F, 0x66]⟩
    let make (now : Int) (xid : UInt32) (name : Bytes) :=
      Call.sentAt ⟨now⟩ ⟨xid, .nfs .create, ⟨⟨.serial 1, name⟩, .unchecked .empty⟩⟩
    let before := [Call.sentAt ⟨6⟩ ⟨7, .mount .mount, [0x2F]⟩, make 7 8 [0x66]]
    let get := Call.sentAt ⟨8⟩ ⟨9, .nfs .getAttributes, file⟩
    let other := make 9 10 [0x67]
    let args : Nfs.SetAttributesArgs :=
      ⟨file, ⟨some 0o600, none, none, none, .keep, .keep⟩, some ⟨0, 7⟩⟩
    let set (now : Int) (xid : UInt32) := Call.sentAt ⟨now⟩ ⟨xid, .nfs .setAttributes, args⟩
    let o : Object := ⟨.file [], .file, 0o644, 0, ⟨7⟩, ⟨7⟩, ⟨7⟩, 2⟩
    let o' : Object := { o with mode := 0o600, changed := ⟨10⟩ }
    let s := (start config ⟨store, .cached (.empty 4), []⟩).after before
    let s' := s.after [get, other]
    let s'' := (s'.take (set 10 11)).2
    ((∀ l o, store.find? l = some o → o.changed ≤ ⟨5⟩ ∧ o.changed.IsShown) ∧
        Incoming.TickingFrom ⟨5⟩ (before ++ [get, other] ++ [set 10 11]) ∧
        s.Answers get ⟨9, .nfs .getAttributes, file⟩
          (.results (.ok (o.metadata.attributesAt path))) ∧
        s'.performed? (set 10 11) = some ⟨11, .nfs .setAttributes, args⟩ ∧
        s''.performed? (set 11 12) = some ⟨12, .nfs .setAttributes, args⟩ ∧
        (s'.take (set 10 11)).1.statusWord? = some 0 ∧ s''.backend.StandsFor file path o') ∧
      (∃ path' o₁, o.metadata.attributesAt path = o₁.metadata.attributesAt path' ∧
        ∀ done, done <+: [get, other] → s.backend.Retains (s.after done).backend file path' o₁) ∧
      (s''.take (set 11 12)).1.statusWord? ≠ some 0 ∧
      (s''.take (set 11 12)).1 = .reply (replyTo 12 (.nfs .setAttributes)
        (.results (.failed .notSync (Nfs.unchangedWcc o' path)))) ∧
      s''.backend.Same (s''.take (set 11 12)).2.backend := by
  intro config store file path make before get other args set o o' s s' s''
  have hchanged : ∀ l o, store.find? l = some o → o.changed ≤ ⟨5⟩ ∧ o.changed.IsShown := by
    have hall : ∀ e ∈ store.objects, e.2.changed ≤ ⟨5⟩ ∧ e.2.changed.IsShown := by decide
    exact fun l o ho => hall _ (Memory.mem_of_find? ho)
  have hticking : Incoming.TickingFrom ⟨5⟩ (before ++ [get, other] ++ [set 10 11]) :=
    ⟨by decide +kernel, by decide +kernel, by decide +kernel⟩
  have hseen : s.Answers get ⟨9, .nfs .getAttributes, file⟩
      (.results (.ok (o.metadata.attributesAt path))) := by
    have hobject : s.backend.StandsFor file path o := ⟨by decide +kernel, by decide +kernel⟩
    refine
      ⟨performed?_sentAt (by decide +kernel) (by decide +kernel) (by decide +kernel), ?_⟩
    have hrun := Nfs.run_getAttributes_of_standsFor get.clock.performed hobject
    show ((Nfs.getAttributes file).responding.run get.clock.performed s.backend).1 = _
    rw [Program.run_responding, hrun]
  have hset : s'.performed? (set 10 11) = some ⟨11, .nfs .setAttributes, args⟩ :=
    performed?_sentAt (by decide +kernel) (by decide +kernel) (by decide +kernel)
  have hset' : s''.performed? (set 11 12) = some ⟨12, .nfs .setAttributes, args⟩ :=
    performed?_sentAt (by decide +kernel) (by decide +kernel) (by decide +kernel)
  have hok : (s'.take (set 10 11)).1.statusWord? = some 0 := by decide +kernel
  have hobject : s''.backend.StandsFor file path o' := ⟨by decide +kernel, by decide +kernel⟩
  have hshown : (o.metadata.attributesAt path).changed = ⟨0, 7⟩ := by decide
  have hother : (o'.metadata.attributesAt path).changed ≠ ⟨0, 7⟩ := by decide
  have hargs : args = ⟨file, args.requested, some ⟨0, 7⟩⟩ := rfl
  have hfirst : s' = s.after [get, other] := rfl
  have hsecond : s'' = s'.after [set 10 11] := rfl
  have hstart : s = (start config ⟨store, .cached (.empty 4), []⟩).after before := rfl
  have hwrite : store.isReadOnly = false := rfl
  have hswaps := guard_compares_and_swaps config 4 .serials store (.empty _ _ _) ⟨5⟩ hchanged
  obtain ⟨hseen', -, -⟩ := hswaps before get
  obtain ⟨-, honce, -⟩ := hswaps (before ++ [get, other]) (set 10 11)
  obtain ⟨-, -, hrefused⟩ := hswaps (before ++ [get, other] ++ [set 10 11]) (set 11 12)
  -- What the servers and messages are is of no matter any more.
  clear_value s'' s' s args o o' set other get before store
  rw [after_append, ← hstart, ← hfirst] at honce
  rw [after_append, after_append, ← hstart, ← hfirst, ← hsecond] at hrefused
  rw [← hstart] at hseen'
  have hseen'' := hseen' [other] (set 10 11) 9 11 file _ args.requested hticking.left hseen
  rw [← hfirst, hshown, ← hargs] at hseen''
  have honce' := honce [] (set 11 12) 11 12 file args.requested args.requested ⟨0, 7⟩ hticking
  rw [← hsecond, ← hargs] at honce'
  have hrefused' := hrefused 12 file args.requested ⟨0, 7⟩ path o'
  rw [← hargs, hwrite, if_neg Bool.false_ne_true] at hrefused'
  exact ⟨⟨hchanged, hticking, hseen, hset, hset', hok, hobject⟩, hseen'' hset hok,
    honce' hset hset' hok, hrefused' hset' hobject hother⟩

/-- A store that takes no changes does not look at guards: a client whose guard is not the change
time of the root is not told so. -/
theorem guard_unread_in_read_only_store :
    let config : ServerConfig := ⟨.known, ['/'], Bytes.zeros 8⟩
    let store := Memory.empty ⟨5⟩ true 10
    let mount := Call.sentAt ⟨6⟩ ⟨7, .mount .mount, [0x2F]⟩
    let args : Nfs.SetAttributesArgs := ⟨.serial 1, .empty, some ⟨0, 4⟩⟩
    let set := Call.sentAt ⟨7⟩ ⟨8, .nfs .setAttributes, args⟩
    let path : Path := ⟨[0x2F]⟩
    let o : Object := ⟨.directory, .directory, 0o755, 0, ⟨5⟩, ⟨5⟩, ⟨5⟩, 1⟩
    let s := (start config ⟨store, .cached (.empty 4), []⟩).after [mount]
    Incoming.TickingFrom ⟨5⟩ [mount, set] ∧
      s.performed? set = some ⟨8, .nfs .setAttributes, args⟩ ∧
      s.backend.StandsFor (.serial 1) path o ∧ (o.metadata.attributesAt path).changed ≠ ⟨0, 4⟩ ∧
      ∀ wcc, (s.take set).1 ≠
        .reply (replyTo 8 (.nfs .setAttributes) (.results (.failed .notSync wcc))) := by
  intro config store mount args set path o s
  have hticking : Incoming.TickingFrom ⟨5⟩ [mount, set] :=
    ⟨by decide +kernel, by decide +kernel, by decide +kernel⟩
  have hset : s.performed? set = some ⟨8, .nfs .setAttributes, args⟩ :=
    performed?_sentAt (by decide +kernel) (by decide +kernel) (by decide +kernel)
  have hobject : s.backend.StandsFor (.serial 1) path o := ⟨by decide +kernel, by decide +kernel⟩
  refine ⟨hticking, hset, hobject, by decide, fun wcc heq => ?_⟩
  have hrefused : (s.take set).1.statusWord? = some 30 := by decide +kernel
  have hword : (s.take set).1.statusWord? = some 10002 := by
    rw [heq]
    exact Nfs.Procedure.statusWord?_results (p := .setAttributes) (r := .failed .notSync wcc) rfl 8
  exact absurd (Option.some.inj (hword.symm.trans hrefused)) (by decide)

end Server

end NfsServer
