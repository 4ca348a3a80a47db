import NfsServer.Proofs.Nfs.Data
import NfsServer.Proofs.Store.Names
import NfsServer.Proofs.Store.Renaming

/-!
# Attributes before and after a call

A procedure that changes the store looks at its object or its directory once before the change and
once behind it (`WccData`).  What it answers is what was in the store and what is in it now
(`Backend.Tells`).  Both looks go by the place, so all that there is to show is that the object
keeps its place in between: no directory goes when one of its entries comes, goes or moves
(`Memory.idAt_rename`).
-/

namespace NfsServer

variable {α γ : Type} {now : Time}

/-! ## Objects that keep their places -/

/-- The directories of both entries of a rename stay where they are. -/
theorem Memory.idAt_rename {m : Memory} (hm : m.IsTree) (now : Time) {source target : Path}
    {l : Location} (hl : source.location.parent? = some l ∨ target.location.parent? = some l) :
    (perform now (.rename source target) m).2.idAt l = m.idAt l := by
  rcases rename_cases hm now source target with
    ⟨-, -, hsame⟩ | ⟨hcan, -, ⟨-, hsame⟩ | ⟨hne, hmoved⟩⟩
  · rw [hsame]
  · rw [hsame]
  · obtain ⟨hsource, htarget, -⟩ := hm.apart hcan hne
    -- Were a directory at or below one of the two places, one place would lie below the other.
    have haway : ¬source.location <+: l ∧ ¬target.location <+: l := by
      rcases hl with hl | hl <;> obtain ⟨c, -, heq⟩ := Location.parent?_eq_some_iff.1 hl
      · exact ⟨Location.not_prefix_of_parent? hl,
          fun h => htarget (heq ▸ h.trans (List.prefix_append l [c]))⟩
      · exact ⟨fun h => hsource (heq ▸ h.trans (List.prefix_append l [c])),
          Location.not_prefix_of_parent? hl⟩
    exact idAt_of_touchEither (hmoved.elsewhere l haway.1 haway.2)

/-- A request that takes no object away from the place or from one above it. -/
def Request.LeavesAt (l : Location) : Request α → Prop
  | .store r => ∀ k ∈ r.vacated, ¬k <+: l
  | _ => True

/-- A program all of whose requests leave an object where it is does so, too. -/
theorem Program.Asks.idAt_run {p : Program α} {l : Location} (hp : p.Asks (Request.LeavesAt l))
    (now : Time) {b : Backend Memory} {f : Nat} (hf : b.store.idAt l = some f) :
    (p.run now b).2.store.idAt l = some f := by
  induction p generalizing b with
  | done a => exact hf
  | ask r next ih =>
    refine ih _ (hp.2 _) ?_
    cases r with
    | store r => exact Memory.perform_keeps now r b.store l f hp.1 hf
    | issue p => exact hf
    | resolve h => exact hf
    | forgetPath p => exact hf
    | announce e => exact hf

/-! ## Telling the truth -/

namespace Backend

variable {b b' : Backend Memory} {h : FileHandle} {p : Path} {o o' : Object}

/-- The pair holds the attributes of the object that a handle stood for before a call, and those of
the same object behind it. -/
def Tells (b b' : Backend Memory) (h : FileHandle) (wcc : Nfs.WccData) : Prop :=
  ∃ path o o', b.StandsFor h path o ∧ b'.store.find? path.location = some o' ∧
    o'.fileId = o.fileId ∧ wcc = ⟨some o.metadata.toWcc, some (o'.metadata.attributesAt path)⟩

theorem StandsFor.idAt_eq (hobject : b.StandsFor h p o) :
    b.store.idAt p.location = some o.fileId :=
  Memory.idAt_eq_some_iff.2 ⟨o, hobject.find?, rfl⟩

/-- What is told of an object that stays at its place. -/
theorem StandsFor.tells (hobject : b.StandsFor h p o) (ho' : b'.store.find? p.location = some o')
    (hsame : o'.fileId = o.fileId) :
    b.Tells b' h ⟨some o.metadata.toWcc, some (o'.metadata.attributesAt p)⟩ :=
  ⟨p, o, o', hobject, ho', hsame, rfl⟩

/-- What is told of an object that stays as it is. -/
theorem StandsFor.tells_unchanged (hobject : b.StandsFor h p o) (hsame : b'.store = b.store) :
    b.Tells b' h (Nfs.unchangedWcc o p) :=
  hobject.tells (hsame ▸ hobject.find?) rfl

/-- What is told of an object that is altered in place. -/
theorem StandsFor.tells_altered (hobject : b.StandsFor h p o) {limit : Nat}
    (halters : Memory.Alters limit o o')
    (hstore : b'.store = b.store.modify p.location fun _ => o') :
    b.Tells b' h ⟨some o.metadata.toWcc, some (o'.metadata.attributesAt p)⟩ :=
  hobject.tells (hstore ▸ (Memory.replaced_modify hobject.find? o').here) halters.fileId_eq

/-- A handle stands for the same object when another one has been looked up. -/
theorem StandsFor.resolved (hb : b.handles.WellFormed) (hobject : b.StandsFor h p o)
    (h' : FileHandle) : (b.resolved h').StandsFor h p o :=
  ⟨hb.resolve_after hobject.resolve h', hobject.find?⟩

end Backend

namespace Nfs

open Program

variable {b : Backend Memory} {h : FileHandle} {p : Path} {o : Object}

/-- A result, whether it is one of a success or of a failure. -/
def Outcome.either {φ : Type} (f : α → γ) (g : φ → γ) : Outcome α φ → γ
  | ok a => f a
  | failed _ detail => g detail

/-! ### Calls on one object -/

theorem ends_setAttributes_tells (hwrite : b.store.isReadOnly = false) {args : SetAttributesArgs}
    (hobject : b.StandsFor args.object p o) :
    (setAttributes now args).Ends now b fun r b' => b.Tells b' args.object (r.either id id) := by
  unfold Ends
  rw [run_setAttributes now hobject hwrite]
  split
  · split
    · exact hobject.tells_unchanged rfl
    · next a m' hset =>
      obtain ⟨o₁, o', ho₁, halters, rfl, rfl⟩ := Memory.alters_of_setAttributes hset
      obtain rfl := Option.some.inj (hobject.find?.symm.trans ho₁)
      exact hobject.tells_altered halters rfl
  · exact hobject.tells_unchanged rfl

theorem ends_write_tells (hwrite : b.store.isReadOnly = false) (verifier : FixedBytes 8)
    {args : WriteArgs} (hobject : b.StandsFor args.file p o) :
    (write verifier args).Ends now b fun response b' => ∀ r, response = .results r →
      b.Tells b' args.file (r.either WriteResult.file id) := by
  by_cases hcount : args.data.length = args.count.toNat
  · unfold Ends
    rw [run_write now hobject hwrite hcount]
    split
    · rintro _ ⟨⟩
      exact hobject.tells_unchanged rfl
    · next a m' hset =>
      obtain ⟨o₁, o', ho₁, halters, rfl, rfl⟩ := Memory.alters_of_write hset
      obtain rfl := Option.some.inj (hobject.find?.symm.trans ho₁)
      rintro _ ⟨⟩
      exact hobject.tells_altered halters rfl
  · unfold write
    rw [if_pos hcount]
    exact ends_pure fun _ h => nomatch h

/-! ### Calls that go by a directory -/

/-- A procedure that changes the store begins with the path of a live handle. -/
theorem ends_opened (hwrite : b.store.isReadOnly = false) (hp : (b.handles.resolve h).1 = .ok p)
    {refusal : α} {k : Except NfsError Path → Program α} {post : α → Backend Memory → Prop}
    (hk : (k (.ok p)).Ends now (b.resolved h) post) :
    (isReadOnly >>= fun readOnly => if readOnly then pure refusal else
      Program.resolve h >>= k).Ends now b post := by
  unfold Ends
  rw [run_bind, run_isReadOnly, hwrite]
  dsimp only
  rw [if_neg Bool.false_ne_true, run_resolve_then hp]
  exact hk

/-- Two looks at an object tell what it was and what it is, if what comes in between leaves it at
its place. -/
theorem ends_between (ho : b.store.find? p.location = some o) {q : Program γ}
    (hq : (q.run now b).2.store.idAt p.location = some o.fileId)
    {k : γ → WccData → Program α} {post : α → Backend Memory → Prop}
    (hk : ∀ x b' o', b'.store.find? p.location = some o' → o'.fileId = o.fileId →
      (k x ⟨some o.metadata.toWcc, some (o'.metadata.attributesAt p)⟩).Ends now b' post) :
    (wccOf? p >>= fun before => q >>= fun x => wccSince before p >>= k x).Ends now b post := by
  obtain ⟨o', ho', hsame⟩ := Memory.idAt_eq_some_iff.1 hq
  have hk' := hk (q.run now b).1 _ o' ho' hsame
  unfold Ends at hk' ⊢
  rw [run_bind, run_wccOf? ho, run_bind, run_bind, run_wccSince ho']
  exact hk'

/-- A request that vacates nothing leaves every object where it is. -/
theorem leavesAt_of_vacated_eq_nil {r : StoreRequest α} (hr : r.vacated = []) (l : Location) :
    Request.LeavesAt l (.store r) := by
  simp [Request.LeavesAt, hr]

/-- The making of an entry leaves its directory where it is. -/
theorem ends_addEntry_tells (hwrite : b.store.isReadOnly = false) {entry : EntryName}
    (hobject : b.StandsFor entry.directory p o)
    {make : Path → Program (Except NfsError Metadata)}
    (hmake : ∀ path, (make path).Asks (Request.LeavesAt p.location)) :
    (addEntry entry make).Ends now b fun r b' =>
      b.Tells b' entry.directory (r.either CreateResult.directory id) := by
  apply ends_opened hwrite hobject.resolve
  dsimp only
  have ho : (b.resolved entry.directory).store.find? p.location = some o := hobject.find?
  refine ends_between ho ?_ ?_
  · have hasks : (makeAt (entryPath p entry.name) make).Asks (Request.LeavesAt p.location) := by
      cases entryPath p entry.name with
      | error e => exact asks_pure _
      | ok path => exact (hmake path).bind fun made => by cases made <;> exact asks_pure _
    exact hasks.idAt_run now hobject.idAt_eq
  · intro made b' o' ho' hsame
    have htells := hobject.tells ho' hsame
    cases made <;> exact htells

theorem parent?_of_entryPath {directory path : Path} {name : Bytes}
    (h : entryPath directory name = .ok path) :
    path.location.parent? = some directory.location := by
  obtain ⟨hname, rfl⟩ := entryPath_eq_ok_iff.1 h
  rw [directory.location_child hname.isEntryName]
  exact Location.parent?_append_singleton _ Component.noConfusion

theorem entryPath_of_removalPath {directory path : Path} {name : Bytes}
    (h : removalPath directory name = .ok path) : entryPath directory name = .ok path := by
  unfold removalPath at h
  split at h
  · cases h
  · split at h
    · cases h
    · exact h

/-- The removal of an entry leaves its directory where it is. -/
theorem ends_dropEntry_tells (hwrite : b.store.isReadOnly = false) {entry : EntryName}
    (hobject : b.StandsFor entry.directory p o) {target : Path → Bytes → Except NfsError Path}
    (htarget : ∀ path, target p entry.name = .ok path → entryPath p entry.name = .ok path)
    {removal : Path → StoreRequest (Except StoreError Unit)}
    (hvacated : ∀ path, (removal path).vacated = [path.location]) :
    (dropEntry entry target removal).Ends now b fun r b' =>
      b.Tells b' entry.directory (r.either id id) := by
  apply ends_opened hwrite hobject.resolve
  dsimp only
  have ho : (b.resolved entry.directory).store.find? p.location = some o := hobject.find?
  refine ends_between ho ?_ ?_
  · have hasks : (dropAt (target p entry.name) removal).Asks (Request.LeavesAt p.location) := by
      cases hpath : target p entry.name with
      | error e => exact asks_pure _
      | ok path =>
        have hleaves : Request.LeavesAt p.location (.store (removal path)) := by
          have hparent := parent?_of_entryPath (htarget path hpath)
          simp [Request.LeavesAt, hvacated, Location.not_prefix_of_parent? hparent]
        refine (asks_attempt hleaves).bind fun removed => ?_
        cases removed with
        | error e => exact asks_pure _
        | ok u => exact (asks_request trivial).bind fun _ => asks_pure _
    exact hasks.idAt_run now hobject.idAt_eq
  · intro removed b' o' ho' hsame
    have htells := hobject.tells ho' hsame
    cases removed <;> exact htells

/-! ### Renames -/

/-- Whatever becomes of a move, both directories stay where they are. -/
theorem idAt_moveEntry (htree : b.store.IsTree) (now : Time) (p p' : Path) (name name' : Bytes) :
    let store := ((moveEntry (entryPath p name) (entryPath p' name')).run now b).2.store
    store.idAt p.location = b.store.idAt p.location ∧
      store.idAt p'.location = b.store.idAt p'.location := by
  cases hsource : entryPath p name with
  | error e => exact ⟨rfl, rfl⟩
  | ok source =>
    cases htarget : entryPath p' name' with
    | error e => exact ⟨rfl, rfl⟩
    | ok target =>
      have hstore : ((moveEntry (.ok source) (.ok target)).run now b).2.store =
          (Memory.perform now (.rename source target) b.store).2 := by
        rw [moveEntry, run_bind, run_attempt]
        cases (Memory.perform now (.rename source target) b.store).1 <;> rfl
      intro store
      rw [show store = _ from hstore]
      exact ⟨Memory.idAt_rename htree now (Or.inl (parent?_of_entryPath hsource)),
        Memory.idAt_rename htree now (Or.inr (parent?_of_entryPath htarget))⟩

/-- A rename tells what both directories were and are; they may be one and the same. -/
theorem ends_rename_tells (hb : b.handles.WellFormed) (htree : b.store.IsTree)
    (hwrite : b.store.isReadOnly = false) {args : RenameArgs} {p' : Path} {o' : Object}
    (hsource : b.StandsFor args.source.directory p o)
    (htarget : b.StandsFor args.target.directory p' o') :
    (rename args).Ends now b fun r b' =>
      b.Tells b' args.source.directory
          (r.either RenameDirectories.source RenameDirectories.source) ∧
        b.Tells b' args.target.directory
          (r.either RenameDirectories.target RenameDirectories.target) := by
  apply ends_opened hwrite hsource.resolve
  dsimp only
  have hresolve := (htarget.resolved hb args.source.directory).resolve
  have hstore : ((b.resolved args.source.directory).resolved args.target.directory).store =
      b.store := rfl
  have ho := hsource.find?
  have ho' := htarget.find?
  have hid := hsource.idAt_eq
  have hid' := htarget.idAt_eq
  unfold Ends
  rw [run_resolve_then hresolve, ← Backend.resolved]
  -- From here on only the store matters, and it is that of the beginning.
  generalize (b.resolved args.source.directory).resolved args.target.directory = b₁ at hstore
  rw [← hstore] at ho ho' hid hid' htree
  obtain ⟨hkept, hkept'⟩ :=
    idAt_moveEntry htree now p p' args.source.name args.target.name
  dsimp only
  rw [run_bind, run_wccOf? ho, run_bind, run_wccOf? ho', run_bind]
  generalize (moveEntry (entryPath p args.source.name) (entryPath p' args.target.name)).run now b₁ =
    moved at hkept hkept' ⊢
  obtain ⟨o₁, ho₁, hsame⟩ := Memory.idAt_eq_some_iff.1 (hkept.trans hid)
  obtain ⟨o₁', ho₁', hsame'⟩ := Memory.idAt_eq_some_iff.1 (hkept'.trans hid')
  obtain ⟨result, b₂⟩ := moved
  dsimp only at ho₁ ho₁' ⊢
  rw [run_bind, run_wccSince ho₁, run_bind, run_wccSince ho₁']
  have htells := And.intro (hsource.tells ho₁ hsame) (htarget.tells ho₁' hsame')
  cases result <;> exact htells

end Nfs

end NfsServer
