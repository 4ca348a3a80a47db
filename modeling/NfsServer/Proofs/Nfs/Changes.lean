import NfsServer.Nfs.Changes
import NfsServer.Proofs.Nfs.Queries

/-!
# Procedures that change the store keep handles

What creates or alters objects leaves all others at their places.  What removes or moves objects
forgets the handles of the places that it vacates before it does anything else
(`stable_dropAt`, `stable_moveEntry`).
-/

namespace NfsServer.Nfs

variable {α : Type} {now : Time} {b : Backend Memory}

theorem asks_wccSince (before : Option WccAttributes) (path : Path) :
    (wccSince before path).Asks Request.IsQuery :=
  (asks_attributesOf? path).bind fun _ => Program.asks_pure _

/-- A procedure that ends with a look at the store. -/
theorem stable_query_pure (hb : b.Sound) {β : Type} {p : Program β}
    (hp : p.Asks Request.IsQuery) (k : β → α) :
    (p >>= fun x => pure (k x)).Stable now b fun _ _ => True :=
  (Program.stable_of_asks_isQuery hb (hp.bind fun x => Program.asks_pure (k x))).mono
    fun _ _ _ => trivial

/-- A procedure that does nothing on a store that refuses changes. -/
theorem stable_unless_readOnly (hb : b.Sound) (a : α) {p : Program α}
    (hp : p.Stable now b fun _ _ => True) :
    (isReadOnly >>= fun readOnly => if readOnly then pure a else p).Stable now b
      fun _ _ => True := by
  apply (Program.stable_of_asks_isQuery hb asks_isReadOnly).bind hb
  intro readOnly b' hb' h
  obtain ⟨rfl, -⟩ := h
  split
  · exact Program.stable_pure hb' trivial
  · exact hp

/-! ## Objects -/

section Asks

variable {P : ∀ {β : Type}, Request β → Prop}
  (hlook : ∀ {β : Type} {r : Request β}, r.IsLook → P r)

include hlook

/-- A procedure that does nothing on a store that refuses changes. -/
theorem asks_unless_readOnly (a : α) {p : Program α} (hp : p.Asks P) :
    (isReadOnly >>= fun readOnly => if readOnly then pure a else p).Asks P := by
  refine (asks_isReadOnly.query hlook).bind fun readOnly => ?_
  split
  · exact Program.asks_pure a
  · exact hp

/-- Besides the one change, a change of attributes only looks. -/
theorem asks_setAttributes {args : SetAttributesArgs}
    (hset : ∀ path, P (.store (.setAttributes path (args.requested.toChanges now)))) :
    (setAttributes now args).Asks P := by
  refine asks_unless_readOnly hlook _ ?_
  refine (Program.asks_resolve hlook args.object).bind fun r => ?_
  cases r with
  | error e => exact Program.asks_pure _
  | ok path =>
    refine ((asks_wccOf? path).query hlook).bind fun before => ?_
    split
    · exact ((asks_wccSince before path).query hlook).bind fun _ => Program.asks_pure _
    · refine (asks_attempt (hset path)).bind fun m => ?_
      cases m with
      | error e => exact ((asks_wccSince before path).query hlook).bind fun _ => Program.asks_pure _
      | ok m => exact Program.asks_pure _

/-- Besides the one change, a write only looks. -/
theorem asks_write (verifier : FixedBytes 8) {args : WriteArgs}
    (hwrite : ∀ path, P (.store (.write path args.offset.toNat args.data))) :
    (write verifier args).Asks P := by
  unfold write
  split
  · exact Program.asks_pure _
  · refine asks_unless_readOnly hlook _ ?_
    refine (Program.asks_resolve hlook args.file).bind fun r => ?_
    cases r with
    | error e => exact Program.asks_pure _
    | ok path =>
      refine ((asks_wccOf? path).query hlook).bind fun before => ?_
      refine (asks_attempt (hwrite path)).bind fun m => ?_
      cases m with
      | error e => exact ((asks_wccSince before path).query hlook).bind fun _ => Program.asks_pure _
      | ok m => exact Program.asks_pure _

end Asks

theorem stable_setAttributes (hb : b.Sound) (args : SetAttributesArgs) :
    (setAttributes now args).Stable now b fun _ _ => True := by
  apply stable_unless_readOnly hb
  apply (Program.stable_resolve hb args.object).bind hb
  intro r b' hb' _
  cases r with
  | error e => exact Program.stable_pure hb' trivial
  | ok path =>
    refine (Program.stable_of_asks_isQuery hb' (asks_wccOf? path)).bind hb'
      fun before b'' hb'' _ => ?_
    split
    · exact stable_query_pure hb'' (asks_wccSince before path) _
    · apply (stable_attempt hb'' rfl).bind hb''
      intro m b₃ hb₃ _
      cases m with
      | error e => exact stable_query_pure hb₃ (asks_wccSince before path) _
      | ok m => exact Program.stable_pure hb₃ trivial

theorem stable_write (hb : b.Sound) (verifier : FixedBytes 8) (args : WriteArgs) :
    (write verifier args).Stable now b fun _ _ => True := by
  unfold write
  split
  · exact Program.stable_pure hb trivial
  · apply stable_unless_readOnly hb
    apply (Program.stable_resolve hb args.file).bind hb
    intro r b' hb' _
    cases r with
    | error e => exact Program.stable_pure hb' trivial
    | ok path =>
      refine (Program.stable_of_asks_isQuery hb' (asks_wccOf? path)).bind hb'
        fun before b'' hb'' _ => ?_
      apply (stable_attempt hb'' rfl).bind hb''
      intro m b₃ hb₃ _
      cases m with
      | error e => exact stable_query_pure hb₃ (asks_wccSince before path) _
      | ok m => exact Program.stable_pure hb₃ trivial

/-! ## New entries -/

/-- The program makes an object at the path, if it does not fail. -/
def MakesAt (now : Time) (path : Path) (p : Program (Except NfsError Metadata)) : Prop :=
  ∀ b : Backend Memory, b.Sound → p.Stable now b fun a b' =>
    ∀ m, a = .ok m → ∃ f, b'.store.idAt path.location = some f

theorem stable_makeAt (hb : b.Sound) {path : Except NfsError Path}
    {make : Path → Program (Except NfsError Metadata)} (hmake : ∀ p, MakesAt now p (make p)) :
    (makeAt path make).Stable now b fun a b' =>
      ∀ p m, a = .ok (p, m) → ∃ f, b'.store.idAt p.location = some f := by
  cases path with
  | error e => exact Program.stable_pure hb fun _ _ h => nomatch h
  | ok path =>
    apply (hmake path b hb).bind hb
    intro m b' hb' hm
    cases m with
    | error e => exact Program.stable_pure hb' fun _ _ h => nomatch h
    | ok m =>
      apply Program.stable_pure hb'
      intro p m' h
      obtain ⟨rfl, rfl⟩ := Prod.mk.inj (Except.ok.inj h)
      exact hm m rfl

theorem stable_addEntry (hb : b.Sound) (entry : EntryName)
    {make : Path → Program (Except NfsError Metadata)} (hmake : ∀ p, MakesAt now p (make p)) :
    (addEntry entry make).Stable now b fun _ _ => True := by
  apply stable_unless_readOnly hb
  apply (Program.stable_resolve hb entry.directory).bind hb
  intro r b' hb' _
  cases r with
  | error e => exact Program.stable_pure hb' trivial
  | ok directory =>
    refine (Program.stable_of_asks_isQuery hb' (asks_wccOf? directory)).bind hb'
      fun before b'' hb'' _ => ?_
    apply (stable_makeAt hb'' hmake).bind hb''
    intro made b₃ hb₃ hmade
    refine (Program.stable_of_asks_isQuery hb₃ (asks_wccSince before directory)).bind hb₃
      fun wcc b₄ hb₄ hwcc => ?_
    obtain ⟨rfl, -⟩ := hwcc
    cases made with
    | error e => exact Program.stable_pure hb₄ trivial
    | ok made =>
      obtain ⟨f, hf⟩ := hmade made.1 made.2 rfl
      exact (Program.stable_issue hb₄ hf).bind hb₄ fun _ _ hb₅ _ =>
        Program.stable_pure hb₅ trivial

theorem asks_applyChanges {P : ∀ {β : Type}, Request β → Prop} {path : Path}
    {changes : AttributeChanges} (hset : P (.store (.setAttributes path changes))) (m : Metadata) :
    (applyChanges path m changes).Asks P := by
  unfold applyChanges
  split
  · exact Program.asks_pure _
  · exact asks_attempt hset

/-- Changes to the attributes of an object that is there leave it there. -/
theorem stable_applyChanges (hb : b.Sound) {path : Path} {f : Nat}
    (hf : b.store.idAt path.location = some f) (m : Metadata) (changes : AttributeChanges) :
    (applyChanges path m changes).Stable now b fun a b' =>
      ∀ m, a = .ok m → ∃ f, b'.store.idAt path.location = some f := by
  unfold applyChanges
  split
  · exact Program.stable_pure hb fun _ _ => ⟨f, hf⟩
  · refine (stable_attempt hb rfl).mono fun a b' h m _ => ⟨f, ?_⟩
    rw [h.2]
    exact Memory.perform_keeps now _ b.store _ f (fun _ hl => absurd hl List.not_mem_nil) hf

/-- A request that makes an object where there is none, or finds it there. -/
structure Makes (path : Path) (r : StoreRequest (Except StoreError Metadata)) : Prop where
  vacated : r.vacated = []
  idAt : ∀ (now : Time) (m : Memory) (a : Metadata), (Memory.perform now r m).1 = .ok a →
    ∃ f, (Memory.perform now r m).2.idAt path.location = some f

theorem makes_create (path : Path) (mode : UInt32) (exclusive : Bool) :
    Makes path (.create path mode exclusive) :=
  ⟨rfl, fun _ _ _ => Memory.idAt_of_create⟩

theorem makes_makeDirectory (path : Path) (mode : UInt32) :
    Makes path (.makeDirectory path mode) :=
  ⟨rfl, fun _ _ _ => Memory.idAt_of_addNew⟩

theorem makes_symlink (path : Path) (target : Bytes) : Makes path (.symlink path target) :=
  ⟨rfl, fun _ _ _ => Memory.idAt_of_addNew⟩

theorem Makes.makesAt {path : Path} {r : StoreRequest (Except StoreError Metadata)}
    (h : Makes path r) : MakesAt now path (attempt r) := by
  intro b hb
  apply (stable_attempt hb h.vacated).mono
  intro a b' ha m hm
  rw [ha.2]
  exact h.idAt now b.store m (report_eq_ok (ha.1.symm.trans hm))

/-- Makes an object and changes it afterwards. -/
def makeThenChange (r : Path → StoreRequest (Except StoreError Metadata))
    (changes : AttributeChanges) (path : Path) : Program (Except NfsError Metadata) := do
  match ← attempt (r path) with
  | .error e => return .error e
  | .ok m => applyChanges path m changes

theorem asks_makeThenChange {P : ∀ {β : Type}, Request β → Prop}
    {r : Path → StoreRequest (Except StoreError Metadata)} {changes : AttributeChanges}
    {path : Path} (hr : P (.store (r path))) (hset : P (.store (.setAttributes path changes))) :
    (makeThenChange r changes path).Asks P := by
  refine (asks_attempt hr).bind fun m => ?_
  cases m with
  | error e => exact Program.asks_pure _
  | ok m => exact asks_applyChanges hset m

theorem Makes.makesAt_then {path : Path} {r : Path → StoreRequest (Except StoreError Metadata)}
    (h : Makes path (r path)) (changes : AttributeChanges) :
    MakesAt now path (makeThenChange r changes path) := by
  intro b hb
  apply (h.makesAt b hb).bind hb
  intro m b' hb' hm
  cases m with
  | error e => exact Program.stable_pure hb' fun _ h => nomatch h
  | ok m =>
    obtain ⟨f, hf⟩ := hm m rfl
    exact stable_applyChanges hb' hf m changes

theorem stable_create (hb : b.Sound) (args : CreateArgs) :
    (create now args).Stable now b fun _ _ => True :=
  stable_addEntry hb args.entry fun path =>
    Makes.makesAt_then (r := fun path => .create path _ _) (makes_create path _ _) _

theorem stable_makeDirectory (hb : b.Sound) (args : MakeDirectoryArgs) :
    (makeDirectory now args).Stable now b fun _ _ => True :=
  stable_addEntry hb args.entry fun path =>
    Makes.makesAt_then (r := fun path => .makeDirectory path _) (makes_makeDirectory path _) _

theorem stable_makeSymlink (hb : b.Sound) (args : SymlinkArgs) :
    (makeSymlink args).Stable now b fun _ _ => True :=
  stable_addEntry hb args.entry fun path => (makes_symlink path args.contents.target).makesAt

theorem asks_makeNode (args : MakeNodeArgs) : (makeNode args).Asks Request.IsLook := by
  apply asks_resolve_then args.entry.directory
  intro r
  cases r with
  | error e => exact Program.asks_pure _
  | ok directory => exact (asks_attributesOf? directory).bind fun _ => Program.asks_pure _

theorem asks_makeLink (args : LinkArgs) : (makeLink args).Asks Request.IsLook := by
  apply asks_resolve_then args.file
  intro r
  cases r with
  | error e => exact Program.asks_pure _
  | ok path => exact (asks_attributesOf? path).bind fun _ => Program.asks_pure _

/-! ## Entries that go -/

/-- A request that takes objects away, together with the forgetting of the handles of the places
that it vacates. -/
theorem stable_vacate (hb : b.Sound) {r : StoreRequest (Except StoreError Unit)}
    (hatomic : r.IsAtomic)
    {k : Except NfsError Unit → Program α} {fail : NfsError → α}
    (herror : ∀ e, k (.error e) = pure (fail e)) {a : α} {forget : HandleTable → HandleTable}
    (hclears : HandleTable.Clears r.vacated forget)
    (hrun : ∀ b : Backend Memory,
      (k (.ok ())).run now b = (a, ⟨b.store, forget b.handles, b.events⟩))
    (hnamings : ∀ b : Backend Memory, (k (.ok ())).namings now b = []) :
    (attempt r >>= k).Stable now b fun _ _ => True := by
  -- `Stable.bind` does not apply: behind the request and before the forgetting, handles of vacated
  -- places are still bound, and the backend in between is not sound.
  let b' : Backend Memory := { b with store := (Memory.perform now r b.store).2 }
  have hbind : (attempt r >>= k).run now b =
      (k (report (Memory.perform now r b.store).1)).run now b' :=
    Program.run_bind now (attempt r) k b
  have hnames : (attempt r >>= k).namings now b =
      (k (report (Memory.perform now r b.store).1)).namings now b' :=
    Program.namings_bind now (attempt r) k b
  rcases hresult : (Memory.perform now r b.store).1 with e | _
  · have hsame : b' = b := congrArg (fun m => { b with store := m }) (hatomic now b.store e hresult)
    rw [hresult, hsame, report, herror] at hbind hnames
    refine ⟨?_, ?_, fun e he => ?_, trivial⟩
    · rw [hbind]
      exact hb
    · rw [hbind]
      exact .refl b
    · rw [hnames] at he
      cases he
  · rw [hresult, report] at hbind hnames
    rw [hrun] at hbind
    rw [hnamings] at hnames
    obtain ⟨hwell, hlater, hmem⟩ := hclears b.handles hb.handles
    have hstep := hb.vacate now r hwell hlater hmem
    refine ⟨?_, ?_, fun e he => ?_, trivial⟩
    · rw [hbind]
      exact hstep.1
    · rw [hbind]
      exact hstep.2
    · rw [hnames] at he
      cases he

theorem stable_dropAt (hb : b.Sound) (path : Except NfsError Path)
    {removal : Path → StoreRequest (Except StoreError Unit)}
    (hvacated : ∀ p, (removal p).vacated = [p.location])
    (hatomic : ∀ p, (removal p).IsAtomic) :
    (dropAt path removal).Stable now b fun _ _ => True := by
  cases path with
  | error e => exact Program.stable_pure hb trivial
  | ok path =>
    have hclears := HandleTable.clears_forgetPath path
    rw [← hvacated] at hclears
    exact stable_vacate hb (hatomic path) (fun _ => rfl) hclears (fun _ => rfl) fun _ => rfl

theorem stable_dropEntry (hb : b.Sound) (entry : EntryName)
    (target : Path → Bytes → Except NfsError Path)
    {removal : Path → StoreRequest (Except StoreError Unit)}
    (hvacated : ∀ p, (removal p).vacated = [p.location])
    (hatomic : ∀ p, (removal p).IsAtomic) :
    (dropEntry entry target removal).Stable now b fun _ _ => True := by
  apply stable_unless_readOnly hb
  apply (Program.stable_resolve hb entry.directory).bind hb
  intro r b' hb' _
  cases r with
  | error e => exact Program.stable_pure hb' trivial
  | ok directory =>
    refine (Program.stable_of_asks_isQuery hb' (asks_wccOf? directory)).bind hb'
      fun before b'' hb'' _ => ?_
    apply (stable_dropAt hb'' _ hvacated hatomic).bind hb''
    intro removed b₃ hb₃ _
    cases removed <;> exact stable_query_pure hb₃ (asks_wccSince before directory) _

theorem stable_remove (hb : b.Sound) (entry : EntryName) :
    (remove entry).Stable now b fun _ _ => True :=
  stable_dropEntry hb entry entryPath (fun _ => rfl) StoreRequest.isAtomic_removeFile

theorem stable_removeDirectory (hb : b.Sound) (entry : EntryName) :
    (removeDirectory entry).Stable now b fun _ _ => True :=
  stable_dropEntry hb entry removalPath (fun _ => rfl) StoreRequest.isAtomic_removeDirectory

theorem stable_moveEntry (hb : b.Sound) (source target : Except NfsError Path) :
    (moveEntry source target).Stable now b fun _ _ => True := by
  cases source with
  | error e => exact Program.stable_pure hb trivial
  | ok source =>
    cases target with
    | error e => exact Program.stable_pure hb trivial
    | ok target =>
      exact stable_vacate hb (StoreRequest.isAtomic_rename source target) (fun _ => rfl)
        ((HandleTable.clears_forgetPath source).append (HandleTable.clears_forgetPath target))
        (fun _ => rfl) fun _ => rfl

theorem stable_rename (hb : b.Sound) (args : RenameArgs) :
    (rename args).Stable now b fun _ _ => True := by
  apply stable_unless_readOnly hb
  apply (Program.stable_resolve hb args.source.directory).bind hb
  intro r b' hb' _
  cases r with
  | error e => exact Program.stable_pure hb' trivial
  | ok source =>
    apply (Program.stable_resolve hb' args.target.directory).bind hb'
    intro r b'' hb'' _
    cases r with
    | error e => exact Program.stable_pure hb'' trivial
    | ok target =>
      refine (Program.stable_of_asks_isQuery hb'' (asks_wccOf? source)).bind hb''
        fun sourceBefore b₃ hb₃ _ => ?_
      refine (Program.stable_of_asks_isQuery hb₃ (asks_wccOf? target)).bind hb₃
        fun targetBefore b₄ hb₄ _ => ?_
      apply (stable_moveEntry hb₄ _ _).bind hb₄
      intro moved b₅ hb₅ _
      refine (Program.stable_of_asks_isQuery hb₅ (asks_wccSince sourceBefore source)).bind hb₅
        fun sourceWcc b₆ hb₆ _ => ?_
      cases moved <;> exact stable_query_pure hb₆ (asks_wccSince targetBefore target) _

end NfsServer.Nfs
