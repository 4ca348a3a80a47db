import NfsServer.Proofs.Nfs.Failures
import NfsServer.Proofs.Nfs.Wcc
import NfsServer.Proofs.Store.Entries

/-!
# Procedures that make or remove one entry

Where a procedure that makes an object succeeds, the store has exactly one object more
(`ends_addEntry_gains`), and where one that removes an object succeeds, it has exactly one object
less (`ends_dropEntry_loses`).  Both go by the one entry that the client names; what is special
about a procedure is the request that it makes at the place of that entry (`MakesNew`, `Takes`).
-/

namespace NfsServer.Nfs

open Program

variable {now : Time} {b : Backend Memory} {p : Path} {o : Object}

/-! ## Making -/

/-- If the request succeeds, there is a new object at the place. -/
def MakesNew (now : Time) (m : Memory) (place : Location) (mode : UInt32) (contents : Contents)
    (r : StoreRequest (Except StoreError Metadata)) : Prop :=
  ∀ a, (Memory.perform now r m).1 = .ok a →
    let o := m.newObject now mode contents
    a = o.metadata ∧ m.Gains now place o (Memory.perform now r m).2

theorem makesNew_create {m : Memory} (hvacant : m.find? p.location = none) (mode : UInt32)
    (exclusive : Bool) :
    MakesNew now m p.location mode (.file []) (.create p mode exclusive) := by
  intro a ha
  obtain ⟨m', hcreate, hm'⟩ := Memory.answer_eq_ok ha
  rw [show (Memory.perform now (.create p mode exclusive) m).2 = m' from hm']
  exact Memory.gains_of_create hcreate hvacant

theorem makesNew_makeDirectory (now : Time) (m : Memory) (p : Path) (mode : UInt32) :
    MakesNew now m p.location mode .directory (.makeDirectory p mode) := by
  intro a ha
  obtain ⟨m', hadd, hm'⟩ := Memory.answer_eq_ok ha
  rw [show (Memory.perform now (.makeDirectory p mode) m).2 = m' from hm']
  exact Memory.gains_of_addNew hadd

theorem makesNew_symlink (now : Time) (m : Memory) (p : Path) (target : Bytes) :
    MakesNew now m p.location 0o777 (.symlink target) (.symlink p target) := by
  intro a ha
  obtain ⟨m', hadd, hm'⟩ := Memory.answer_eq_ok ha
  rw [show (Memory.perform now (.symlink p target) m).2 = m' from hm']
  exact Memory.gains_of_addNew hadd

section Making

variable {mode : UInt32} {contents : Contents}

theorem ends_attempt_gains {r : StoreRequest (Except StoreError Metadata)}
    (hr : MakesNew now b.store p.location mode contents r) :
    (attempt r).Ends now b fun a b' => ∀ m, a = .ok m →
      let o := b.store.newObject now mode contents
      m = o.metadata ∧ b.store.Gains now p.location o b'.store := by
  unfold Ends
  rw [run_attempt]
  exact fun m hm => hr m (report_eq_ok hm)

theorem ends_applyChanges (ho : b.store.find? p.location = some o) (changes : AttributeChanges) :
    (applyChanges p o.metadata changes).Ends now b fun a b' => ∀ m, a = .ok m →
      ∃ o', Memory.Applied now changes b.store p.location o o' b'.store ∧ m = o'.metadata := by
  unfold applyChanges
  split
  · next hempty =>
    rintro m ⟨⟩
    exact ⟨o, .nothing hempty, rfl⟩
  · next hsome =>
    unfold Ends
    rw [run_attempt]
    intro m hm
    obtain ⟨m', hset, hm'⟩ := Memory.answer_eq_ok (report_eq_ok hm)
    obtain ⟨o₁, o', ho₁, htakes, rfl, rfl⟩ := Memory.takesChanges_of_setAttributes hset
    obtain rfl := Option.some.inj (ho.symm.trans ho₁)
    refine ⟨o', ?_, rfl⟩
    rw [show (Memory.perform now (.setAttributes p changes) b.store).2 = _ from hm']
    exact .taken (Bool.eq_false_iff.2 hsome) htakes

/-- A new object that is changed right after it has been made. -/
theorem ends_makeThenChange_gains {r : Path → StoreRequest (Except StoreError Metadata)}
    (hr : MakesNew now b.store p.location mode contents (r p)) (changes : AttributeChanges) :
    (makeThenChange r changes p).Ends now b fun a b' => ∀ m, a = .ok m →
      ∃ m₁ o', b.store.Gains now p.location o' b'.store ∧
        Memory.Applied now changes m₁ p.location (b.store.newObject now mode contents) o'
          b'.store := by
  refine (ends_attempt_gains hr).bind fun a b' hmade => ?_
  cases a with
  | error e => exact ends_pure fun m hm => nomatch hm
  | ok a =>
    obtain ⟨rfl, hgains⟩ := hmade a rfl
    refine (ends_applyChanges hgains.here changes).mono fun a b'' happlied m hm => ?_
    obtain ⟨o', happlied, -⟩ := happlied m hm
    exact ⟨b'.store, o', hgains.applied happlied, happlied⟩

/-- Only accepted names get entries. -/
theorem ends_addEntry_named (hb : b.handles.WellFormed) (entry : EntryName)
    (make : Path → Program (Except NfsError Metadata)) :
    (addEntry entry make).Ends now b fun r _ => ∀ result, r = .ok result →
      IsAccepted entry.name := by
  refine (ends_addEntry hb entry make).mono fun r b' hadded result hr => ?_
  cases hadded with
  | refused | failed => cases hr
  | made _ hentry =>
    obtain ⟨directory, -, hpath⟩ := hentry.named
    exact (entryPath_eq_ok_iff.1 hpath).1

/-- The entry that a procedure has made is the one that the client has named. -/
theorem ends_addEntry_gains (hb : b.handles.WellFormed) {entry : EntryName}
    (hobject : b.StandsFor entry.directory p o)
    {make : Path → Program (Except NfsError Metadata)} {contents : Contents}
    (hmake : ∀ path (b' : Backend Memory), b'.store = b.store →
      path.location = p.location ++ [.name entry.name] →
      (make path).Ends now b' fun a b'' => ∀ m, a = .ok m →
        ∃ x, b'.store.Gains now path.location x b''.store ∧ x.contents = contents) :
    (addEntry entry make).Ends now b fun r b' => ∀ result, r = .ok result →
      ∃ x, b.store.Gains now (p.location ++ [.name entry.name]) x b'.store ∧
        x.contents = contents := by
  refine (ends_addEntry hb entry make).mono fun r b' hadded result hr => ?_
  cases hadded with
  | refused | failed => cases hr
  | @made m _ path b₁ _ hsame hentry hrun =>
    obtain ⟨directory, hdirectory, hpath⟩ := hentry.named
    obtain rfl := Except.ok.inj (hobject.resolve.symm.trans hdirectory)
    obtain ⟨hname, rfl⟩ := entryPath_eq_ok_iff.1 hpath
    have hplace := p.location_child hname.isEntryName
    have hends := hmake _ b₁ hsame.store hplace
    unfold Ends at hends
    rw [hrun, hsame.store, hplace] at hends
    exact hends m rfl

theorem ends_create_gains (hb : b.handles.WellFormed) {args : CreateArgs}
    (hobject : b.StandsFor args.entry.directory p o)
    (hvacant : b.store.find? (p.location ++ [.name args.entry.name]) = none) :
    (create now args).Ends now b fun r b' => ∀ result, r = .ok result →
      ∃ x, b.store.Gains now (p.location ++ [.name args.entry.name]) x b'.store ∧
        x.contents = .file (List.replicate (args.how.requested.size.getD 0).toNat 0) := by
  refine ends_addEntry_gains hb hobject fun path b' hstore hplace => ?_
  rw [← hplace, ← hstore] at hvacant
  have hnew : MakesNew now b'.store path.location _ _ _ :=
    makesNew_create hvacant (args.how.requested.mode.getD defaultFileMode) args.how.isExclusive
  refine (ends_makeThenChange_gains (r := fun path => .create path _ _) hnew
    (args.how.requested.toChanges now)).mono fun a b'' hmade m hm => ?_
  obtain ⟨m₁, x, hgains, happlied⟩ := hmade m hm
  refine ⟨x, hgains, (happlied.contents_of_nil rfl).trans ?_⟩
  rw [AttributeRequest.toChanges]
  cases args.how.requested.size <;> rfl

theorem ends_makeDirectory_gains (hb : b.handles.WellFormed) {args : MakeDirectoryArgs}
    (hobject : b.StandsFor args.entry.directory p o) :
    (makeDirectory now args).Ends now b fun r b' => ∀ result, r = .ok result →
      ∃ x, b.store.Gains now (p.location ++ [.name args.entry.name]) x b'.store ∧
        x.contents = .directory := by
  refine ends_addEntry_gains hb hobject fun path b' _ _ => ?_
  have hnew := makesNew_makeDirectory now b'.store path
    (args.requested.mode.getD defaultDirectoryMode)
  refine (ends_makeThenChange_gains (r := fun path => .makeDirectory path _) hnew _).mono
    fun a b'' hmade m hm => ?_
  obtain ⟨m₁, x, hgains, happlied⟩ := hmade m hm
  exact ⟨x, hgains, happlied.contents_eq fun _ => Contents.noConfusion⟩

theorem ends_makeSymlink_gains (hb : b.handles.WellFormed) {args : SymlinkArgs}
    (hobject : b.StandsFor args.entry.directory p o) :
    (makeSymlink args).Ends now b fun r b' => ∀ result, r = .ok result →
      ∃ x, b.store.Gains now (p.location ++ [.name args.entry.name]) x b'.store ∧
        x.contents = .symlink args.contents.target := by
  refine ends_addEntry_gains hb hobject fun path b' _ _ => ?_
  refine (ends_attempt_gains (makesNew_symlink now b'.store path _)).mono
    fun a b'' hmade m hm => ?_
  obtain ⟨-, hgains⟩ := hmade m hm
  exact ⟨_, hgains, rfl⟩

end Making

/-! ## Removing -/

/-- If the request succeeds, an object with a property is gone from the place. -/
def Takes (now : Time) (m : Memory) (place : Location) (P : Object → Prop)
    (r : StoreRequest (Except StoreError Unit)) : Prop :=
  (Memory.perform now r m).1 = .ok () →
    ∃ o, m.Loses now place o (Memory.perform now r m).2 ∧ P o

theorem takes_removeFile {m : Memory} {above : Location}
    (habove : p.location.parent? = some above) :
    Takes now m p.location (fun o => o.isDirectory = false) (.removeFile p) :=
  fun h => Memory.loses_of_removeFile (Memory.answerUnit_eq_ok h) habove

theorem takes_removeDirectory {m : Memory} (hm : m.IsTree) :
    Takes now m p.location (fun o => o.isDirectory = true ∧ m.IsEmptyAt p.location)
      (.removeDirectory p) :=
  fun h => Memory.loses_of_removeDirectory hm (Memory.answerUnit_eq_ok h)

section Removing

variable {entry : EntryName} {target : Path → Bytes → Except NfsError Path}
  {removal : Path → StoreRequest (Except StoreError Unit)}
  (htarget : ∀ directory path, target directory entry.name = .ok path →
    entryPath directory entry.name = .ok path)

/-- Where something has been removed, there was a path, and the request has succeeded. -/
theorem ends_dropAt (path? : Except NfsError Path) :
    (dropAt path? removal).Ends now b fun a b' => a = .ok () → ∃ path, path? = .ok path ∧
      (Memory.perform now (removal path) b.store).1 = .ok () ∧
        b'.store = (Memory.perform now (removal path) b.store).2 := by
  cases path? with
  | error e => exact ends_pure fun h => nomatch h
  | ok path =>
    unfold Ends dropAt
    dsimp only
    rw [run_bind, run_attempt]
    cases hremoved : (Memory.perform now (removal path) b.store).1 with
    | error e => exact fun h => nomatch h
    | ok u => exact fun _ => ⟨path, rfl, hremoved, rfl⟩

include htarget

/-- The entry that a procedure has removed is the one that the client has named. -/
theorem ends_dropEntry_loses (hwrite : b.store.isReadOnly = false)
    (hobject : b.StandsFor entry.directory p o) {P : Object → Prop}
    (hremoval : ∀ path, path.location = p.location ++ [.name entry.name] →
      Takes now b.store path.location P (removal path)) :
    (dropEntry entry target removal).Ends now b fun r b' => ∀ wcc, r = .ok wcc →
      IsAccepted entry.name ∧
        ∃ x, b.store.Loses now (p.location ++ [.name entry.name]) x b'.store ∧ P x := by
  apply ends_opened hwrite hobject.resolve
  dsimp only
  refine ends_query_then (asks_wccOf? p) fun before _ => ?_
  refine (ends_dropAt (target p entry.name)).bind fun removed b₁ hremoved => ?_
  refine ends_query_then (asks_wccSince before p) fun wcc _ => ?_
  cases removed with
  | error e => exact ends_pure fun _ h => nomatch h
  | ok u =>
    refine ends_pure fun _ _ => ?_
    obtain ⟨path, hpath, hok, hstore⟩ := hremoved rfl
    obtain ⟨hname, rfl⟩ := entryPath_eq_ok_iff.1 (htarget p path hpath)
    have hplace := p.location_child hname.isEntryName
    have htakes := hremoval _ hplace hok
    rw [hplace] at htakes
    rw [hstore]
    exact ⟨hname, htakes⟩

end Removing

theorem ends_remove_loses (hwrite : b.store.isReadOnly = false) {entry : EntryName}
    (hobject : b.StandsFor entry.directory p o) :
    (remove entry).Ends now b fun r b' => ∀ wcc, r = .ok wcc → IsAccepted entry.name ∧
      ∃ x, b.store.Loses now (p.location ++ [.name entry.name]) x b'.store ∧
        x.isDirectory = false := by
  refine ends_dropEntry_loses (fun _ _ => id) hwrite hobject fun path hplace => ?_
  have habove : path.location.parent? = some p.location := by
    rw [hplace]
    exact Location.parent?_append_singleton _ Component.noConfusion
  exact takes_removeFile habove

theorem ends_removeDirectory_loses (htree : b.store.IsTree) (hwrite : b.store.isReadOnly = false)
    {entry : EntryName} (hobject : b.StandsFor entry.directory p o) :
    (removeDirectory entry).Ends now b fun r b' => ∀ wcc, r = .ok wcc → IsAccepted entry.name ∧
      ∃ x, b.store.Loses now (p.location ++ [.name entry.name]) x b'.store ∧
        x.isDirectory = true ∧ b.store.IsEmptyAt (p.location ++ [.name entry.name]) := by
  refine ends_dropEntry_loses (fun _ _ => entryPath_of_removalPath) hwrite hobject
    fun path hplace => ?_
  rw [← hplace]
  exact takes_removeDirectory htree

end NfsServer.Nfs
