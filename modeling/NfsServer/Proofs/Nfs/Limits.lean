import NfsServer.Proofs.Nfs.Changes
import NfsServer.Proofs.Store.Names

/-!
# Procedures bring only names and link targets within limits

Every name that a procedure gives to the store has been accepted by `entryPath`
(`Nfs.IsEntryPath`), and every link target has come in a message (`asks_makeSymlink`).  So a program
keeps what a store keeps when it is asked for nothing else (`Program.Asks.store_keeps`).
-/

namespace NfsServer

/-- A request to the store is an admitted one. -/
def Request.IsAdmitted {α : Type} : Request α → Prop
  | .store r => r.IsAdmitted
  | _ => True

theorem Request.KeepsStore.isAdmitted {α : Type} {r : Request α} (h : r.KeepsStore) :
    r.IsAdmitted := by
  cases r with
  | store r => exact StoreRequest.IsQuery.isAdmitted h
  | resolve | issue | forgetPath | announce => trivial

theorem Request.IsLook.isAdmitted {α : Type} {r : Request α} (h : r.IsLook) : r.IsAdmitted :=
  h.keepsStore.isAdmitted

theorem Request.IsAdmitted.store_keeps {σ α : Type} [Store σ] {Q : σ → Prop} (hQ : Store.Keeps Q)
    {r : Request α} (hr : r.IsAdmitted) (now : Time) {b : Backend σ} (h : Q b.store) :
    Q (b.perform now r).2.store := by
  cases r with
  | store r => exact hQ now hr h
  | resolve | issue | forgetPath | announce => exact h

namespace Program

variable {α β : Type} {now : Time}

theorem Asks.isAdmitted {p : Program α} (hp : p.Asks Request.IsQuery) :
    p.Asks Request.IsAdmitted :=
  hp.query Request.IsLook.isAdmitted

/-- A program that makes only admitted requests keeps what these keep. -/
theorem Asks.store_keeps {σ : Type} [Store σ] {Q : σ → Prop} (hQ : Store.Keeps Q) {p : Program α}
    (hp : p.Asks Request.IsAdmitted) (now : Time) {b : Backend σ} (h : Q b.store) :
    Q (p.run now b).2.store := by
  induction p generalizing b with
  | done a => exact h
  | ask r next ih => exact ih (b.perform now r).1 (hp.2 _) (hp.1.store_keeps hQ now h)

end Program

namespace Nfs

open Program

variable {α : Type} {now : Time}

/-! ## New entries -/

theorem asks_makeAt {path : Except NfsError Path}
    {make : Path → Program (Except NfsError Metadata)}
    (hmake : ∀ p, path = .ok p → (make p).Asks Request.IsAdmitted) :
    (makeAt path make).Asks Request.IsAdmitted := by
  cases path with
  | error e => exact asks_pure _
  | ok path =>
    refine (hmake path rfl).bind fun m => ?_
    cases m <;> exact asks_pure _

theorem asks_addEntry (entry : EntryName) {make : Path → Program (Except NfsError Metadata)}
    (hmake : ∀ path : Path, IsEntryPath path → (make path).Asks Request.IsAdmitted) :
    (addEntry entry make).Asks Request.IsAdmitted := by
  refine asks_unless_readOnly Request.IsLook.isAdmitted _ ?_
  refine (asks_request trivial).bind fun r => ?_
  cases r with
  | error e => exact asks_pure _
  | ok directory =>
    refine (asks_wccOf? directory).isAdmitted.bind fun before => ?_
    refine (asks_makeAt fun p hp => hmake p ⟨_, _, hp⟩).bind fun made => ?_
    refine (asks_wccSince before directory).isAdmitted.bind fun wcc => ?_
    cases made with
    | error e => exact asks_pure _
    | ok made => exact (asks_request trivial).bind fun _ => asks_pure _

theorem asks_create (args : CreateArgs) : (create now args).Asks Request.IsAdmitted :=
  asks_addEntry args.entry fun _ hpath =>
    asks_makeThenChange (r := fun path => .create path _ _) hpath trivial

theorem asks_makeDirectory (args : MakeDirectoryArgs) :
    (makeDirectory now args).Asks Request.IsAdmitted :=
  asks_addEntry args.entry fun _ hpath =>
    asks_makeThenChange (r := fun path => .makeDirectory path _) hpath trivial

theorem asks_makeSymlink {args : SymlinkArgs}
    (htarget : args.contents.target.length ≤ maxRecordLength) :
    (makeSymlink args).Asks Request.IsAdmitted :=
  asks_addEntry args.entry fun _ hpath => asks_attempt (by exact ⟨hpath, htarget⟩)

/-! ## Entries that go -/

theorem asks_dropAt (path : Except NfsError Path)
    {removal : Path → StoreRequest (Except StoreError Unit)}
    (hremoval : ∀ p, (removal p).IsAdmitted) :
    (dropAt path removal).Asks Request.IsAdmitted := by
  cases path with
  | error e => exact asks_pure _
  | ok path =>
    refine (asks_attempt (hremoval path)).bind fun removed => ?_
    cases removed with
    | error e => exact asks_pure _
    | ok u => exact (asks_request trivial).bind fun _ => asks_pure _

theorem asks_dropEntry (entry : EntryName) (target : Path → Bytes → Except NfsError Path)
    {removal : Path → StoreRequest (Except StoreError Unit)}
    (hremoval : ∀ p, (removal p).IsAdmitted) :
    (dropEntry entry target removal).Asks Request.IsAdmitted := by
  refine asks_unless_readOnly Request.IsLook.isAdmitted _ ?_
  refine (asks_request trivial).bind fun r => ?_
  cases r with
  | error e => exact asks_pure _
  | ok directory =>
    refine (asks_wccOf? directory).isAdmitted.bind fun before => ?_
    refine (asks_dropAt _ hremoval).bind fun removed => ?_
    refine (asks_wccSince before directory).isAdmitted.bind fun wcc => ?_
    cases removed <;> exact asks_pure _

theorem asks_moveEntry (source : Except NfsError Path) {target : Except NfsError Path}
    (htarget : ∀ p, target = .ok p → IsEntryPath p) :
    (moveEntry source target).Asks Request.IsAdmitted := by
  cases source with
  | error e => exact asks_pure _
  | ok source =>
    cases target with
    | error e => exact asks_pure _
    | ok target =>
      refine (asks_attempt (by exact htarget target rfl)).bind fun moved => ?_
      cases moved with
      | error e => exact asks_pure _
      | ok u =>
        refine (asks_request trivial).bind fun _ => ?_
        exact (asks_request trivial).bind fun _ => asks_pure _

theorem asks_rename (args : RenameArgs) : (rename args).Asks Request.IsAdmitted := by
  refine asks_unless_readOnly Request.IsLook.isAdmitted _ ?_
  refine (asks_request trivial).bind fun r => ?_
  cases r with
  | error e => exact asks_pure _
  | ok source =>
    refine (asks_request trivial).bind fun r => ?_
    cases r with
    | error e => exact asks_pure _
    | ok target =>
      refine (asks_wccOf? source).isAdmitted.bind fun sourceBefore => ?_
      refine (asks_wccOf? target).isAdmitted.bind fun targetBefore => ?_
      refine (asks_moveEntry _ fun p hp => ⟨_, _, hp⟩).bind fun moved => ?_
      refine (asks_wccSince sourceBefore source).isAdmitted.bind fun sourceWcc => ?_
      refine (asks_wccSince targetBefore target).isAdmitted.bind fun targetWcc => ?_
      cases moved <;> exact asks_pure _

end Nfs

end NfsServer
