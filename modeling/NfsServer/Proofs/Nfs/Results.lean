import NfsServer.Proofs.Listing.Reply
import NfsServer.Proofs.Nfs.Failures
import NfsServer.Proofs.Nfs.Limits

/-!
# What results carry

Results of variable length are bounded: every handle in them has been issued by the table, names and
link targets are as short as the store has them, and data is no more than one call may read.
-/

namespace NfsServer

namespace ReceivedPage

/-- Names in the pages of a store that has only short names are short. -/
theorem IsPageOf.length_le_of_mem {page : ReceivedPage} {store : Memory} {l : Location}
    {cookie : UInt64} {verifier : FixedBytes 8} (h : page.IsPageOf store l cookie verifier)
    (hstore : store.WithinLimits) {e : Bytes × UInt64} (he : e ∈ page.entries) :
    e.1.length ≤ Nfs.maxNameLength := by
  rw [h.entries_eq] at he
  have hnumbered : e ∈ Listing.numbered (store.childNames l) :=
    List.mem_of_mem_drop (List.mem_of_mem_take he)
  have hname := List.mem_map_of_mem (f := Prod.fst) hnumbered
  rw [Listing.fst_numbered, List.mem_cons, List.mem_cons] at hname
  rcases hname with hdot | hdots | hchild
  · rw [hdot]
    decide
  · rw [hdots]
    decide
  · obtain ⟨o, ho⟩ := Option.isSome_iff_exists.1 ((h.mem_iff _).1 hchild)
    exact (hstore _ (Memory.mem_of_find? ho)).1 _ (Location.fileName?_append_name l _)

end ReceivedPage

namespace Nfs

open Program

variable {now : Time} {b : Backend Memory}

/-! ## Queries -/

theorem ends_readLink (hb : b.handles.WellFormed) (hstore : b.store.WithinLimits)
    (object : FileHandle) :
    (readLink object).Ends now b fun o _ =>
      ∀ r, o = .ok r → r.target.length ≤ maxRecordLength := by
  apply ends_resolve_then hb
  intro r b' _ hsame
  cases r with
  | error e => exact ends_pure fun _ h => nomatch h
  | ok path =>
    refine ends_query_then (asks_attributesOf? path) fun attributes _ => ?_
    refine ends_query_then (asks_attempt (by trivial)) fun target htarget => ?_
    cases target with
    | error e => exact ends_pure fun _ h => nomatch h
    | ok target =>
      refine ends_pure fun r h => ?_
      obtain rfl := Outcome.ok.inj h
      have hread : b'.store.readLink path.location = .ok target := report_eq_ok htarget.symm
      rw [hsame.store] at hread
      exact hstore.length_le_of_readLink hread

/-- No more data is read than was asked for. -/
theorem length_le_of_readData {path : Path} {offset : UInt64} {count : UInt32} {chunk : Chunk}
    (h : ((readData path offset count).run now b).1 = .ok chunk) :
    chunk.data.length ≤ count.toNat := by
  unfold readData at h
  obtain ⟨m, -, h⟩ := run_bind_eq_ok (asks_attempt (by trivial)) h fun _ => rfl
  dsimp only at h
  split at h
  · cases h
  · exact Memory.length_le_of_read (report_eq_ok h)

theorem ends_read (hb : b.handles.WellFormed) (args : ReadArgs) :
    (read args).Ends now b fun o _ => ∀ r, o = .ok r → r.data.length ≤ maxTransfer.toNat := by
  apply ends_resolve_then hb
  intro r b' _ hsame
  cases r with
  | error e => exact ends_pure fun _ h => nomatch h
  | ok path =>
    refine ends_query_then (asks_readData path args.offset _) fun result hresult => ?_
    refine ends_query_then (asks_attributesOf? path) fun attributes _ => ?_
    cases result with
    | error e => exact ends_pure fun _ h => nomatch h
    | ok chunk =>
      refine ends_pure fun r h => ?_
      obtain rfl := Outcome.ok.inj h
      refine (length_le_of_readData hresult.symm).trans ?_
      exact UInt32.le_iff_toNat_le.1 Std.min_le_right

/-! ## New entries -/

/-- A new object has the handle that the client gets. -/
theorem ends_addEntry_issued (hb : b.handles.WellFormed) (entry : EntryName)
    (make : Path → Program (Except NfsError Metadata)) :
    (addEntry entry make).Ends now b fun o b' =>
      ∀ r, o = .ok r → ∀ h ∈ r.object, b'.handles.HasIssued h := by
  refine (ends_addEntry hb entry make).mono fun o b' hadded r hr h hh => ?_
  cases hadded with
  | refused => cases hr
  | failed => cases hr
  | @made _ _ path b₁ b₂ hsame _ hmake =>
    obtain rfl := Outcome.ok.inj hr
    obtain rfl := Option.some.inj hh
    have hwell := ((make path).handles_run now b₁ (hsame.wellFormed hb)).1
    rw [hmake] at hwell
    exact hwell.hasIssued_issue path

/-- Special files are never made. -/
theorem ends_makeNode (hb : b.handles.WellFormed) (args : MakeNodeArgs) :
    (makeNode args).Ends now b fun o _ => o.IsFailed := by
  apply ends_resolve_then hb
  intro r b' _ _
  cases r with
  | error e => exact ends_pure Status.noConfusion
  | ok directory =>
    exact ends_query_then (asks_attributesOf? directory) fun _ _ => ends_pure Status.noConfusion

/-! ## Directories -/

/-- All handles in entries have been issued. -/
def HandlesIssued (entries : List EntryPlus) (b : Backend Memory) : Prop :=
  ∀ e ∈ entries, ∀ h ∈ e.handle, b.handles.HasIssued h

theorem handlesIssued_of_none {entries : List EntryPlus} (h : ∀ e ∈ entries, e.handle = none) :
    HandlesIssued entries b := by
  intro e he handle hhandle
  rw [h e he] at hhandle
  cases hhandle

theorem ends_attachHandles (hb : b.handles.WellFormed) {entries : List EntryPlus}
    (hentries : ∀ e ∈ entries, e.handle = none) (listed : List ListedEntry) :
    (attachHandles entries listed).Ends now b HandlesIssued := by
  induction entries generalizing b listed with
  | nil => exact ends_pure (handlesIssued_of_none hentries)
  | cons entry entries ih =>
    cases listed with
    | nil => exact ends_pure (handlesIssued_of_none hentries)
    | cons first rest =>
      -- The first handle has been issued before the others are, and it stays so.
      refine ends_issue_then hb fun handle b' hb' hissued => ?_
      have hrest := ih hb' (fun e he => hentries e (List.mem_cons_of_mem _ he)) rest
      refine (hrest.and_later hb').bind fun others b'' hothers => ends_pure ?_
      refine List.forall_mem_cons.2 ⟨fun h hh => ?_, hothers.1⟩
      obtain rfl := Option.some.inj hh
      exact hissued.later hothers.2

theorem ends_readDirectory (hstore : b.store.WithinLimits) (args : ReadDirectoryArgs) :
    (readDirectory args).Ends now b fun o _ =>
      ∀ page, o = .ok page → ∀ e ∈ page.entries, e.name.length ≤ maxNameLength := by
  intro page hpage e he
  obtain ⟨path, -, hpageOf⟩ := ReceivedPage.isPageOf_readDirectory hpage
  exact hpageOf.length_le_of_mem hstore (List.mem_map_of_mem (f := ReceivedPage.plainLabel) he)

theorem ends_readDirectoryPlus_issued (hb : b.handles.WellFormed) (args : ReadDirectoryPlusArgs) :
    (readDirectoryPlus args).Ends now b fun o b' =>
      ∀ page, o = .ok page → HandlesIssued page.entries b' := by
  intro page hpage
  obtain ⟨path, m, listing, start, q, -, -, -, -, hq, rfl, hb'⟩ := run_readDirectoryPlus hpage
  have hentries : ∀ e ∈ q.entries, e.handle = none := by
    rw [(Page.of_ok hq).1]
    intro e he
    obtain ⟨_, -, rfl⟩ := List.mem_map.1 he
    rfl
  rw [hb']
  exact ends_attachHandles ((Backend.same_resolved hb args.directory).wellFormed hb) hentries _

theorem ends_readDirectoryPlus (hb : b.handles.WellFormed) (hstore : b.store.WithinLimits)
    (args : ReadDirectoryPlusArgs) :
    (readDirectoryPlus args).Ends now b fun o b' => ∀ page, o = .ok page →
      (∀ e ∈ page.entries, e.name.length ≤ maxNameLength) ∧ HandlesIssued page.entries b' := by
  intro page hpage
  obtain ⟨path, -, hpageOf⟩ := ReceivedPage.isPageOf_readDirectoryPlus hpage
  refine ⟨fun e he => ?_, ends_readDirectoryPlus_issued hb args page hpage⟩
  exact hpageOf.length_le_of_mem hstore (List.mem_map_of_mem (f := ReceivedPage.fullLabel) he)

end Nfs

end NfsServer
