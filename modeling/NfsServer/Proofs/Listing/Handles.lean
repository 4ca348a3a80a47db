import NfsServer.Proofs.Handle.Recency
import NfsServer.Proofs.Handle.Stability
import NfsServer.Proofs.Listing.Reply

/-!
# Handles in pages

The handles of a page are issued one after the other by a cache that keeps a bounded number of them,
so that later ones may take the room of earlier ones.  Nothing is forgotten in between; hence a
handle in a page is alive behind the call exactly if fewer different handles than there is room for
stand behind its last entry (`Server.entry_of_page`).  A handle that is alive leads to its entry and
gets the attributes in it, and all others are stale (`Server.handles_of_page`).
-/

namespace NfsServer

namespace Nfs

variable {now : Time} {store : Memory} {events : List MountEvent} {c : HandleCache}
  {entries older newer : List EntryPlus} {listed : List ListedEntry} {e : EntryPlus}

/-- The first entry gets its handle, and then the others get theirs. -/
theorem run_attachHandles_cons (c : HandleCache) (entry : EntryPlus) (entries : List EntryPlus)
    (x : ListedEntry) (rest : List ListedEntry) :
    (attachHandles (entry :: entries) (x :: rest)).run now ⟨store, .cached c, events⟩ =
      let r := (attachHandles entries rest).run now ⟨store, .cached (c.issue x.path).2, events⟩
      ({ entry with handle := some (c.issue x.path).1 } :: r.1, r.2) := by
  have hissue : (Program.issue x.path).run now ⟨store, .cached c, events⟩ =
      ((c.issue x.path).1, (⟨store, .cached (c.issue x.path).2, events⟩ : Backend Memory)) := rfl
  rw [attachHandles, Program.run_bind, Program.run_bind, hissue]
  rfl

/-- Handles are issued for the paths of as many listed entries as a page has. -/
theorem run_attachHandles_cached (c : HandleCache) (hlength : entries.length ≤ listed.length) :
    let calls := ((listed.take entries.length).map ListedEntry.path).map CacheCall.issue
    let r := (attachHandles entries listed).run now ⟨store, .cached c, events⟩
    r.1.map EntryPlus.handle = (c.uses calls).map some ∧
      r.2 = ⟨store, .cached (c.after calls), events⟩ := by
  induction entries generalizing listed c with
  | nil => exact ⟨rfl, rfl⟩
  | cons entry entries ih =>
    cases listed with
    | nil => simp at hlength
    | cons x rest =>
      obtain ⟨hhandles, hleft⟩ := ih (c.issue x.path).2 (Nat.le_of_succ_le_succ hlength)
      rw [run_attachHandles_cons]
      exact ⟨congrArg (some (c.issue x.path).1 :: ·) hhandles, hleft⟩

/-- How an entry of a page got its handle, and which handles were issued behind it. -/
theorem split_attachHandles (hc : c.WellFormed) (hlength : entries.length ≤ listed.length)
    (hsplit : ((attachHandles entries listed).run now ⟨store, .cached c, events⟩).1 =
      older ++ e :: newer) :
    ∃ c', c'.WellFormed ∧ c.Later c' ∧
      ∃ (entry : EntryPlus) (x : ListedEntry) (paths : List Path),
        (entry, x) ∈ entries.zip listed ∧
        e = { entry with handle := some (c'.issue x.path).1 } ∧
        newer.map EntryPlus.handle = ((c'.issue x.path).2.uses (paths.map .issue)).map some ∧
        ((attachHandles entries listed).run now ⟨store, .cached c, events⟩).2 =
          ⟨store, .cached ((c'.issue x.path).2.after (paths.map .issue)), events⟩ := by
  induction entries generalizing listed c older with
  | nil => cases older <;> cases hsplit
  | cons entry entries ih =>
    cases listed with
    | nil => simp at hlength
    | cons x rest =>
      have hlength' : entries.length ≤ rest.length := Nat.le_of_succ_le_succ hlength
      rw [run_attachHandles_cons] at hsplit ⊢
      cases older with
      | nil =>
        obtain ⟨rfl, rfl⟩ := List.cons.inj hsplit
        obtain ⟨hhandles, hleft⟩ := run_attachHandles_cached (c.issue x.path).2 hlength'
        exact ⟨c, hc, .refl c, entry, x, _, by simp, rfl, hhandles, hleft⟩
      | cons first older =>
        obtain ⟨hwell, hlater⟩ := hc.next (.issue x.path)
        obtain ⟨c', hc', hlater', entry', x', paths, hmem, hrest⟩ :=
          ih hwell hlength' (List.cons.inj hsplit).2
        exact ⟨c', hc', hlater.trans hlater', entry', x', paths, by simp [hmem], hrest⟩

/-- What is behind an entry of a page: an object that the store has at the path of its name, whose
attributes are in the entry, and for which a handle was issued before those of later entries. -/
theorem split_readDirectoryPlus (hc : c.WellFormed) (hstore : store.IsTree)
    {args : ReadDirectoryPlusArgs} {page : DirectoryPage EntryPlus}
    (hpage : ((readDirectoryPlus args).run now ⟨store, .cached c, events⟩).1 = .ok page) :
    ∃ directory, ((HandleTable.cached c).resolve args.directory).1 = .ok directory ∧
      ∀ older e newer, page.entries = older ++ e :: newer → ∃ c', c'.WellFormed ∧ c.Later c' ∧
        ∃ (x : ListedEntry) (paths : List Path), x.path = Listing.pathOf directory e.name ∧
          store.stat x.path.location = .ok x.metadata ∧
          e.attributes = some x.attributes ∧ e.fileId = x.fileId ∧
          e.handle = some (c'.issue x.path).1 ∧
          newer.map EntryPlus.handle = ((c'.issue x.path).2.uses (paths.map .issue)).map some ∧
          ((readDirectoryPlus args).run now ⟨store, .cached c, events⟩).2 =
            ⟨store, .cached ((c'.issue x.path).2.after (paths.map .issue)), events⟩ := by
  obtain ⟨directory, m, listing, start, q, hpath, hstat, hread, -, hq, rfl, hleft⟩ :=
    run_readDirectoryPlus hpage
  have hresolved : Backend.resolved ⟨store, .cached c, events⟩ args.directory =
      ⟨store, .cached (c.resolve args.directory).2, events⟩ := by
    rw [Backend.resolved, HandleTable.resolve_cached]
  obtain ⟨hwell, hlater, -⟩ := hc.resolve args.directory
  obtain ⟨hentries, hlength, -, -⟩ := Page.of_ok hq
  rw [hresolved] at hread
  refine ⟨directory, hpath, fun older e newer hsplit => ?_⟩
  dsimp only at hsplit
  rw [hresolved] at hsplit hleft
  have hlength' : q.entries.length ≤ (listing.entries.drop start).length := by
    rwa [List.length_drop]
  obtain ⟨c', hc', hlater', entry, x, paths, hmem, rfl, hnewer, hfinal⟩ :=
    split_attachHandles hwell hlength' hsplit
  obtain ⟨i, hi⟩ := List.mem_iff_getElem?.1 hmem
  obtain ⟨hentry, hx⟩ := List.getElem?_zip_eq_some.1 hi
  -- The entry and the listed one stand at the same index.
  have hfull : ∃ cookie, entry = Page.fullEntry x cookie := by
    have hlt : i < q.entries.length := (List.getElem?_eq_some_iff.1 hentry).1
    rw [hentries, List.getElem?_map, List.getElem?_take_of_lt hlt, List.getElem?_zipIdx,
      hx] at hentry
    exact ⟨_, (Option.some.inj hentry).symm⟩
  obtain ⟨cookie, rfl⟩ := hfull
  have hlisted : x ∈ listing.entries := List.mem_of_mem_drop (List.mem_of_getElem? hx)
  exact ⟨c', hc', hlater.trans hlater', x, paths, Listing.path_of_run_read hread x hlisted,
    Listing.stat_of_run_read hstore hread hstat x hlisted, rfl, rfl, rfl, hnewer,
    hleft.trans hfinal⟩

end Nfs

namespace Server

open Rpc

/-- A handle is live when it leads to a path. -/
def IsLive {σ : Type} (s : Server σ) (h : FileHandle) : Prop :=
  ∃ p, (s.backend.handles.resolve h).1 = .ok p

/-- What a call for attributes gets by a handle that leads to an object, and what it gets by one
that leads nowhere. -/
theorem take_getAttributes_of_stat {s : Server Memory} {c : HandleCache}
    (hc : s.backend.handles = .cached c) {h : FileHandle} {x : ListedEntry}
    (hstat : s.backend.store.stat x.path.location = .ok x.metadata)
    (hplace : ∀ p, (c.resolve h).1 = some p → p.SamePlace x.path) {g : Incoming} {xid : UInt32}
    (hg : s.performed? g = some ⟨xid, .nfs .getAttributes, h⟩) :
    (s.IsLive h → (s.take g).1 = attributesReply xid (.ok x.attributes)) ∧
      (¬s.IsLive h → (s.take g).1 = attributesReply xid (.failed .stale ())) := by
  have hanswers : s.Answers g ⟨xid, .nfs .getAttributes, h⟩
      (.results ((Nfs.getAttributes h).run g.clock.performed s.backend).1) :=
    ⟨hg, congrArg Prod.fst (Program.run_responding (Nfs.getAttributes h) _ s.backend)⟩
  have hreply : (s.take g).1 =
      attributesReply xid ((Nfs.getAttributes h).run g.clock.performed s.backend).1 :=
    hanswers.take_eq
  rw [Nfs.run_getAttributes, hc] at hreply
  constructor
  · rintro ⟨p, hp⟩
    rw [hc] at hp
    have hsame : p.location = x.path.location :=
      hplace p (HandleTable.resolve_cached_eq_ok_iff.1 hp)
    rw [hp] at hreply
    dsimp only at hreply
    rw [hsame, hstat] at hreply
    dsimp only at hreply
    rwa [Metadata.attributesAt, hsame] at hreply
  · intro hdead
    have hnone : (c.resolve h).1 = none := by
      refine Option.eq_none_iff_forall_ne_some.2 fun p hp => hdead ⟨p, ?_⟩
      rw [hc]
      exact HandleTable.resolve_cached_eq_ok_iff.2 hp
    rwa [HandleTable.resolve_cached, hnone] at hreply

/-- Behind the last of the entries with a handle, there are fewer handles than in all of them. -/
theorem exists_last_with_handle {entries : List Nfs.EntryPlus} {e : Nfs.EntryPlus}
    {h : FileHandle} (he : e ∈ entries) (hh : e.handle = some h) :
    ∃ older last newer, entries = older ++ last :: newer ∧ last.handle = some h ∧
      h ∉ newer.filterMap Nfs.EntryPlus.handle ∧
      (newer.filterMap Nfs.EntryPlus.handle).toFinset.card <
        (entries.filterMap Nfs.EntryPlus.handle).toFinset.card := by
  have hmem : some h ∈ (entries.map Nfs.EntryPlus.handle).reverse := by
    simpa using ⟨e, he, hh⟩
  obtain ⟨behind, before, hsplit, hnot⟩ := List.eq_append_cons_of_mem hmem
  have hhandles : entries.map Nfs.EntryPlus.handle =
      before.reverse ++ some h :: behind.reverse := by
    simpa using congrArg List.reverse hsplit
  obtain ⟨older, rest, rfl, -, hrest⟩ := List.map_eq_append_iff.1 hhandles
  obtain ⟨last, newer, rfl, hlast, hnewer⟩ := List.map_eq_cons_iff.1 hrest
  have hbehind : h ∉ newer.filterMap Nfs.EntryPlus.handle := by
    intro hin
    obtain ⟨x, hx, hxh⟩ := List.mem_filterMap.1 hin
    refine hnot ?_
    rw [← List.mem_reverse, ← hnewer]
    exact List.mem_map.2 ⟨x, hx, hxh⟩
  have hall : (older ++ last :: newer).filterMap Nfs.EntryPlus.handle =
      older.filterMap Nfs.EntryPlus.handle ++ h :: newer.filterMap Nfs.EntryPlus.handle := by
    simp [hlast]
  refine ⟨older, last, newer, rfl, hlast, hbehind, Finset.card_lt_card ?_⟩
  rw [hall, Finset.ssubset_iff_of_subset fun x hx => by simp_all]
  exact ⟨h, by simp, by simpa using hbehind⟩

/-- What a page has for an entry and what becomes of it: the object at the path of its name, its
attributes, and a handle that is alive behind the call exactly if few others stand behind it. -/
theorem entry_of_page {s : Server Memory} {c : HandleCache} (hc : s.backend.handles = .cached c)
    (hwell : c.WellFormed) (hstore : s.backend.store.IsTree) {m : Incoming} {xid : UInt32}
    {args : Nfs.ReadDirectoryPlusArgs} {page : Nfs.DirectoryPage Nfs.EntryPlus}
    (hpage : s.Answers m ⟨xid, .nfs .readDirectoryPlus, args⟩ (.results (.ok page))) :
    ∃ directory, (s.backend.handles.resolve args.directory).1 = .ok directory ∧
      ∀ older e newer, page.entries = older ++ e :: newer →
        let s' := (s.take m).2
        let behind := newer.filterMap Nfs.EntryPlus.handle
        ∃ (h : FileHandle) (x : ListedEntry) (c' : HandleCache),
          e.handle = some h ∧ e.attributes = some x.attributes ∧ e.fileId = x.fileId ∧
          x.path = Listing.pathOf directory e.name ∧
          s'.backend.store.stat x.path.location = .ok x.metadata ∧
          s'.backend.handles = .cached c' ∧
          (∀ q, (c'.resolve h).1 = some q → q.SamePlace x.path) ∧
          (h ∉ behind → (s'.IsLive h ↔ behind.toFinset.card < c.capacity)) := by
  have hbackend : s.backend = ⟨s.backend.store, .cached c, s.backend.events⟩ := by rw [← hc]
  have hrun := Program.run_responding (Nfs.readDirectoryPlus args) m.clock.performed s.backend
  have hok : ((Nfs.readDirectoryPlus args).run m.clock.performed s.backend).1 = .ok page :=
    Response.results.inj ((congrArg Prod.fst hrun).symm.trans hpage.2)
  have hleft : (s.take m).2.backend =
      ((Nfs.readDirectoryPlus args).run m.clock.performed s.backend).2 := by
    have htake := s.backend_take m
    rw [hpage.1] at htake
    exact htake.trans (congrArg Prod.snd hrun)
  rw [hbackend] at hok hleft
  obtain ⟨directory, hdirectory, hsplit⟩ := Nfs.split_readDirectoryPlus hwell hstore hok
  refine ⟨directory, hc ▸ hdirectory, fun older e newer heq => ?_⟩
  intro s' behind
  obtain ⟨c', hwell', hlater, x, paths, hpath, hstat, hattributes, hfile, hhandle, hnewer,
    hfinal⟩ := hsplit older e newer heq
  obtain ⟨hplace, hfate⟩ := hwell'.fate_of_issued x.path paths
  have hs' : s'.backend = _ := hleft.trans hfinal
  have hbehind : behind = (c'.issue x.path).2.uses (paths.map .issue) := by
    simpa using congrArg (List.filterMap id) hnewer
  refine ⟨(c'.issue x.path).1, x, _, hhandle, hattributes, hfile, hpath, by rw [hs']; exact hstat,
    by rw [hs'], hplace, fun hnot => ?_⟩
  rw [hbehind, ← hlater.capacity_eq, ← hfate (hbehind ▸ hnot), IsLive, hs']
  simp only [HandleTable.resolve_cached_eq_ok_iff]

/-- In a page with handles, each entry shows the attributes of its object.  A handle is live behind
the call exactly if fewer different handles than the cache keeps stand behind the last entry with
it, so that all are live in a page with no more different handles than that.  A live handle leads to
its entry, and the next call for its attributes gets those in the page; any other handle is
stale. -/
theorem handles_of_page (config : ServerConfig) (limit : Nat) (ids : HandleSource) (store : Memory)
    (hstore : store.Built) (before : List Incoming) (m : Incoming) (xid : UInt32)
    (args : Nfs.ReadDirectoryPlusArgs) (page : Nfs.DirectoryPage Nfs.EntryPlus)
    (hpage : ((start config ⟨store, .cached (.empty limit ids), []⟩).after before).Answers m
      ⟨xid, .nfs .readDirectoryPlus, args⟩ (.results (.ok page))) :
    let s := (start config ⟨store, .cached (.empty limit ids), []⟩).after before
    let s' := (s.take m).2
    ((page.entries.filterMap Nfs.EntryPlus.handle).toFinset.card ≤ max limit 1 →
      ∀ e ∈ page.entries, ∃ h, e.handle = some h ∧ s'.IsLive h) ∧
    ∃ directory, (s.backend.handles.resolve args.directory).1 = .ok directory ∧
      ∀ older e newer, page.entries = older ++ e :: newer →
        let behind := newer.filterMap Nfs.EntryPlus.handle
        ∃ h a, e.handle = some h ∧ e.attributes = some a ∧ a.fileId = e.fileId ∧
          (h ∉ behind → (s'.IsLive h ↔ behind.toFinset.card < max limit 1)) ∧
          (∀ p, (s'.backend.handles.resolve h).1 = .ok p →
            p.SamePlace (Listing.pathOf directory e.name)) ∧
          ∀ g xid', s'.performed? g = some ⟨xid', .nfs .getAttributes, h⟩ →
            (s'.IsLive h → (s'.take g).1 = attributesReply xid' (.ok a)) ∧
            (¬s'.IsLive h → (s'.take g).1 = attributesReply xid' (.failed .stale ())) := by
  intro s s'
  have htree : s.backend.store.IsTree := isTree_after hstore.isTree before
  have hempty : (start config ⟨store, .cached (.empty limit ids), []⟩).backend.handles.WellFormed :=
    HandleCache.wellFormed_empty limit ids
  obtain ⟨hwell, hlater⟩ := handles_after hempty before
  obtain ⟨c, hc⟩ := hlater.cached_iff.1 ⟨_, rfl⟩
  rw [hc] at hwell hlater
  have hcapacity : c.capacity = max limit 1 := HandleCache.Later.capacity_eq hlater
  obtain ⟨directory, hdirectory, hentry⟩ := entry_of_page hc hwell htree hpage
  rw [← hcapacity]
  refine ⟨fun hfits e he => ?_, directory, hdirectory, fun older e newer heq => ?_⟩
  · obtain ⟨older, newer, heq⟩ := List.append_of_mem he
    obtain ⟨h, -, -, hhandle, -⟩ := hentry older e newer heq
    -- The last entry with the handle has the fewest others behind it.
    obtain ⟨older, last, newer, heq, hlast, hnot, hfewer⟩ := exists_last_with_handle he hhandle
    obtain ⟨h', -, -, hhandle', -, -, -, -, -, -, hfate⟩ := hentry older last newer heq
    obtain rfl := Option.some.inj (hlast.symm.trans hhandle')
    exact ⟨h, hhandle, (hfate hnot).2 (Nat.lt_of_lt_of_le hfewer hfits)⟩
  · intro behind
    obtain ⟨h, x, c', hhandle, hattributes, hfile, hpath, hstat, hc', hplace, hfate⟩ :=
      hentry older e newer heq
    refine ⟨h, x.attributes, hhandle, hattributes, hfile.symm, hfate, fun p hp => ?_,
      fun g xid' hg => take_getAttributes_of_stat hc' hstat hplace hg⟩
    rw [hc', HandleTable.resolve_cached_eq_ok_iff] at hp
    exact hpath ▸ hplace p hp

/-- A page of a root with one directory in it, and room for its two handles: both are live. -/
theorem handles_of_page_root :
    let config : ServerConfig := ⟨.known, ['/'], Bytes.zeros 8⟩
    let make := StoreRequest.makeDirectory (Path.root.child [0x64]) 0o755
    let store : Memory := (Memory.perform ⟨0⟩ make (.empty ⟨0⟩ false 100)).2
    let root := HandleSource.uuids.draw 0
    let mount := Call.sentAt ⟨0⟩ ⟨7, .mount .mount, [0x2F]⟩
    let args : Nfs.ReadDirectoryPlusArgs := ⟨root, 0, Bytes.zeros 8, 1000, 1000⟩
    let read := Call.sentAt ⟨0⟩ ⟨8, .nfs .readDirectoryPlus, args⟩
    let get := Call.sentAt ⟨0⟩ ⟨9, .nfs .getAttributes, root⟩
    let attributes (fileId : UInt64) : Nfs.FileAttributes :=
      ⟨.directory, 0o755, 2, 0, 0, 0, 0, ⟨0, 0⟩, 0, fileId, ⟨0, 0⟩, ⟨0, 0⟩, ⟨0, 0⟩⟩
    let page : Nfs.DirectoryPage Nfs.EntryPlus :=
      ⟨some (attributes 1), Listing.verifierOf [.root] [[0x64]],
        [⟨1, [0x2E], 1, some (attributes 1), some root⟩,
          ⟨1, [0x2E, 0x2E], 2, some (attributes 1), some root⟩,
          ⟨2, [0x64], 3, some (attributes 2), some (HandleSource.uuids.draw 1)⟩], true⟩
    let s := (start config ⟨store, .cached (.empty 2 .uuids), []⟩).after [mount]
    let s' := (s.take read).2
    s.Answers read ⟨8, .nfs .readDirectoryPlus, args⟩ (.results (.ok page)) ∧
      s'.performed? get = some ⟨9, .nfs .getAttributes, root⟩ ∧
      (∀ e ∈ page.entries, ∃ h, e.handle = some h ∧ s'.IsLive h) ∧
      (s'.take get).1 = attributesReply 9 (.ok (attributes 1)) := by
  intro config make store root mount args read get attributes page s s'
  have hbuilt : store.Built := .perform (.empty _ _ _) _ _
  have hpage : s.Answers read ⟨8, .nfs .readDirectoryPlus, args⟩ (.results (.ok page)) := by
    constructor
    · exact performed?_sentAt (by decide +kernel) (by decide +kernel) (by decide +kernel)
    · decide +kernel
  have hget : s'.performed? get = some ⟨9, .nfs .getAttributes, root⟩ :=
    performed?_sentAt (by decide +kernel) (by decide +kernel) (by decide +kernel)
  obtain ⟨hlive, directory, -, hentry⟩ :=
    handles_of_page config 2 .uuids store hbuilt [mount] read 8 args page hpage
  have hall := hlive (by decide)
  obtain ⟨h, hh, hroot⟩ := hall _ List.mem_cons_self
  obtain ⟨h', a, hh', ha, -, -, -, hreply⟩ := hentry [] _ _ rfl
  obtain rfl := Option.some.inj hh
  obtain rfl := Option.some.inj hh'
  obtain rfl := Option.some.inj ha
  exact ⟨hpage, hget, hall, (hreply get 9 hget).1 hroot⟩

/-- The same page where there is room for one handle: the handle of the directory takes the room of
that of the root, which is stale as soon as the client has got it. -/
theorem page_with_stale_handle :
    let config : ServerConfig := ⟨.known, ['/'], Bytes.zeros 8⟩
    let make := StoreRequest.makeDirectory (Path.root.child [0x64]) 0o755
    let store : Memory := (Memory.perform ⟨0⟩ make (.empty ⟨0⟩ false 100)).2
    let root := HandleSource.uuids.draw 0
    let mount := Call.sentAt ⟨0⟩ ⟨7, .mount .mount, [0x2F]⟩
    let read := Call.sentAt ⟨0⟩ ⟨8, .nfs .readDirectoryPlus, ⟨root, 0, Bytes.zeros 8, 1000, 1000⟩⟩
    let get := Call.sentAt ⟨0⟩ ⟨9, .nfs .getAttributes, root⟩
    let s := (start config ⟨store, .cached (.empty 1 .uuids), []⟩).after [mount]
    let s' := (s.take read).2
    store.Built ∧
      (∃ page : Nfs.DirectoryPage Nfs.EntryPlus,
        (s.take read).1 = .reply (replyTo 8 (.nfs .readDirectoryPlus) (.results (.ok page))) ∧
        ∃ e ∈ page.entries, e.handle = some root ∧ e.attributes ≠ none) ∧
      ¬s'.IsLive root ∧
      (s'.take get).1 = attributesReply 9 (.failed .stale ()) := by
  intro config make store root mount read get s s'
  let attributes (fileId : UInt64) : Nfs.FileAttributes :=
    ⟨.directory, 0o755, 2, 0, 0, 0, 0, ⟨0, 0⟩, 0, fileId, ⟨0, 0⟩, ⟨0, 0⟩, ⟨0, 0⟩⟩
  let page : Nfs.DirectoryPage Nfs.EntryPlus :=
    ⟨some (attributes 1), Listing.verifierOf [.root] [[0x64]],
      [⟨1, [0x2E], 1, some (attributes 1), some root⟩,
        ⟨1, [0x2E, 0x2E], 2, some (attributes 1), some root⟩,
        ⟨2, [0x64], 3, some (attributes 2), some (HandleSource.uuids.draw 1)⟩], true⟩
  have hpage : (s.take read).1 =
      .reply (replyTo 8 (.nfs .readDirectoryPlus) (.results (.ok page))) := by decide +kernel
  have hdead : (s'.backend.handles.resolve root).1 = .error .stale := by decide +kernel
  have hstale : (s'.take get).1 = attributesReply 9 (.failed .stale ()) := by decide +kernel
  refine ⟨.perform (.empty _ _ _) _ _, ⟨page, hpage, _, List.mem_cons_self, rfl, nofun⟩, ?_, hstale⟩
  rintro ⟨p, hp⟩
  rw [hdead] at hp
  cases hp

end Server

end NfsServer
