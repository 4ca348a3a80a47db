import NfsServer.Proofs.Listing.Budget
import NfsServer.Proofs.Listing.Lookup
import NfsServer.Proofs.Rpc.Limits

/-!
# Clients find what they are shown

A client that reads a directory is shown parts of its listing (`PageAnswer.isPart`), and if it
allows the sizes that some one entry can need, it always is (`PageAnswer.exists_page`).  A name is
found exactly if it stands in the listing, and then it is found with the number that the listing
gives (`Server.lookup_agrees_with_listing`).
-/

namespace NfsServer

variable {σ : Type} [Store σ] {hidden : Bool} {m : Memory}

/-! ## Parts of lists -/

/-- The part is what stands in the whole list from an index on, up to the end if it is marked so,
and it is empty only at the end. -/
structure IsPart {α : Type} (whole : List α) (start : Nat) (part : List α) (endOfList : Bool) :
    Prop where
  eq_take : part = (whole.drop start).take part.length
  length_le : start + part.length ≤ whole.length
  endOfList_iff : endOfList = true ↔ start + part.length = whole.length
  eq_length : part = [] → start = whole.length

/-- The names in a listing and the numbers of their objects. -/
def Listing.labels (l : Listing) : List (Bytes × UInt64) :=
  l.entries.map fun e => (e.name, e.fileId)

theorem Listing.length_labels (l : Listing) : l.labels.length = l.entries.length :=
  List.length_map _

theorem Listing.fst_labels (l : Listing) :
    l.labels.map Prod.fst = l.entries.map ListedEntry.name := by
  rw [labels, List.map_map]
  rfl

namespace Page

variable {ε : Type} [Wire ε] {budget : PageBudget} {make : ListedEntry → UInt64 → ε} {l : Listing}
  {start : Nat} {page : Page ε}

/-- The labels of a page are a part of those of the listing. -/
theorem Fills.isPart {label : ε → Bytes × UInt64}
    (hlabel : ∀ e cookie, label (make e cookie) = (e.name, e.fileId))
    (h : Fills budget make l start (.ok page)) (hstart : start ≤ l.entries.length) :
    IsPart l.labels start (page.entries.map label) page.endOfList := by
  have hlength : (remaining l start).length = l.entries.length - start := by
    rw [remaining, List.length_zipIdx, List.length_drop]
  have hle := h.length_le page rfl
  have hend := h.endOfList_iff page rfl
  refine ⟨?_, ?_, ?_, fun hnil => ?_⟩
  · have hmade : (fun e => label (made make e)) =
        (fun e : ListedEntry => (e.name, e.fileId)) ∘ Prod.fst := funext fun e => hlabel e.1 _
    have hfirst : ((remaining l start).take page.entries.length).map Prod.fst =
        (l.entries.drop start).take page.entries.length := by
      rw [List.map_take, remaining, List.zipIdx_map_fst]
    rw [List.length_map, Listing.labels, ← List.map_drop, ← List.map_take, ← hfirst, List.map_map,
      ← hmade, congrArg (List.map label) (h.entries_eq page rfl), List.map_map]
    rfl
  · rw [List.length_map, Listing.length_labels]
    omega
  · rw [List.length_map, Listing.length_labels, hend]
    omega
  · -- An empty page would be an error where entries are left.
    rw [List.map_eq_nil_iff] at hnil
    rw [Listing.length_labels]
    by_contra hne
    have hpos : 0 < (remaining l start).length := by omega
    have hnot : ¬Allows budget make ((remaining l start).take 1) := by
      rw [← h.longest page rfl 1 Nat.one_pos hpos, hnil]
      exact Nat.not_succ_le_zero 0
    have herror := (h.error_iff .tooSmall).2 ⟨rfl, List.length_pos_iff.1 hpos, hnot⟩
    cases herror

/-- An entry with a short name always fits. -/
theorem directoryBytes_le {e : ListedEntry} (h : e.name.length ≤ Nfs.maxNameLength) :
    directoryBytes e ≤ 276 := by
  unfold directoryBytes Format.padding
  unfold Nfs.maxNameLength at h
  omega

end Page

namespace Nfs

/-! ## Pages -/

variable {ε : Type} [Wire ε] {budget : PageBudget} {make : ListedEntry → UInt64 → ε} {l : Listing}
  {attributes : FileAttributes} {cookie : UInt64} {verifier : FixedBytes 8}

/-- What comes before the cutting of a page, where a directory can be listed. -/
def openedAt (attributes : FileAttributes) (l : Listing) (cookie : UInt64)
    (verifier : FixedBytes 8) :
    Except (NfsError × Option FileAttributes) (FileAttributes × Listing × Nat) :=
  match l.resume cookie verifier with
  | .error e => .error (e, some attributes)
  | .ok start => .ok (attributes, l, start)

theorem PageAnswer.isPart {label : ε → Bytes × UInt64}
    (hlabel : ∀ e cookie, label (make e cookie) = (e.name, e.fileId)) {page : DirectoryPage ε}
    (h : PageAnswer budget make (openedAt attributes l cookie verifier) (.ok page)) :
    IsPart l.labels cookie.toNat (page.entries.map label) page.endOfList := by
  obtain ⟨_, _, _, hopened, -, -, hfills⟩ := h.page page rfl
  unfold openedAt at hopened
  split at hopened
  · cases hopened
  · next start hstart =>
    obtain ⟨rfl, hle, -⟩ := Listing.resume_ok hstart
    cases hopened
    exact hfills.isPart hlabel hle

/-- The attributes in an entry bear the number of the entry. -/
theorem PageAnswer.fileId_eq {opened} {page : DirectoryPage EntryPlus}
    (h : PageAnswer budget Page.fullEntry opened (.ok page)) :
    ∀ e ∈ page.entries, e.attributes.map FileAttributes.fileId = some e.fileId := by
  obtain ⟨_, _, _, -, -, -, hfills⟩ := h.page page rfl
  rw [show page.entries = _ from hfills.entries_eq _ rfl]
  intro e he
  obtain ⟨listed, -, rfl⟩ := List.mem_map.1 he
  rfl

theorem exists_of_withoutHandles {φ : Type} {result : Outcome (DirectoryPage EntryPlus) φ}
    (h : ∃ page, withoutHandles result = .ok page) : ∃ page, result = .ok page := by
  cases result with
  | ok page => exact ⟨page, rfl⟩
  | failed e detail =>
    obtain ⟨page, hpage⟩ := h
    cases hpage

/-- Where any one entry fits, there is a page. -/
theorem PageAnswer.exists_page {result : Outcome (DirectoryPage ε) (Option FileAttributes)}
    (h : PageAnswer budget make (openedAt attributes l cookie (Bytes.zeros 8)) result)
    (hcookie : cookie.toNat ≤ l.entries.length)
    (hfits : ∀ e ∈ l.entries, ∀ n, Page.Allows budget make [(e, n)]) :
    ∃ page, result = .ok page := by
  have hresume : l.resume cookie (Bytes.zeros 8) = .ok cookie.toNat := by
    unfold Listing.resume
    split
    · next hzero =>
      rw [hzero]
      rfl
    · have hzeros : ¬(Bytes.zeros 8 ≠ Bytes.zeros 8 ∧ Bytes.zeros 8 ≠ l.verifier) :=
        fun h => h.1 rfl
      rw [if_neg hzeros]
  have hopened : openedAt attributes l cookie (Bytes.zeros 8) =
      .ok (attributes, l, cookie.toNat) := by
    rw [openedAt, hresume]
  rw [hopened] at h
  rcases result with page | ⟨e, detail⟩
  · exact ⟨page, rfl⟩
  · by_cases he : e = .tooSmall
    · subst he
      obtain ⟨_, _, _, ⟨⟩, -, hne, hnot⟩ := (h.tooSmall_iff detail).1 rfl
      obtain ⟨⟨e, n⟩, rest, hrest⟩ := List.exists_cons_of_ne_nil hne
      have hmem : e ∈ l.entries := by
        have hzip : (e, n) ∈ Page.remaining l cookie.toNat := hrest ▸ List.mem_cons_self
        exact List.mem_of_mem_drop (List.fst_mem_of_mem_zipIdx hzip)
      rw [hrest] at hnot
      exact absurd (hfits e hmem n) hnot
    · cases (h.failed_iff e detail he).1 rfl

/-- Any one entry with a short name fits into 384 bytes. -/
theorem allows_plain {e : ListedEntry} (he : e.name.length ≤ maxNameLength) (n : Nat)
    {count : UInt32} (hcount : 384 ≤ count.toNat) :
    Page.Allows (.plain count) Page.plainEntry [(e, n)] := by
  have hfields := Page.directoryBytes_le he
  have hentry := Page.length_encode_fields e (UInt64.ofNat (n + 1))
  have hmade : Page.entryBytes (.plain count) (Page.made Page.plainEntry (e, n)) =
      4 + (encode (e.fileId, e.name, UInt64.ofNat (n + 1))).length + 0 := rfl
  refine ⟨?_, nofun⟩
  rw [List.map_singleton, List.sum_singleton, hmade, hentry]
  show 104 + _ ≤ count.toNat
  omega

/-- Any one entry with a short name and its attributes fit into 544 bytes, of which the number, the
name and the cookie take at most 276. -/
theorem allows_full {e : ListedEntry} (he : e.name.length ≤ maxNameLength) (n : Nat)
    {directoryCount maxCount : UInt32} (hdirectory : 276 ≤ directoryCount.toNat)
    (hmax : 544 ≤ maxCount.toNat) :
    Page.Allows (.withHandles directoryCount maxCount) Page.fullEntry [(e, n)] := by
  have hfields := Page.directoryBytes_le he
  have hlength := length_encode_entryPlus (Page.made Page.fullEntry (e, n))
  have hentry : (encode ((Page.made Page.fullEntry (e, n)).fileId,
      (Page.made Page.fullEntry (e, n)).name, (Page.made Page.fullEntry (e, n)).cookie)).length =
        Page.directoryBytes e := Page.length_encode_fields e _
  have hattributes : (encode (Page.made Page.fullEntry (e, n)).attributes).length = 88 := by
    have hsome : encode (some e.attributes) = Bytes.bigEndian 4 1 ++ encode e.attributes := rfl
    show (encode (some e.attributes)).length = 88
    rw [hsome, List.length_append, Bytes.length_bigEndian, length_encode_attributes]
  have hhandle : (encode (Page.made Page.fullEntry (e, n)).handle).length = 4 := rfl
  refine ⟨?_, ?_⟩
  · rw [List.map_singleton, List.sum_singleton, Page.entryBytes]
    show 104 + (4 + _ + 68) ≤ maxCount.toNat
    omega
  · rintro _ ⟨⟩
    rw [List.map_singleton, List.sum_singleton]
    show 0 + Page.directoryBytes e ≤ directoryCount.toNat
    omega

/-! ## Answers about a directory -/

section Directory

variable {b : Backend σ} {d : FileHandle} {p : Path} {a : Metadata} {now : Time}
  (hb : Mirrors hidden b.store m) (hd : (b.handles.resolve d).1 = .ok p) (hp : m.IsDirectoryAt p a)

include hb hd hp

/-- Before a page is cut, the directory is listed. -/
theorem run_openListing_of_mirrors
    (hread : ∀ b : Backend σ, Mirrors hidden b.store m →
      (Listing.read p (a.shown hidden)).run now b = (.ok l, b)) :
    ((openListing d cookie verifier).run now b).1 =
      openedAt ((a.shown hidden).attributesAt p) l cookie verifier := by
  have hdirectory : ¬(!(a.shown hidden).isDirectory) = true := by
    simp [hp.isDirectory]
  let b' : Backend σ := { b with handles := (b.handles.resolve d).2 }
  have hb' : Mirrors hidden b'.store m := hb
  unfold openListing
  rw [Program.run_resolve_then hd]
  dsimp only
  rw [Program.run_bind, run_attempt_stat hb', hp.stat]
  dsimp only [report, Except.map]
  rw [if_neg hdirectory, Program.run_bind]
  unfold listFrom
  rw [Program.run_bind, hread b' hb']
  dsimp only [openedAt]
  cases l.resume cookie verifier <;> rfl

/-- A page without handles is cut from the listing. -/
theorem pageAnswer_readDirectory
    (hread : ∀ b : Backend σ, Mirrors hidden b.store m →
      (Listing.read p (a.shown hidden)).run now b = (.ok l, b)) (cookie : UInt64)
    (verifier : FixedBytes 8) (count : UInt32) :
    PageAnswer (.plain count) Page.plainEntry
      (openedAt ((a.shown hidden).attributesAt p) l cookie verifier)
      ((readDirectory ⟨d, cookie, verifier, count⟩).run now b).1 := by
  have hopened := opens_openListing d cookie verifier now b
  rw [run_readDirectory]
  rw [run_openListing_of_mirrors hb hd hp hread] at hopened ⊢
  exact pageAnswer_answerPage _ _ hopened

/-- Without its handles, a page with handles is cut from the listing too. -/
theorem pageAnswer_readDirectoryPlus
    (hread : ∀ b : Backend σ, Mirrors hidden b.store m →
      (Listing.read p (a.shown hidden)).run now b = (.ok l, b)) (cookie : UInt64)
    (verifier : FixedBytes 8) (directoryCount maxCount : UInt32) :
    PageAnswer (.withHandles directoryCount maxCount) Page.fullEntry
      (openedAt ((a.shown hidden).attributesAt p) l cookie verifier)
      (withoutHandles
        ((readDirectoryPlus ⟨d, cookie, verifier, directoryCount, maxCount⟩).run now b).1) := by
  have hopened := opens_openListing d cookie verifier now b
  rw [run_readDirectoryPlus_withoutHandles]
  rw [run_openListing_of_mirrors hb hd hp hread] at hopened ⊢
  exact pageAnswer_answerPage _ _ hopened

/-- What a lookup answers. -/
theorem run_lookup_of_mirrors (name : Bytes) :
    ((lookup ⟨d, name⟩).run now b).1 =
      let directory := some ((a.shown hidden).attributesAt p)
      match lookupPath p a name with
      | .error e => .failed e directory
      | .ok path =>
        match m.stat path.location with
        | .error e => .failed e.toNfs directory
        | .ok found =>
          .ok ⟨((b.handles.resolve d).2.issue path).1,
            some ((found.shown hidden).attributesAt path), directory⟩ := by
  let b' : Backend σ := { b with handles := (b.handles.resolve d).2 }
  have hb' : Mirrors hidden b'.store m := hb
  have hlookup : lookupPath p (a.shown hidden) name = lookupPath p a name := by
    unfold lookupPath
    rw [Metadata.isDirectory_shown]
  unfold lookup
  rw [Program.run_resolve_then hd]
  dsimp only
  rw [Program.run_bind, run_attempt_stat hb', hp.stat]
  dsimp only [report, Except.map]
  rw [hlookup]
  cases lookupPath p a name with
  | error e => rfl
  | ok path =>
    dsimp only
    rw [Program.run_bind, run_attempt_stat hb']
    cases m.stat path.location <;> rfl

/-- What is found is what the name leads to. -/
theorem leads_of_lookup {name : Bytes} {r : LookupResult}
    (h : ((lookup ⟨d, name⟩).run now b).1 = .ok r) :
    ∃ e, m.Leads hidden p a e ∧ e.name = name ∧ r.attributes = some e.attributes := by
  rw [run_lookup_of_mirrors hb hd hp] at h
  dsimp only at h
  split at h
  · cases h
  · next path hpath =>
    split at h
    · cases h
    · next found hfound =>
      cases h
      exact ⟨⟨name, path, found.shown hidden⟩, ⟨hpath, found, hfound, rfl⟩, rfl, rfl⟩

/-- What a name leads to is found. -/
theorem lookup_of_leads {e : ListedEntry} (h : m.Leads hidden p a e) :
    ∃ r, ((lookup ⟨d, e.name⟩).run now b).1 = .ok r := by
  obtain ⟨found, hfound, -⟩ := h.stat
  rw [run_lookup_of_mirrors hb hd hp, h.path]
  dsimp only
  rw [hfound]
  exact ⟨_, rfl⟩

/-- A lookup finds exactly what is listed. -/
theorem lookup_agrees (hl : l.Agrees hidden m p a) (name : Bytes) :
    ((∃ r, ((lookup ⟨d, name⟩).run now b).1 = .ok r) ↔ name ∈ l.labels.map Prod.fst) ∧
      ∀ r, ((lookup ⟨d, name⟩).run now b).1 = .ok r →
        ∃ found, r.attributes = some found ∧ (name, found.fileId) ∈ l.labels := by
  refine ⟨⟨?_, fun hname => ?_⟩, fun r h => ?_⟩
  · rintro ⟨r, h⟩
    obtain ⟨e, he, rfl, -⟩ := leads_of_lookup hb hd hp h
    rw [l.fst_labels]
    exact List.mem_map_of_mem ((hl.mem_iff e).2 he)
  · rw [l.fst_labels] at hname
    obtain ⟨e, he, rfl⟩ := List.mem_map.1 hname
    exact lookup_of_leads hb hd hp ((hl.mem_iff e).1 he)
  · obtain ⟨e, he, rfl, hattributes⟩ := leads_of_lookup hb hd hp h
    exact ⟨e.attributes, hattributes, List.mem_map_of_mem ((hl.mem_iff e).2 he)⟩

end Directory

end Nfs

namespace Server

open Rpc

/-- The handle is live and stands for a directory. -/
def DirectoryHandle (s : Server σ) (d : FileHandle) : Prop :=
  ∃ now path a, (s.backend.handles.resolve d).1 = .ok path ∧
    (Store.perform now (.stat path) s.backend.store).1 = .ok a ∧ a.isDirectory = true

/-- The names and numbers are those of the complete listing of a directory, and lookups agree with
it.  Whatever part of the directory is read, with or without attributes, stands in the list at the
place that the cookie says, and what a client asks for is sent if the client allows the sizes that
any one entry can need.  A name is found if and only if it is in the list, and then with the number
that stands there. -/
structure ListsWhatItFinds (s : Server σ) (d : FileHandle) (listed : List (Bytes × UInt64)) :
    Prop where
  dots : ∃ names, listed.map Prod.fst = [Path.dot] :: [Path.dot, Path.dot] :: names
  names_nodup : (listed.map Prod.fst).Nodup
  readDirectory : ∀ m xid cookie verifier count page,
    s.Answers m ⟨xid, .nfs .readDirectory, ⟨d, cookie, verifier, count⟩⟩ (.results (.ok page)) →
      IsPart listed cookie.toNat (page.entries.map fun e => (e.name, e.fileId)) page.endOfList
  readDirectoryPlus : ∀ m xid cookie verifier directoryCount maxCount page,
    s.Answers m ⟨xid, .nfs .readDirectoryPlus, ⟨d, cookie, verifier, directoryCount, maxCount⟩⟩
        (.results (.ok page)) →
      IsPart listed cookie.toNat (page.entries.map fun e => (e.name, e.fileId)) page.endOfList ∧
        ∀ e ∈ page.entries, e.attributes.map Nfs.FileAttributes.fileId = some e.fileId
  readDirectory_ok : ∀ m xid cookie count response,
    s.Answers m ⟨xid, .nfs .readDirectory, ⟨d, cookie, Bytes.zeros 8, count⟩⟩ response →
      cookie.toNat ≤ listed.length → 384 ≤ count.toNat → ∃ page, response = .results (.ok page)
  readDirectoryPlus_ok : ∀ m xid cookie directoryCount maxCount response,
    s.Answers m ⟨xid, .nfs .readDirectoryPlus,
        ⟨d, cookie, Bytes.zeros 8, directoryCount, maxCount⟩⟩ response →
      cookie.toNat ≤ listed.length → 276 ≤ directoryCount.toNat → 544 ≤ maxCount.toNat →
        ∃ page, response = .results (.ok page)
  lookup_ok_iff : ∀ m xid name response, s.Answers m ⟨xid, .nfs .lookup, ⟨d, name⟩⟩ response →
    ((∃ r, response = .results (.ok r)) ↔ name ∈ listed.map Prod.fst)
  lookup_fileId : ∀ m xid name r, s.Answers m ⟨xid, .nfs .lookup, ⟨d, name⟩⟩ (.results (.ok r)) →
    ∃ a, r.attributes = some a ∧ (name, a.fileId) ∈ listed

/-- A handle of a directory stands for a directory in the memory that the store mirrors. -/
theorem DirectoryHandle.exists_path {s : Server σ} {d : FileHandle} (hd : s.DirectoryHandle d)
    (hs : Mirrors hidden s.backend.store m) :
    ∃ p a, (s.backend.handles.resolve d).1 = .ok p ∧ m.IsDirectoryAt p a := by
  obtain ⟨now, p, shown, hresolve, hstat, hdirectory⟩ := hd
  rw [hs.stat] at hstat
  cases ha : m.stat p.location with
  | error e =>
    rw [ha] at hstat
    cases hstat
  | ok a =>
    rw [ha] at hstat
    obtain rfl : a.shown hidden = shown := Except.ok.inj hstat
    rw [Metadata.isDirectory_shown] at hdirectory
    exact ⟨p, a, hresolve, ha, hdirectory⟩

/-- Where a store mirrors a memory whose objects clients may name, directories are listed as they
are found. -/
theorem exists_listsWhatItFinds {s : Server σ} (hs : Mirrors hidden s.backend.store m)
    (hm : m.IsNamed) {d : FileHandle} (hd : s.DirectoryHandle d) :
    ∃ listed, s.ListsWhatItFinds d listed := by
  obtain ⟨p, a, hresolve, hp⟩ := hd.exists_path hs
  obtain ⟨l, hl, hread⟩ : ∃ l : Listing, l.Agrees hidden m p a ∧
      ∀ (now : Time) (b : Backend σ), Mirrors hidden b.store m →
        (Listing.read p (a.shown hidden)).run now b = (.ok l, b) :=
    Listing.exists_agrees hm hp hidden
  have hshort : ∀ e ∈ l.entries, e.name.length ≤ Nfs.maxNameLength :=
    fun e he => ((hl.mem_iff e).1 he).length_le
  refine ⟨l.labels, ?_, ?_, ?_, ?_, ?_, ?_, ?_, ?_⟩
  · rw [l.fst_labels]
    exact hl.dots
  · rw [l.fst_labels]
    exact hl.names_nodup
  · intro m xid cookie verifier count page h
    have hanswer := Nfs.pageAnswer_readDirectory hs hresolve hp (hread m.clock.performed) cookie
      verifier count
    rw [← Response.results.inj (h.eq_results rfl)] at hanswer
    exact hanswer.isPart fun _ _ => rfl
  · intro m xid cookie verifier directoryCount maxCount page h
    have hanswer := Nfs.pageAnswer_readDirectoryPlus hs hresolve hp (hread m.clock.performed)
      cookie verifier directoryCount maxCount
    rw [← Response.results.inj (h.eq_results rfl)] at hanswer
    have hpart : IsPart l.labels cookie.toNat ((page.entries.map Nfs.EntryPlus.withoutHandle).map
        fun e => (e.name, e.fileId)) page.endOfList := hanswer.isPart fun _ _ => rfl
    rw [List.map_map] at hpart
    exact ⟨hpart, fun e he => hanswer.fileId_eq e.withoutHandle (List.mem_map_of_mem he)⟩
  · intro m xid cookie count response h hcookie hcount
    have hanswer := Nfs.pageAnswer_readDirectory hs hresolve hp (hread m.clock.performed) cookie
      (Bytes.zeros 8) count
    obtain ⟨page, hpage⟩ := hanswer.exists_page (l.length_labels ▸ hcookie)
      fun e he n => Nfs.allows_plain (hshort e he) n hcount
    exact ⟨page, (h.eq_results rfl).trans (congrArg Response.results hpage)⟩
  · intro m xid cookie directoryCount maxCount response h hcookie hdirectory hmax
    have hanswer := Nfs.pageAnswer_readDirectoryPlus hs hresolve hp (hread m.clock.performed)
      cookie (Bytes.zeros 8) directoryCount maxCount
    obtain ⟨page, hpage⟩ := Nfs.exists_of_withoutHandles <|
      hanswer.exists_page (l.length_labels ▸ hcookie)
        fun e he n => Nfs.allows_full (hshort e he) n hdirectory hmax
    exact ⟨page, (h.eq_results rfl).trans (congrArg Response.results hpage)⟩
  · intro m xid name response h
    rw [h.eq_results rfl, ← (Nfs.lookup_agrees hs hresolve hp hl name).1]
    exact exists_congr fun r => ⟨Response.results.inj, congrArg Response.results⟩
  · intro m xid name r h
    exact (Nfs.lookup_agrees hs hresolve hp hl name).2 r
      (Response.results.inj (h.eq_results rfl)).symm

/-- Whatever calls of either service have been made on an empty store, and whether or not the store
tells the numbers of objects: for every live handle of a directory, reading the directory and
looking up names in it agree. -/
theorem lookup_agrees_with_listing (config : ServerConfig) (handles : HandleTable) (now : Time)
    (isReadOnly : Bool) (limit : Nat) (before : List Incoming) :
    let memory := Memory.empty now isReadOnly limit
    let s := (start config ⟨memory, handles, []⟩).after before
    let behind (hidesFileIds hidesLimits : Bool) : Server (Faulty Memory) :=
      (start config ⟨⟨memory, [], [], hidesFileIds, hidesLimits⟩, handles, []⟩).after before
    (∀ d, s.DirectoryHandle d → ∃ listed, s.ListsWhatItFinds d listed) ∧
      ∀ hidesFileIds hidesLimits d, (behind hidesFileIds hidesLimits).DirectoryHandle d →
        ∃ listed, (behind hidesFileIds hidesLimits).ListsWhatItFinds d listed := by
  intro memory s behind
  have hempty : memory.IsNamed := Memory.isNamed_empty now isReadOnly limit
  constructor
  · intro d hd
    have hnamed : s.backend.store.IsNamed := keeps_after Memory.keeps_isNamed hempty before
    exact exists_listsWhatItFinds (Memory.mirrors_self s.backend.store) hnamed hd
  · intro hidesFileIds hidesLimits d hd
    let store : Faulty Memory := ⟨memory, [], [], hidesFileIds, hidesLimits⟩
    have hstore : store.IsClear hidesFileIds ∧ store.store.IsNamed := ⟨⟨rfl, rfl, rfl⟩, hempty⟩
    have hkept := keeps_after (s := start config ⟨store, handles, []⟩)
      (Faulty.keeps_of_keeps Memory.keeps_isNamed) hstore before
    exact exists_listsWhatItFinds hkept.1.mirrors hkept.2 hd

/-- The root with one directory in it, for stores that tell the numbers of objects and for stores
that do not. -/
theorem lookup_agrees_with_listing_root :
    let config : ServerConfig := ⟨.known, ['/'], Bytes.zeros 8⟩
    let root := FileHandle.serial 1
    let before := [Rpc.Call.sentAt ⟨0⟩ ⟨7, .mount .mount, [0x2F]⟩,
      Rpc.Call.sentAt ⟨0⟩ ⟨8, .nfs .makeDirectory, ⟨⟨root, [0x64]⟩, .empty⟩⟩]
    let memory := Memory.empty ⟨0⟩ false 100
    let s := (start config ⟨memory, .cached (.empty 8), []⟩).after before
    let behind (hidesFileIds hidesLimits : Bool) : Server (Faulty Memory) :=
      (start config ⟨⟨memory, [], [], hidesFileIds, hidesLimits⟩, .cached (.empty 8), []⟩).after
        before
    (s.DirectoryHandle root ∧ ∃ listed, s.ListsWhatItFinds root listed) ∧
      (behind true true).DirectoryHandle root ∧
        ∃ listed, (behind true true).ListsWhatItFinds root listed := by
  intro config root before memory s behind
  have hroot : s.DirectoryHandle root :=
    ⟨⟨0⟩, Path.root, ⟨.directory, 0o755, 0, 0, 0, ⟨0⟩, ⟨0⟩, ⟨0⟩, some 1⟩, by decide +kernel,
      by decide +kernel, rfl⟩
  have hroot' : (behind true true).DirectoryHandle root :=
    ⟨⟨0⟩, Path.root, ⟨.directory, 0o755, 0, 0, 0, ⟨0⟩, ⟨0⟩, ⟨0⟩, none⟩, by decide +kernel,
      by decide +kernel, rfl⟩
  obtain ⟨hagrees, hagrees'⟩ := lookup_agrees_with_listing config (.cached (.empty 8)) ⟨0⟩ false 100
    before
  exact ⟨⟨hroot, hagrees root hroot⟩, hroot', hagrees' true true root hroot'⟩

end Server

end NfsServer
