import NfsServer.Proofs.Listing.Page
import NfsServer.Proofs.Nfs.Directories

/-!
# What clients get to know from pages

Of a page a client needs the names with their cookies, the verifier, and whether it is the last one
(`ReceivedPage`).  Both procedures that list directories answer with the same part of the numbered
names of the directory as long as as many entries fit (`ReceivedPage.IsPageOf`).
-/

namespace NfsServer

namespace Listing

/-- The names in a directory with their cookies: the dot entries, and then those of the children. -/
def numbered (names : List Bytes) : List (Bytes × UInt64) :=
  (([Path.dot] :: [Path.dot, Path.dot] :: names).zipIdx 1).map fun e => (e.1, UInt64.ofNat e.2)

variable {names : List Bytes}

theorem length_numbered (names : List Bytes) : (numbered names).length = names.length + 2 := by
  rw [numbered, List.length_map, List.length_zipIdx, List.length_cons, List.length_cons]

theorem getElem?_numbered (names : List Bytes) (i : Nat) :
    (numbered names)[i]? = (([Path.dot] :: [Path.dot, Path.dot] :: names)[i]?).map
      fun name => (name, UInt64.ofNat (i + 1)) := by
  rw [numbered, List.getElem?_map, List.getElem?_zipIdx, Option.map_map, Nat.add_comm 1 i]
  rfl

theorem fst_numbered (names : List Bytes) :
    (numbered names).map Prod.fst = [Path.dot] :: [Path.dot, Path.dot] :: names := by
  rw [numbered, List.map_map]
  exact List.zipIdx_map_fst 1 _

/-- The cookie of an entry is the index of the next one. -/
theorem snd_of_getElem?_numbered {i : Nat} {e : Bytes × UInt64}
    (h : (numbered names)[i]? = some e) : e.2 = UInt64.ofNat (i + 1) := by
  rw [getElem?_numbered] at h
  obtain ⟨name, -, rfl⟩ := Option.map_eq_some_iff.1 h
  rfl

end Listing

/-- What a client gets to know from a page of a directory. -/
structure ReceivedPage where
  /-- The names and their cookies. -/
  entries : List (Bytes × UInt64)
  verifier : FixedBytes 8
  endOfList : Bool
  deriving DecidableEq, Repr

namespace ReceivedPage

/-- What a client gets to know from a page whose entries have the given labels. -/
def of {ε : Type} (label : ε → Bytes × UInt64) (page : Nfs.DirectoryPage ε) : ReceivedPage :=
  ⟨page.entries.map label, page.verifier, page.endOfList⟩

/-- The name and the cookie of an entry without attributes. -/
def plainLabel (e : Nfs.Entry) : Bytes × UInt64 := (e.name, e.cookie)

/-- The name and the cookie of an entry with attributes. -/
def fullLabel (e : Nfs.EntryPlus) : Bytes × UInt64 := (e.name, e.cookie)

/-- The page is one of the directory at a place, for a client that sends a cookie and a verifier. -/
structure IsPageOf (page : ReceivedPage) (store : Memory) (l : Location) (cookie : UInt64)
    (verifier : FixedBytes 8) : Prop where
  isEntryName : ∀ name ∈ store.childNames l, Path.IsEntryName name
  mem_iff : ∀ name, name ∈ store.childNames l ↔ (store.find? (l ++ [.name name])).isSome = true
  verifier_eq : page.verifier = Listing.verifierOf l (store.childNames l)
  /-- The client must not go on in another list than the one it began with. -/
  goes_on : cookie ≠ 0 → verifier = Bytes.zeros 8 ∨
    verifier = Listing.verifierOf l (store.childNames l)
  entries_eq : page.entries =
    ((Listing.numbered (store.childNames l)).drop cookie.toNat).take page.entries.length
  endOfList_iff : page.endOfList = true ↔
    page.entries.length = (store.childNames l).length + 2 - cookie.toNat
  length_le : page.entries.length ≤ (store.childNames l).length + 2 - cookie.toNat
  eq_nil : page.entries = [] → (store.childNames l).length + 2 ≤ cookie.toNat

/-- The cookie that a client sends after a page: the one of the last entry that it received. -/
def lastCookie (page : ReceivedPage) (cookie : UInt64) : UInt64 :=
  (page.entries.getLast?.map Prod.snd).getD cookie

/-- A page that begins before the end gets a client on to some entry behind. -/
theorem IsPageOf.advance {page : ReceivedPage} {store : Memory} {l : Location} {start : Nat}
    {verifier : FixedBytes 8} {names : List Bytes}
    (h : page.IsPageOf store l (UInt64.ofNat start) verifier) (hnames : store.childNames l = names)
    (hcount : names.length + 2 < 2 ^ 64) (hstart : start < names.length + 2) :
    page.entries ≠ [] ∧ ∃ next, start < next ∧ next ≤ names.length + 2 ∧
      (page.endOfList = true ↔ next = names.length + 2) ∧
      page.entries ++ (Listing.numbered names).drop next = (Listing.numbered names).drop start ∧
      page.lastCookie (UInt64.ofNat start) = UInt64.ofNat next := by
  have htoNat : (UInt64.ofNat start).toNat = start :=
    UInt64.toNat_ofNat_of_lt (hstart.trans hcount)
  obtain ⟨-, -, -, -, hentries, hend, hlength, hnil⟩ := h
  rw [hnames, htoNat] at hentries hend hlength hnil
  have hpos : 0 < page.entries.length := by
    rcases Nat.eq_zero_or_pos page.entries.length with hzero | hpos
    · have := hnil (List.length_eq_zero_iff.1 hzero)
      omega
    · exact hpos
  refine ⟨List.length_pos_iff.1 hpos, start + page.entries.length, by omega, by omega,
    by rw [hend]; omega, ?_, ?_⟩
  · rw [← List.drop_drop]
    nth_rewrite 1 [hentries]
    exact List.take_append_drop _ _
  · have hlt : start + (page.entries.length - 1) < (Listing.numbered names).length := by
      rw [Listing.length_numbered]
      omega
    have hlast : page.entries.getLast? = some (Listing.numbered names)[start +
        (page.entries.length - 1)] := by
      have hindex := congrArg (·[page.entries.length - 1]?) hentries
      rw [List.getElem?_take_of_lt (Nat.sub_lt hpos Nat.one_pos), List.getElem?_drop,
        List.getElem?_eq_getElem hlt] at hindex
      rw [List.getLast?_eq_getElem?, hindex]
    have hcookie := Listing.snd_of_getElem?_numbered (List.getElem?_eq_getElem hlt)
    rw [lastCookie, hlast, Option.map_some, Option.getD_some, hcookie]
    congr 1
    omega

/-- The labels of consecutive entries of a listing. -/
theorem map_label_eq {ε : Type} {label : ε → Bytes × UInt64} {make : ListedEntry → UInt64 → ε}
    (hmake : ∀ e cookie, label (make e cookie) = (e.name, cookie)) {l : Listing}
    {names : List Bytes}
    (hnames : l.entries.map ListedEntry.name = [Path.dot] :: [Path.dot, Path.dot] :: names)
    (start n : Nat) :
    ((((l.entries.drop start).zipIdx start).take n).map fun e =>
      make e.1 (UInt64.ofNat (e.2 + 1))).map label =
      ((Listing.numbered names).drop start).take n := by
  refine List.ext_getElem? fun i => ?_
  by_cases hi : i < n
  · rw [List.map_map, List.getElem?_map, List.getElem?_take_of_lt hi, List.getElem?_zipIdx,
      List.getElem?_drop, List.getElem?_take_of_lt hi, List.getElem?_drop,
      Listing.getElem?_numbered, ← hnames, List.getElem?_map, Option.map_map, Option.map_map]
    exact congrArg (fun f => Option.map f _) (funext fun e => hmake e _)
  · rw [List.map_map, List.getElem?_map, List.getElem?_take_eq_none (Nat.le_of_not_lt hi),
      List.getElem?_take_eq_none (Nat.le_of_not_lt hi)]
    rfl

variable {now : Time} {b : Backend Memory} {directory : FileHandle} {cookie : UInt64}
  {verifier : FixedBytes 8}

theorem isPageOf_of_cut {ε : Type} [Wire ε] {label : ε → Bytes × UInt64}
    {make : ListedEntry → UInt64 → ε}
    (hmake : ∀ e cookie, label (make e cookie) = (e.name, cookie)) {path : Path} {m : Metadata}
    {listing : Listing} (hread : ((Listing.read path m).run now b).1 = .ok listing) {start : Nat}
    (hresume : listing.resume cookie verifier = .ok start) {budget : PageBudget} {p : Page ε}
    (hpage : Page.of listing start budget make = .ok p) :
    IsPageOf ⟨p.entries.map label, listing.verifier, p.endOfList⟩ b.store path.location cookie
      verifier := by
  obtain ⟨hnames, hverifier⟩ := Listing.names_of_run_read hread
  obtain ⟨hentry, hmem⟩ := Listing.childNames_of_run_read hread
  obtain ⟨rfl, -, hgoes⟩ := Listing.resume_ok hresume
  obtain ⟨hentries, hlength, hend, hnil⟩ := Page.of_ok hpage
  have hcount : listing.entries.length = (b.store.childNames path.location).length + 2 := by
    rw [← List.length_map ListedEntry.name, hnames, List.length_cons, List.length_cons]
  rw [hcount] at hlength hend hnil
  exact {
    isEntryName := hentry
    mem_iff := hmem
    verifier_eq := hverifier
    goes_on := hverifier ▸ hgoes
    entries_eq := by
      rw [List.length_map, ← map_label_eq hmake hnames, ← hentries]
    endOfList_iff := by
      rw [List.length_map]
      exact hend
    length_le := by
      rw [List.length_map]
      exact hlength
    eq_nil := fun h => hnil (List.map_eq_nil_iff.1 h) }

/-- A page without attributes. -/
theorem isPageOf_readDirectory {count : UInt32} {page : Nfs.DirectoryPage Nfs.Entry}
    (h : ((Nfs.readDirectory ⟨directory, cookie, verifier, count⟩).run now b).1 = .ok page) :
    ∃ path, (b.handles.resolve directory).1 = .ok path ∧
      IsPageOf (of plainLabel page) b.store path.location cookie verifier := by
  obtain ⟨path, m, listing, start, p, hpath, hread, hresume, hcut, rfl⟩ :=
    Nfs.run_listDirectory h
  exact ⟨path, hpath, isPageOf_of_cut (fun _ _ => rfl) hread hresume hcut⟩

/-- A page with attributes and handles. -/
theorem isPageOf_readDirectoryPlus {directoryCount maxCount : UInt32}
    {page : Nfs.DirectoryPage Nfs.EntryPlus}
    (h : ((Nfs.readDirectoryPlus ⟨directory, cookie, verifier, directoryCount, maxCount⟩).run
      now b).1 = .ok page) :
    ∃ path, (b.handles.resolve directory).1 = .ok path ∧
      IsPageOf (of fullLabel page) b.store path.location cookie verifier := by
  obtain ⟨path, m, listing, start, q, hpath, -, hread, hresume, hpage, rfl, -⟩ :=
    Nfs.run_readDirectoryPlus h
  refine ⟨path, hpath, ?_⟩
  have hlabels : List.map fullLabel _ = q.entries.map fullLabel :=
    Nfs.run_attachHandles q.entries (listing.entries.drop start) now (b.resolved directory)
  rw [of]
  dsimp only
  rw [hlabels]
  exact isPageOf_of_cut (fun _ _ => rfl) hread hresume hpage

end ReceivedPage

end NfsServer
