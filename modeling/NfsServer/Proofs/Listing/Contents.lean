import NfsServer.Listing.Basic
import NfsServer.Proofs.Frame
import NfsServer.Proofs.Store.Tree

/-!
# What listings contain

The children that a store in memory reports for a directory are exactly the objects one name below
it (`Memory.mem_readDirectory_iff`).  A listing consists of the directory itself, of the one above,
and of these children (`Listing.run_read`), and each of its entries is there
(`Listing.idAt_of_run_read`).
-/

namespace NfsServer

namespace Location

theorem fileName?_append_name (l : Location) (name : Bytes) :
    fileName? (l ++ [.name name]) = some name := by
  rw [fileName?, List.getLast?_concat]

theorem fileName?_eq_some {l : Location} {c : Component} {name : Bytes}
    (h : fileName? (l ++ [c]) = some name) : c = .name name := by
  rw [fileName?, List.getLast?_concat] at h
  cases c with
  | name bs => exact congrArg _ (Option.some.inj h)
  | root => cases h
  | here => cases h
  | up => cases h

end Location

namespace Memory

variable {m : Memory} {l : Location}

theorem readDirectory_ok {children : List Child} (h : m.readDirectory l = .ok children) :
    (∃ o, m.find? l = some o ∧ o.isDirectory = true) ∧
      children = m.objects.filterMap fun (k, o) =>
        if k.parent? = some l then k.fileName?.map fun name => ⟨name, o.metadata⟩ else none := by
  obtain ⟨o, ho, h⟩ := Except.bind_eq_ok h
  obtain ⟨hkind, h⟩ := Except.check_eq_ok h
  cases h
  exact ⟨⟨o, get_eq_ok_iff.1 ho, by simpa using hkind⟩, rfl⟩

/-- The children of a directory are the objects one name below it. -/
theorem mem_readDirectory_iff {children : List Child} (h : m.readDirectory l = .ok children)
    {c : Child} :
    c ∈ children ↔ ∃ o, (l ++ [.name c.name], o) ∈ m.objects ∧ o.metadata = c.metadata := by
  rw [(readDirectory_ok h).2, List.mem_filterMap]
  constructor
  · rintro ⟨⟨k, o⟩, hmem, hc⟩
    dsimp only at hc
    split at hc
    · next hk =>
      obtain ⟨x, -, rfl⟩ := Location.parent?_eq_some_iff.1 hk
      obtain ⟨name, hname, rfl⟩ := Option.map_eq_some_iff.1 hc
      obtain rfl := Location.fileName?_eq_some hname
      exact ⟨o, hmem, rfl⟩
    · cases hc
  · rintro ⟨o, hmem, hmetadata⟩
    refine ⟨_, hmem, ?_⟩
    dsimp only
    rw [Location.parent?_append_singleton l Component.noConfusion, if_pos rfl,
      Location.fileName?_append_name, Option.map_some, hmetadata]

/-- The names of the children of a directory in the order in which they are listed. -/
def childNames (m : Memory) (l : Location) : List Bytes :=
  match m.readDirectory l with
  | .ok children => (Listing.sorted children).map Child.name
  | .error _ => []

theorem childNames_eq {children : List Child} (h : m.readDirectory l = .ok children) :
    m.childNames l = (Listing.sorted children).map Child.name := by
  rw [childNames, h]

/-- A name is among those of the children of a directory exactly when there is an object of that
name in the directory. -/
theorem mem_childNames_iff {children : List Child} (h : m.readDirectory l = .ok children)
    {name : Bytes} : name ∈ m.childNames l ↔ (m.find? (l ++ [.name name])).isSome = true := by
  rw [childNames_eq h, List.mem_map]
  constructor
  · rintro ⟨c, hc, rfl⟩
    obtain ⟨o, ho, -⟩ := (mem_readDirectory_iff h).1 (List.mem_mergeSort.1 hc)
    exact find?_isSome_of_mem ho
  · intro hsome
    obtain ⟨o, ho⟩ := Option.isSome_iff_exists.1 hsome
    exact ⟨⟨name, o.metadata⟩,
      List.mem_mergeSort.2 ((mem_readDirectory_iff h).2 ⟨o, mem_of_find? ho, rfl⟩), rfl⟩

/-- The children of a directory have different names. -/
theorem IsTree.nodup_names (hm : m.IsTree) {children : List Child}
    (h : m.readDirectory l = .ok children) : (children.map Child.name).Nodup := by
  have hchild : ∀ (e : Location × Object) (c : Child), (if e.1.parent? = some l then
      e.1.fileName?.map fun name => ⟨name, e.2.metadata⟩ else none) = some c →
      e.1 = l ++ [.name c.name] := by
    intro e c hc
    split at hc
    · next hk =>
      obtain ⟨x, -, hplace⟩ := Location.parent?_eq_some_iff.1 hk
      obtain ⟨name, hname, rfl⟩ := Option.map_eq_some_iff.1 hc
      rw [hplace] at hname ⊢
      rw [Location.fileName?_eq_some hname]
    · cases hc
  rw [(readDirectory_ok h).2]
  refine List.pairwise_map.2 (List.pairwise_filterMap.2 ?_)
  refine (List.pairwise_map.1 hm.places_nodup).imp fun hne c hc c' hc' heq => hne ?_
  rw [hchild _ c hc, hchild _ c' hc', heq]

end Memory

namespace Listing

variable {directory : Path} {b : Backend Memory} {now : Time}

/-- The entries of children are the children in the same order, behind the path of the directory. -/
theorem childEntries_ok {children : List Child} {entries : List ListedEntry}
    (h : childEntries directory children = .ok entries) :
    entries.map (fun e => Child.mk e.name e.metadata) = children ∧
      ∀ e ∈ entries, directory.entry e.name = .ok e.path := by
  induction children generalizing entries with
  | nil =>
    cases h
    exact ⟨rfl, fun _ he => absurd he List.not_mem_nil⟩
  | cons c rest ih =>
    unfold childEntries at h
    split at h
    · cases h
    · next path hpath =>
      split at h
      · cases h
      · next others hothers =>
        cases h
        obtain ⟨hmap, hpaths⟩ := ih hothers
        refine ⟨by rw [List.map_cons, hmap], fun e he => ?_⟩
        rcases List.mem_cons.1 he with rfl | he
        · exact hpath
        · exact hpaths e he

theorem asks_parentMetadata (directory : Path) (m : Metadata) :
    (parentMetadata directory m).Asks Request.IsQuery := by
  unfold parentMetadata
  split
  · exact Program.asks_pure _
  · exact Nfs.asks_attempt trivial

theorem asks_read (directory : Path) (m : Metadata) :
    (read directory m).Asks Request.IsQuery := by
  apply Program.Asks.bind (Nfs.asks_attempt (by trivial))
  intro r
  cases r with
  | error e => exact Program.asks_pure _
  | ok children =>
    apply (asks_parentMetadata directory m).bind
    intro parent
    cases parent with
    | error e => exact Program.asks_pure _
    | ok parent =>
      dsimp only
      split <;> exact Program.asks_pure _

theorem run_parentMetadata {m parent : Metadata}
    (h : ((parentMetadata directory m).run now b).1 = .ok parent) :
    (directory.parent.SamePlace directory ∧ parent = m) ∨
      b.store.stat directory.parent.location = .ok parent := by
  unfold parentMetadata at h
  split at h
  · next hsame => exact Or.inl ⟨hsame, (Except.ok.inj h).symm⟩
  · exact Or.inr (Nfs.report_eq_ok h)

/-- What the listing of a directory consists of. -/
theorem run_read {m : Metadata} {listing : Listing}
    (h : ((read directory m).run now b).1 = .ok listing) :
    ∃ children parent entries, b.store.readDirectory directory.location = .ok children ∧
      ((directory.parent.SamePlace directory ∧ parent = m) ∨
        b.store.stat directory.parent.location = .ok parent) ∧
      childEntries directory (sorted children) = .ok entries ∧
      listing.entries = ⟨[Path.dot], directory, m⟩ ::
        ⟨[Path.dot, Path.dot], directory.parent, parent⟩ :: entries ∧
      listing.verifier = verifierOf directory.location ((sorted children).map Child.name) := by
  unfold read at h
  obtain ⟨children, hchildren, h⟩ := Program.run_bind_eq_ok (Nfs.asks_attempt (by trivial)) h
    fun _ => rfl
  obtain ⟨parent, hparent, h⟩ := Program.run_bind_eq_ok (asks_parentMetadata directory m) h
    fun _ => rfl
  dsimp only at h
  split at h
  · cases h
  · next entries hentries =>
    cases h
    exact ⟨children, parent, entries, Nfs.report_eq_ok hchildren, run_parentMetadata hparent,
      hentries, rfl, rfl⟩

/-- The names in a listing. -/
theorem names_of_run_read {m : Metadata} {listing : Listing}
    (h : ((read directory m).run now b).1 = .ok listing) :
    listing.entries.map ListedEntry.name = [Path.dot] :: [Path.dot, Path.dot] ::
        b.store.childNames directory.location ∧
      listing.verifier = verifierOf directory.location
        (b.store.childNames directory.location) := by
  obtain ⟨children, parent, entries, hchildren, -, hentries, hlisting, hverifier⟩ := run_read h
  have hnames : entries.map ListedEntry.name = (sorted children).map Child.name := by
    rw [← (childEntries_ok hentries).1, List.map_map]
    rfl
  rw [Memory.childNames_eq hchildren, hlisting, hverifier, List.map_cons, List.map_cons, hnames]
  exact ⟨rfl, rfl⟩

/-- The names of the children in a listing are those of the objects in the directory, and each of
them can be told from the dot entries. -/
theorem childNames_of_run_read {m : Metadata} {listing : Listing}
    (h : ((read directory m).run now b).1 = .ok listing) :
    let names := b.store.childNames directory.location
    (∀ name ∈ names, Path.IsEntryName name) ∧ ∀ name, name ∈ names ↔
      (b.store.find? (directory.location ++ [.name name])).isSome = true := by
  obtain ⟨children, parent, entries, hchildren, -, hentries, -, -⟩ := run_read h
  refine ⟨fun name hname => ?_, fun name => Memory.mem_childNames_iff hchildren⟩
  rw [Memory.childNames_eq hchildren, ← (childEntries_ok hentries).1, List.map_map] at hname
  obtain ⟨e, he, rfl⟩ := List.mem_map.1 hname
  exact (Path.entry_eq_ok_iff.1 ((childEntries_ok hentries).2 e he)).1

/-- The objects of all entries of a listing are there. -/
theorem idAt_of_run_read {m : Metadata} {listing : Listing}
    (h : ((read directory m).run now b).1 = .ok listing)
    (hdirectory : ∃ f, b.store.idAt directory.location = some f) :
    ∀ e ∈ listing.entries, ∃ f, b.store.idAt e.path.location = some f := by
  obtain ⟨children, parent, entries, hchildren, hparent, hentries, hlisting, -⟩ := run_read h
  rw [hlisting]
  intro e he
  rcases List.mem_cons.1 he with rfl | he
  · exact hdirectory
  · rcases List.mem_cons.1 he with rfl | he
    · dsimp only
      rcases hparent with ⟨hsame, -⟩ | hstat
      · rwa [show directory.parent.location = directory.location from hsame]
      · exact Memory.idAt_of_stat hstat
    · obtain ⟨hmap, hpaths⟩ := childEntries_ok hentries
      have hchild : Child.mk e.name e.metadata ∈ children :=
        List.mem_mergeSort.1 (hmap ▸ List.mem_map_of_mem he)
      obtain ⟨o, ho, -⟩ := (Memory.mem_readDirectory_iff hchildren).1 hchild
      rw [Path.location_entry (hpaths e he)]
      exact Memory.idAt_of_mem ho

/-- The attributes in a listing are those of the objects at the places of its entries. -/
theorem stat_of_run_read (htree : b.store.IsTree) {m : Metadata} {listing : Listing}
    (h : ((read directory m).run now b).1 = .ok listing)
    (hdirectory : b.store.stat directory.location = .ok m) :
    ∀ e ∈ listing.entries, b.store.stat e.path.location = .ok e.metadata := by
  obtain ⟨children, parent, entries, hchildren, hparent, hentries, hlisting, -⟩ := run_read h
  rw [hlisting, List.forall_mem_cons, List.forall_mem_cons]
  refine ⟨hdirectory, ?_, fun e he => ?_⟩
  · rcases hparent with ⟨hsame, rfl⟩ | hstat
    · rwa [show directory.parent.location = directory.location from hsame]
    · exact hstat
  · obtain ⟨hmap, hpaths⟩ := childEntries_ok hentries
    have hchild : Child.mk e.name e.metadata ∈ children :=
      List.mem_mergeSort.1 (hmap ▸ List.mem_map_of_mem he)
    obtain ⟨o, ho, hmetadata⟩ := (Memory.mem_readDirectory_iff hchildren).1 hchild
    rw [Path.location_entry (hpaths e he)]
    exact Memory.stat_eq_ok_iff.2 ⟨o, htree.find?_eq_some_iff.2 ho, hmetadata⟩

/-- Names of entries can be told from the dot entries. -/
theorem nodup_dots {names : List Bytes} (hentry : ∀ name ∈ names, Path.IsEntryName name)
    (hnodup : names.Nodup) : ([Path.dot] :: [Path.dot, Path.dot] :: names).Nodup := by
  rw [List.nodup_cons, List.nodup_cons, List.mem_cons, not_or]
  exact ⟨⟨by decide, fun h => (hentry _ h).ne_dot rfl⟩, fun h => (hentry _ h).ne_dots rfl, hnodup⟩

/-- The path of an entry of a directory; the dot entries are the directory itself and the one
above. -/
def pathOf (directory : Path) (name : Bytes) : Path :=
  if name = [Path.dot] then directory
  else if name = [Path.dot, Path.dot] then directory.parent
  else directory.child name

/-- An entry of a listing has the path of its name. -/
theorem path_of_run_read {m : Metadata} {listing : Listing}
    (h : ((read directory m).run now b).1 = .ok listing) :
    ∀ e ∈ listing.entries, e.path = pathOf directory e.name := by
  obtain ⟨children, parent, entries, -, -, hentries, hlisting, -⟩ := run_read h
  rw [hlisting, List.forall_mem_cons, List.forall_mem_cons]
  refine ⟨rfl, rfl, fun e he => ?_⟩
  obtain ⟨hname, -, hpath⟩ := Path.entry_eq_ok_iff.1 ((childEntries_ok hentries).2 e he)
  rw [hpath, pathOf, if_neg hname.ne_dot, if_neg hname.ne_dots]

end Listing

end NfsServer
