import NfsServer.Nfs.Queries
import NfsServer.Proofs.Store.Soundness
import NfsServer.Proofs.Store.Views

/-!
# Listings and lookups agree

A listing is made by a scan of a directory, and a lookup checks a name and goes straight to its
object.  In a store whose objects clients may name, a directory can always be listed, and its
listing holds exactly what lookups find (`Listing.Agrees`): each name once, with the attributes that
a lookup of it answers with, and no other name is found.  So it is for the dot entries too, since
the path without its last piece leads to the directory above.
-/

namespace NfsServer

variable {σ : Type} [Store σ] {hidden : Bool} {m : Memory} {now : Time}

namespace Nfs

/-- Attributes as they are reported from the store. -/
theorem run_attempt_stat {b : Backend σ} (hb : Mirrors hidden b.store m) (now : Time) (p : Path) :
    (attempt (.stat p)).run now b =
      (report ((m.stat p.location).map (Metadata.shown hidden)), b) := by
  show (report (Store.perform now (.stat p) b.store).1,
    { b with store := (Store.perform now (.stat p) b.store).2 }) = _
  rw [hb.stat]

/-- Entries as they are reported from the store. -/
theorem run_attempt_readDirectory {b : Backend σ} (hb : Mirrors hidden b.store m) (now : Time)
    (p : Path) : (attempt (.readDirectory p)).run now b =
      (report ((m.readDirectory p.location).map (List.map (Child.shown hidden))), b) := by
  show (report (Store.perform now (.readDirectory p) b.store).1,
    { b with store := (Store.perform now (.readDirectory p) b.store).2 }) = _
  rw [hb.readDirectory]

end Nfs

/-! ## What names lead to -/

namespace Memory

/-- The path leads to a directory with the given attributes. -/
structure IsDirectoryAt (m : Memory) (p : Path) (a : Metadata) : Prop where
  stat : m.stat p.location = .ok a
  isDirectory : a.isDirectory = true

variable {p : Path} {a : Metadata}

/-- The directory above a directory is there. -/
theorem IsNamed.stat_parent (h : m.IsNamed) (hp : m.stat p.location = .ok a) :
    ∃ parent, m.stat p.parent.location = .ok parent := by
  obtain ⟨o, ho, -⟩ := stat_eq_ok_iff.1 hp
  obtain ⟨rest, hrest⟩ := h.isTree.root_prefix (mem_of_find? ho)
  rw [Path.location_parent hrest.symm]
  rcases h.isTree.parent_mem _ (mem_of_find? ho) with hroot | ⟨k, d, hk, hd, -⟩
  · have hnone : p.location.parent? = none := congrArg Location.parent? hroot
    rw [hnone]
    exact ⟨a, hp⟩
  · rw [show p.location.parent? = some k from hk]
    exact ⟨d.metadata, stat_eq_ok_iff.2 ⟨d, h.isTree.find?_eq_some_iff.2 hd, rfl⟩⟩

/-- A lookup of the name in the directory finds an object of these attributes at this path. -/
structure Leads (hidden : Bool) (m : Memory) (p : Path) (a : Metadata) (e : ListedEntry) :
    Prop where
  path : Nfs.lookupPath p a e.name = .ok e.path
  stat : ∃ a', m.stat e.path.location = .ok a' ∧ e.metadata = a'.shown hidden

/-- Names that lead anywhere are short. -/
theorem Leads.length_le {e : ListedEntry} (h : m.Leads hidden p a e) :
    e.name.length ≤ Nfs.maxNameLength := by
  have hpath := h.path
  unfold Nfs.lookupPath at hpath
  split_ifs at hpath with hkind hdot hdots
  · rw [hdot]
    decide
  · rw [hdots]
    decide
  · exact (Nfs.entryPath_eq_ok_iff.1 hpath).1.length_le

end Memory

namespace Listing

variable {p : Path} {a : Metadata}

theorem childEntries_eq_ok {directory : Path} {children : List Child}
    (h : ∀ c ∈ children, ∃ path, directory.entry c.name = .ok path) :
    ∃ entries, childEntries directory children = .ok entries := by
  induction children with
  | nil => exact ⟨[], rfl⟩
  | cons c rest ih =>
    rw [List.forall_mem_cons] at h
    obtain ⟨⟨path, hpath⟩, hrest⟩ := h
    obtain ⟨entries, hentries⟩ := ih hrest
    refine ⟨⟨c.name, path, c.metadata⟩ :: entries, ?_⟩
    unfold childEntries
    rw [hpath, hentries]

/-- The entries of children are the children whose names lead to their paths. -/
theorem mem_childEntries_iff {directory : Path} {children : List Child}
    {entries : List ListedEntry} (h : childEntries directory children = .ok entries)
    {e : ListedEntry} :
    e ∈ entries ↔ ⟨e.name, e.metadata⟩ ∈ children ∧ directory.entry e.name = .ok e.path := by
  obtain ⟨hmap, hpaths⟩ := childEntries_ok h
  constructor
  · intro he
    exact ⟨hmap ▸ List.mem_map_of_mem he, hpaths e he⟩
  · rintro ⟨hchild, hpath⟩
    rw [← hmap] at hchild
    obtain ⟨e', he', heq⟩ := List.mem_map.1 hchild
    obtain ⟨hname, hmetadata⟩ := Child.mk.inj heq
    have hpath' := hpaths e' he'
    rw [hname, hpath] at hpath'
    have hsame : e' = e := by
      obtain ⟨name, path, metadata⟩ := e
      obtain ⟨name', path', metadata'⟩ := e'
      dsimp only at hname hmetadata hpath'
      rw [hname, hmetadata, Except.ok.inj hpath']
    exact hsame ▸ he'

/-- The children that are shown are the objects one name below the directory. -/
theorem mem_sorted_shown_iff (hm : m.IsNamed) {l : Location} {children : List Child}
    (h : m.readDirectory l = .ok children) {c : Child} :
    c ∈ sorted (children.map (Child.shown hidden)) ↔
      ∃ a, m.stat (l ++ [.name c.name]) = .ok a ∧ c.metadata = a.shown hidden := by
  rw [sorted, List.mem_mergeSort, List.mem_map]
  constructor
  · rintro ⟨c, hc, rfl⟩
    obtain ⟨o, ho, hmetadata⟩ := (Memory.mem_readDirectory_iff h).1 hc
    have hfind := hm.isTree.find?_eq_some_iff.2 ho
    exact ⟨c.metadata, Memory.stat_eq_ok_iff.2 ⟨o, hfind, hmetadata⟩, rfl⟩
  · rintro ⟨a, ha, hmetadata⟩
    obtain ⟨o, ho, rfl⟩ := Memory.stat_eq_ok_iff.1 ha
    have hchild := (Memory.mem_readDirectory_iff h (c := ⟨c.name, o.metadata⟩)).2
      ⟨o, Memory.mem_of_find? ho, rfl⟩
    refine ⟨⟨c.name, o.metadata⟩, hchild, ?_⟩
    obtain ⟨name, metadata⟩ := c
    exact congrArg (Child.mk name) hmetadata.symm

/-- The objects of a directory have names that are accepted. -/
theorem isAccepted_of_stat (hm : m.IsNamed) {l : Location} {name : Bytes} {a : Metadata}
    (h : m.stat (l ++ [.name name]) = .ok a) : Nfs.IsAccepted name := by
  obtain ⟨o, ho, -⟩ := Memory.stat_eq_ok_iff.1 h
  exact hm.names _ (Memory.mem_of_find? ho) name (by simp)

/-- The listing holds exactly what names in the directory lead to, each name once and the dot
entries first. -/
structure Agrees (hidden : Bool) (m : Memory) (p : Path) (a : Metadata) (l : Listing) : Prop where
  dots : ∃ names, l.entries.map ListedEntry.name = [Path.dot] :: [Path.dot, Path.dot] :: names
  names_nodup : (l.entries.map ListedEntry.name).Nodup
  mem_iff : ∀ e, e ∈ l.entries ↔ m.Leads hidden p a e

theorem lookupPath_of_isAccepted (hp : m.IsDirectoryAt p a) {name : Bytes}
    (h : Nfs.IsAccepted name) : Nfs.lookupPath p a name = .ok (p.child name) := by
  unfold Nfs.lookupPath
  rw [hp.isDirectory, if_neg (by simp), if_neg h.isEntryName.ne_dot, if_neg h.isEntryName.ne_dots]
  exact Nfs.entryPath_eq_ok_iff.2 ⟨h, rfl⟩

/-- The dot entries and the children together are what names lead to. -/
theorem mem_entries_iff (hm : m.IsNamed) (hp : m.IsDirectoryAt p a) {children : List Child}
    (hchildren : m.readDirectory p.location = .ok children) {parent : Metadata}
    (hparent : m.stat p.parent.location = .ok parent) {entries : List ListedEntry}
    (hentries : childEntries p (sorted (children.map (Child.shown hidden))) = .ok entries)
    (e : ListedEntry) :
    e ∈ ⟨[Path.dot], p, a.shown hidden⟩ ::
        ⟨[Path.dot, Path.dot], p.parent, parent.shown hidden⟩ :: entries ↔
      m.Leads hidden p a e := by
  have hnot : ¬(!a.isDirectory) = true := by simp [hp.isDirectory]
  rw [List.mem_cons, List.mem_cons, mem_childEntries_iff hentries,
    mem_sorted_shown_iff hm hchildren]
  constructor
  · rintro (rfl | rfl | ⟨⟨a', ha', hmetadata⟩, hpath⟩)
    · have hdot : Nfs.lookupPath p a [Path.dot] = .ok p := by
        rw [Nfs.lookupPath, if_neg hnot, if_pos rfl]
      exact ⟨hdot, a, hp.stat, rfl⟩
    · have hdots : Nfs.lookupPath p a [Path.dot, Path.dot] = .ok p.parent := by
        rw [Nfs.lookupPath, if_neg hnot, if_neg (by decide), if_pos rfl]
      exact ⟨hdots, parent, hparent, rfl⟩
    · obtain ⟨-, -, hchild⟩ := Path.entry_eq_ok_iff.1 hpath
      refine ⟨?_, a', ?_, hmetadata⟩
      · rw [lookupPath_of_isAccepted hp (isAccepted_of_stat hm ha'), hchild]
      · rw [Path.location_entry hpath]
        exact ha'
  · obtain ⟨name, path, metadata⟩ := e
    rintro ⟨hpath, a', ha', hmetadata⟩
    dsimp only at hpath ha' hmetadata ⊢
    rw [Nfs.lookupPath, if_neg hnot] at hpath
    split at hpath
    · next hdot =>
      obtain rfl := Except.ok.inj hpath
      obtain rfl := Except.ok.inj (hp.stat.symm.trans ha')
      exact Or.inl (by rw [hdot, hmetadata])
    · split at hpath
      · next hdots =>
        obtain rfl := Except.ok.inj hpath
        obtain rfl := Except.ok.inj (hparent.symm.trans ha')
        exact Or.inr (Or.inl (by rw [hdots, hmetadata]))
      · obtain ⟨haccepted, rfl⟩ := Nfs.entryPath_eq_ok_iff.1 hpath
        rw [p.location_child haccepted.isEntryName] at ha'
        exact Or.inr (Or.inr ⟨⟨a', ha', hmetadata⟩, haccepted.entry_eq_ok p⟩)

theorem run_parentMetadata_of_mirrors {b : Backend σ} (hb : Mirrors hidden b.store m)
    (hp : m.IsDirectoryAt p a) {parent : Metadata}
    (hparent : m.stat p.parent.location = .ok parent) (now : Time) :
    (parentMetadata p (a.shown hidden)).run now b = (.ok (parent.shown hidden), b) := by
  unfold parentMetadata
  split
  · next hsame =>
    have hstat := hp.stat
    rw [← show p.parent.location = p.location from hsame, hparent] at hstat
    obtain rfl := Except.ok.inj hstat
    rfl
  · rw [Nfs.run_attempt_stat hb, hparent]
    rfl

/-- The names that are shown are those of the objects in the directory, each of them once. -/
theorem names_sorted_shown (hm : m.IsNamed) (hidden : Bool) {l : Location} {children : List Child}
    (h : m.readDirectory l = .ok children) :
    let names := (sorted (children.map (Child.shown hidden))).map Child.name
    (∀ name ∈ names, Nfs.IsAccepted name) ∧ names.Nodup := by
  intro names
  constructor
  · intro name hname
    obtain ⟨c, hc, rfl⟩ := List.mem_map.1 hname
    obtain ⟨a, ha, -⟩ := (mem_sorted_shown_iff hm h).1 hc
    exact isAccepted_of_stat hm ha
  · have hperm := (List.mergeSort_perm (children.map (Child.shown hidden))
      fun a b => decide (a.name ≤ b.name)).map Child.name
    have hshown : (children.map (Child.shown hidden)).map Child.name = children.map Child.name := by
      rw [List.map_map]
      rfl
    exact hperm.nodup_iff.2 (hshown ▸ hm.isTree.nodup_names h)

/-- A directory can be listed, and its listing agrees with lookups. -/
theorem exists_agrees (hm : m.IsNamed) (hp : m.IsDirectoryAt p a) (hidden : Bool) :
    ∃ l : Listing, l.Agrees hidden m p a ∧ ∀ (now : Time) (b : Backend σ),
      Mirrors hidden b.store m → (read p (a.shown hidden)).run now b = (.ok l, b) := by
  obtain ⟨o, ho, rfl⟩ := Memory.stat_eq_ok_iff.1 hp.stat
  obtain ⟨children, hchildren⟩ := Memory.readDirectory_eq_ok ho hp.isDirectory
  obtain ⟨parent, hparent⟩ := hm.stat_parent hp.stat
  let shown := sorted (children.map (Child.shown hidden))
  obtain ⟨haccepted, hnodup⟩ := names_sorted_shown hm hidden hchildren
  have hentry : ∀ c ∈ shown, ∃ path, p.entry c.name = .ok path :=
    fun c hc => ⟨_, (haccepted _ (List.mem_map_of_mem hc)).entry_eq_ok p⟩
  obtain ⟨entries, hentries⟩ := childEntries_eq_ok hentry
  have hnames : entries.map ListedEntry.name = shown.map Child.name := by
    rw [← (childEntries_ok hentries).1, List.map_map]
    rfl
  refine ⟨⟨_, verifierOf p.location (shown.map Child.name)⟩, ⟨⟨shown.map Child.name, ?_⟩, ?_,
    mem_entries_iff hm hp hchildren hparent hentries⟩, fun now b hb => ?_⟩
  · rw [List.map_cons, List.map_cons, hnames]
  · rw [List.map_cons, List.map_cons, hnames]
    exact nodup_dots (fun name hname => (haccepted name hname).isEntryName) hnodup
  · unfold read
    rw [Program.run_bind, Nfs.run_attempt_readDirectory hb, hchildren]
    show (parentMetadata p (o.metadata.shown hidden) >>= _).run now b = _
    rw [Program.run_bind, run_parentMetadata_of_mirrors hb hp hparent]
    dsimp only
    rw [hentries]
    rfl

end Listing

end NfsServer
