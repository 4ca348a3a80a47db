import NfsServer.Proofs.Listing.Contents

/-!
# Stores behind any sequence of requests

A store is sound (`Memory.IsSound`) when its objects form a tree, when what an object keeps beside
its contents agrees with them, and when a directory lists what lies in it.  The tree is only
implicit in the places, so that the last of these needs places that consist of names
(`Location.IsPlain`); requests with paths that lead from the root to entries of directories bring no
others.  Every such request keeps what soundness rests on (`Change.eachConsistent`), and so an empty
store stays sound behind any sequence of them, and no number is given to a second object
(`isSound_after`).
-/

namespace NfsServer

/-! ## Places that consist of names -/

/-- The paths that lead from the root directory to entries of directories, one name at a time. -/
inductive Path.FromRoot : Path → Prop
  | root : FromRoot Path.root
  | entry {directory p : Path} {name : Bytes} (hdirectory : FromRoot directory)
      (hp : directory.entry name = .ok p) : FromRoot p

namespace Location

/-- Names lead to the place from the root. -/
def IsPlain (l : Location) : Prop :=
  ∃ rest, l = root ++ rest ∧ ∀ c ∈ rest, ∃ name, c = Component.name name

theorem isPlain_root : root.IsPlain := ⟨[], rfl, by simp⟩

/-- What lies names below a plain place is plain. -/
theorem IsPlain.append {l rest : Location} (hl : l.IsPlain)
    (hrest : ∀ c ∈ rest, ∃ name, c = Component.name name) : (l ++ rest).IsPlain := by
  obtain ⟨above, rfl, habove⟩ := hl
  exact ⟨above ++ rest, List.append_assoc .., List.forall_mem_append.2 ⟨habove, hrest⟩⟩

/-- From one plain place to another below it there are only names. -/
theorem IsPlain.names_of_append {l rest : Location} (hl : l.IsPlain) (h : (l ++ rest).IsPlain) :
    ∀ c ∈ rest, ∃ name, c = Component.name name := by
  obtain ⟨above, rfl, -⟩ := hl
  obtain ⟨all, hall, hnames⟩ := h
  rw [List.append_assoc] at hall
  obtain rfl := List.append_cancel_left hall
  exact (List.forall_mem_append.1 hnames).2

theorem IsPlain.relocate {source target l : Location} (hsource : source.IsPlain)
    (htarget : target.IsPlain) (hl : l.IsPlain) : (Memory.relocate source target l).IsPlain := by
  by_cases hbelow : source <+: l
  · obtain ⟨rest, rfl⟩ := hbelow
    rw [Memory.relocate_append]
    exact htarget.append (hsource.names_of_append hl)
  · rwa [Memory.relocate_eq_self target hbelow]

end Location

theorem Path.FromRoot.isPlain {p : Path} (h : p.FromRoot) : p.location.IsPlain := by
  induction h with
  | root => exact Location.isPlain_root
  | entry _ hp ih =>
    rw [Path.location_entry hp]
    exact ih.append (by simp)

namespace StoreRequest

/-- The paths in a request. -/
def paths {α : Type} : StoreRequest α → List Path
  | .isReadOnly | .maxFileSize | .space => []
  | .stat p | .create p _ _ | .read p _ _ | .write p _ _ | .makeDirectory p _ | .readDirectory p
  | .removeFile p | .removeDirectory p | .setAttributes p _ | .symlink p _ | .readLink p => [p]
  | .rename source target => [source, target]

/-- A request puts objects only where one of its paths leads. -/
theorem mem_paths_of_occupied {α : Type} {r : StoreRequest α} {l : Location}
    (h : l ∈ r.occupied) : ∃ p ∈ r.paths, p.location = l := by
  cases r <;> simp_all [occupied, paths]

end StoreRequest

/-! ## Objects -/

/-- What an object keeps beside its contents agrees with them, and a file is not too long. -/
structure Object.IsConsistent (limit : Nat) (o : Object) : Prop where
  kind_eq : o.kind = o.contents.kind
  size_eq : o.size = o.contents.size
  mode_eq : Memory.permissions o.mode = o.mode
  length_le : ∀ data, o.contents = .file data → data.length ≤ limit

theorem Object.IsConsistent.touch {limit : Nat} {o : Object} (h : o.IsConsistent limit)
    (now : Time) : (o.touch now).IsConsistent limit :=
  ⟨h.kind_eq, h.size_eq, h.mode_eq, h.length_le⟩

namespace Memory

variable {m m' : Memory} {now : Time} {l k : Location}

theorem permissions_permissions (mode : UInt32) :
    permissions (permissions mode) = permissions mode := by
  rw [permissions, permissions, UInt32.and_assoc, UInt32.and_self]

theorem isConsistent_newObject {mode : UInt32} {contents : Contents} (limit : Nat)
    (hempty : ∀ data, contents = .file data → data = []) :
    (m.newObject now mode contents).IsConsistent limit where
  kind_eq := rfl
  size_eq := rfl
  mode_eq := permissions_permissions mode
  length_le := by
    intro data hdata
    simp [hempty data hdata]

theorem Alters.isConsistent {limit : Nat} {o o' : Object} (h : Alters limit o o')
    (ho : o.IsConsistent limit) : o'.IsConsistent limit := by
  have hmode : permissions o'.mode = o'.mode := by
    rcases h.mode_eq with heq | ⟨mode, heq⟩
    · rw [heq, ho.mode_eq]
    · rw [heq, permissions_permissions]
  have hkind := h.kind_eq.trans ho.kind_eq
  rcases h.contents with ⟨hcontents, hsize⟩ | ⟨data, data', hold, hnew, hsize, hle⟩
  · refine ⟨by rw [hkind, hcontents], by rw [hsize, hcontents, ho.size_eq], hmode, ?_⟩
    rw [hcontents]
    exact ho.length_le
  · have hdata : data.length ≤ limit := ho.length_le data hold
    refine ⟨by rw [hkind, hold, hnew]; rfl, by rw [hsize, hnew]; rfl, hmode, fun d hd => ?_⟩
    obtain rfl := Contents.file.inj (hnew.symm.trans hd)
    omega

/-! ## What soundness rests on -/

/-- Every object lies at a plain place and agrees with its contents. -/
def EachConsistent (m : Memory) : Prop :=
  m.Each fun l o => l.IsPlain ∧ o.IsConsistent m.maxFileSize

theorem eachConsistent_empty (now : Time) (isReadOnly : Bool) (limit : Nat) :
    (empty now isReadOnly limit).EachConsistent := by
  intro e he
  obtain rfl := List.mem_singleton.1 he
  exact ⟨Location.isPlain_root, rfl, rfl, permissions_permissions 0o755, nofun⟩

theorem Change.maxFileSize_eq {vacated occupied : List Location}
    (h : Change now m vacated occupied m') : m'.maxFileSize = m.maxFileSize := by
  cases h <;> rfl

/-- What is true of each object at its place stays so behind a change, if it outlives the marking of
a change, the alteration of an object and its move, and if it is true of new objects. -/
theorem Change.each {P : Location → Object → Prop} {vacated occupied : List Location}
    (h : Change now m vacated occupied m') (hm : m.Each P)
    (htouch : ∀ l o, P l o → P l (o.touch now))
    (hnew : ∀ l ∈ occupied, ∀ mode contents, (∀ data, contents = .file data → data = []) →
      P l (m.newObject now mode contents))
    (halter : ∀ l o o', P l o → Alters m.maxFileSize o o' → P l o')
    (hmove : ∀ source target o, m.find? source = some o → target ∈ occupied →
      ∀ l o, P l o → P (relocate source target l) o) : m'.Each P := by
  cases h with
  | add hparent hfree hempty => exact hm.insert htouch (hnew _ (by simp) _ _ hempty)
  | alter ho halters =>
    have haltered := halter _ _ _ (hm _ (mem_of_find? ho)) halters
    exact hm.modify fun _ _ => haltered
  | remove ho hempty => exact hm.erase.touchParent htouch
  | @move source target o ho hparent hne houtside hreplace =>
    have hmoved := Each.move (hm.erase (l := target)) (hmove source target o ho (by simp))
    exact (hmoved.touchParent htouch).touchParent htouch

/-- A change keeps all objects consistent. -/
theorem Change.each_isConsistent {vacated occupied : List Location}
    (h : Change now m vacated occupied m') (hm : m.Each fun _ o => o.IsConsistent m.maxFileSize) :
    m'.Each fun _ o => o.IsConsistent m.maxFileSize :=
  h.each hm (fun _ _ ho => ho.touch now) (fun _ _ _ _ hempty => isConsistent_newObject _ hempty)
    (fun _ _ _ ho halters => halters.isConsistent ho) fun _ _ _ _ _ _ _ ho => ho

/-- A change that brings only plain places keeps all places plain. -/
theorem Change.each_isPlain {vacated occupied : List Location}
    (h : Change now m vacated occupied m') (hm : m.Each fun l _ => l.IsPlain)
    (hoccupied : ∀ l ∈ occupied, l.IsPlain) : m'.Each fun l _ => l.IsPlain := by
  refine h.each hm (fun _ _ hl => hl) (fun l hl _ _ _ => hoccupied l hl) (fun _ _ _ hl _ => hl) ?_
  intro source target o ho htarget l _ hl
  exact (hm _ (mem_of_find? ho)).relocate (hoccupied target htarget) hl

theorem Change.eachConsistent {vacated occupied : List Location}
    (h : Change now m vacated occupied m') (hm : m.EachConsistent)
    (hoccupied : ∀ l ∈ occupied, l.IsPlain) : m'.EachConsistent := by
  unfold EachConsistent
  rw [h.maxFileSize_eq]
  exact fun e he => ⟨h.each_isPlain (fun e he => (hm e he).1) hoccupied e he,
    h.each_isConsistent (fun e he => (hm e he).2) e he⟩

theorem EachConsistent.perform {α : Type} (h : m.EachConsistent) (now : Time) {r : StoreRequest α}
    (hpaths : ∀ p ∈ r.paths, p.FromRoot) : (perform now r m).2.EachConsistent := by
  rcases perform_change now r m with heq | hchange
  · rwa [heq]
  · refine hchange.eachConsistent h fun l hl => ?_
    obtain ⟨p, hp, rfl⟩ := StoreRequest.mem_paths_of_occupied hl
    exact (hpaths p hp).isPlain

/-! ## Stores that requests make -/

theorem kept_built : Kept Built := fun now r _ h => h.perform now r

theorem kept_maxFileSize (limit : Nat) : Kept fun m => m.maxFileSize = limit := by
  intro α now r m h
  rcases perform_change now r m with heq | hchange
  · rwa [heq]
  · exact hchange.maxFileSize_eq.trans h

theorem Built.maxFileSize_le (h : m.Built) : m.maxFileSize ≤ addressLimit := by
  induction h with
  | empty now isReadOnly maxFileSize => exact Nat.min_le_right maxFileSize addressLimit
  | perform _ now r ih => exact (kept_maxFileSize _ now r _ rfl).symm ▸ ih

/-- Wherever the objects of a store lie, they agree with their contents. -/
theorem Built.isConsistent (h : m.Built) {o : Object} (ho : m.find? l = some o) :
    o.IsConsistent m.maxFileSize := by
  suffices heach : m.Each fun _ o => o.IsConsistent m.maxFileSize from heach _ (mem_of_find? ho)
  clear ho
  induction h with
  | empty now isReadOnly maxFileSize =>
    exact fun e he => (eachConsistent_empty now isReadOnly maxFileSize e he).2
  | @perform m _ _ now r ih =>
    rw [kept_maxFileSize m.maxFileSize now r m rfl]
    rcases perform_change now r m with heq | hchange
    · rwa [heq]
    · exact hchange.each_isConsistent ih

/-! ## Numbers -/

/-- The numbers of all objects. -/
def numbers (m : Memory) : List Nat := m.objects.map fun e => e.2.fileId

theorem numbers_modify {f : Object → Object}
    (hf : ∀ o, (l, o) ∈ m.objects → (f o).fileId = o.fileId) :
    (m.modify l f).numbers = m.numbers := by
  unfold numbers Memory.modify
  rw [List.map_map]
  refine List.map_congr_left fun ⟨k, o⟩ he => ?_
  by_cases hk : k = l
  · subst hk
    simpa using hf o he
  · simp [hk]

theorem numbers_touchParent : (m.touchParent now l).numbers = m.numbers :=
  numbers_modify fun _ _ => rfl

/-- A change gives the next number to a new object, or no number at all. -/
theorem Change.numbers {vacated occupied : List Location} (h : Change now m vacated occupied m')
    (hm : m.IsTree) : (m'.numbers = m.nextId :: m.numbers ∧ m'.nextId = m.nextId + 1) ∨
      (m'.numbers.Sublist m.numbers ∧ m'.nextId = m.nextId) := by
  have herase : ∀ l, (m.erase l).numbers.Sublist m.numbers := fun l =>
    List.filter_sublist.map fun e : Location × Object => e.2.fileId
  cases h with
  | add hparent hfree hempty =>
    exact Or.inl ⟨by rw [Memory.insert, numbers_touchParent]; rfl, rfl⟩
  | @alter l o o' ho halters =>
    have hsame : (m.modify l fun _ => o').numbers = m.numbers := by
      refine numbers_modify fun x hx => ?_
      rw [hm.eq_of_mem hx (mem_of_find? ho), halters.fileId_eq]
    exact Or.inr ⟨by rw [hsame], rfl⟩
  | remove ho hempty => exact Or.inr ⟨by rw [numbers_touchParent]; exact herase _, rfl⟩
  | @move source target o ho hparent hne houtside hreplace =>
    have hmoved : ((m.erase target).move source target).numbers = (m.erase target).numbers := by
      rw [Memory.numbers, objects_move, List.map_map]
      rfl
    exact Or.inr ⟨by rw [numbers_touchParent, numbers_touchParent, hmoved]; exact herase _, rfl⟩

/-! ## Sequences of requests -/

end Memory

/-- A request at a point in time. -/
structure StoreCall where
  {answer : Type}
  now : Time
  request : StoreRequest answer

namespace Memory

variable {m : Memory}

/-- The store behind a call, whether it succeeds or fails. -/
def next (m : Memory) (c : StoreCall) : Memory := (perform c.now c.request m).2

/-- The store behind a sequence of calls. -/
def after (m : Memory) (calls : List StoreCall) : Memory := calls.foldl next m

/-- The numbers that objects get on the way, one for each time that an object has a number which no
object had before the call. -/
def given (m : Memory) : List StoreCall → List Nat
  | [] => []
  | c :: rest => (m.next c).numbers.filter (· ∉ m.numbers) ++ (m.next c).given rest

/-- The numbers that a call gives are new, and they do not come back. -/
theorem IsTree.given_next (hm : m.IsTree) (c : StoreCall) :
    m.nextId ≤ (m.next c).nextId ∧ ((m.next c).numbers.filter (· ∉ m.numbers)).Nodup ∧
      ∀ f ∈ (m.next c).numbers, f ∉ m.numbers → m.nextId ≤ f ∧ f < (m.next c).nextId := by
  have hnext : (m.next c).IsTree := hm.perform c.now c.request
  have hnodup : ((m.next c).numbers.filter (· ∉ m.numbers)).Nodup := hnext.ids_nodup.filter _
  rcases perform_change c.now c.request m with heq | hchange
  · refine ⟨Nat.le_of_eq (congrArg nextId heq).symm, hnodup, fun f hf hnew => ?_⟩
    rw [next, heq] at hf
    exact absurd hf hnew
  · rcases hchange.numbers hm with ⟨hnumbers, hid⟩ | ⟨hsub, hid⟩
    · refine ⟨by unfold next; omega, hnodup, fun f hf hnew => ?_⟩
      unfold next at hf ⊢
      rw [hnumbers] at hf
      rw [hid, (List.mem_cons.1 hf).resolve_right hnew]
      exact ⟨Nat.le_refl _, Nat.lt_succ_self _⟩
    · exact ⟨by unfold next; omega, hnodup, fun f hf hnew => absurd (hsub.subset hf) hnew⟩

/-- No number is given that an object had at first, and none is given twice. -/
theorem IsTree.nodup_given (hm : m.IsTree) (calls : List StoreCall) :
    (m.given calls).Nodup ∧ ∀ f ∈ m.given calls, m.nextId ≤ f := by
  induction calls generalizing m with
  | nil => simp [given]
  | cons c calls ih =>
    obtain ⟨hle, hnodup, hrange⟩ := hm.given_next c
    obtain ⟨hrest, hbound⟩ := ih (hm.perform c.now c.request)
    have hfirst : ∀ f ∈ (m.next c).numbers.filter (· ∉ m.numbers),
        m.nextId ≤ f ∧ f < (m.next c).nextId := by
      intro f hf
      rw [List.mem_filter, decide_eq_true_eq] at hf
      exact hrange f hf.1 hf.2
    unfold given
    constructor
    · -- What is given later lies beyond the next number behind this call.
      refine List.nodup_append.2 ⟨hnodup, hrest, fun f hf f' hf' heq => ?_⟩
      have := (hfirst f hf).2
      have : (m.next c).nextId ≤ f' := hbound f' hf'
      omega
    · intro f hf
      rcases List.mem_append.1 hf with hf | hf
      · exact (hfirst f hf).1
      · exact Nat.le_trans hle (hbound f hf)

/-! ## Soundness -/

/-- The children are all objects in a directory, each of them once. -/
structure Lists (m : Memory) (directory : Location) (children : List Child) : Prop where
  names_nodup : (children.map Child.name).Nodup
  mem_iff : ∀ l a, (∃ c ∈ children, l = directory ++ [.name c.name] ∧ c.metadata = a) ↔
    l.parent? = some directory ∧ ∃ o, m.find? l = some o ∧ o.metadata = a

/-- The objects form a tree, they agree with their contents, their numbers tell them apart, and
directories list what lies in them. -/
structure IsSound (m : Memory) : Prop where
  root : ∃ o, m.find? Location.root = some o ∧ o.isDirectory = true
  parent : ∀ l o, m.find? l = some o → l ≠ Location.root →
    ∃ k d, l.parent? = some k ∧ m.find? k = some d ∧ d.isDirectory = true
  consistent : ∀ l o, m.find? l = some o → o.IsConsistent m.maxFileSize
  numbers_distinct : ∀ l k o o', m.find? l = some o → m.find? k = some o' →
    o.fileId = o'.fileId → l = k
  numbers_lt : ∀ l o, m.find? l = some o → o.fileId < m.nextId
  lists : ∀ l o, m.find? l = some o → o.isDirectory = true →
    ∃ children, m.readDirectory l = .ok children ∧ m.Lists l children

theorem readDirectory_eq_ok {l : Location} {o : Object} (ho : m.find? l = some o)
    (hdirectory : o.isDirectory = true) : ∃ children, m.readDirectory l = .ok children := by
  unfold readDirectory
  rw [get_eq_ok_iff.2 ho]
  exact ⟨_, if_neg (by simp [hdirectory])⟩

/-- Where all places are plain, a directory lists everything in it. -/
theorem EachConsistent.lists (h : m.EachConsistent) (hm : m.IsTree) {l : Location}
    {children : List Child} (hchildren : m.readDirectory l = .ok children) :
    m.Lists l children := by
  refine ⟨hm.nodup_names hchildren, fun k a => ⟨?_, ?_⟩⟩
  · rintro ⟨c, hc, rfl, rfl⟩
    obtain ⟨o, ho, hmetadata⟩ := (mem_readDirectory_iff hchildren).1 hc
    exact ⟨Location.parent?_append_singleton l (by simp), o, hm.find?_eq_some_iff.2 ho, hmetadata⟩
  · rintro ⟨hparent, o, ho, rfl⟩
    obtain ⟨c, -, rfl⟩ := Location.parent?_eq_some_iff.1 hparent
    obtain ⟨⟨d, hd, -⟩, -⟩ := readDirectory_ok hchildren
    have hplain := (h _ (mem_of_find? hd)).1.names_of_append (h _ (mem_of_find? ho)).1
    obtain ⟨name, rfl⟩ := hplain c (by simp)
    exact ⟨⟨name, o.metadata⟩, (mem_readDirectory_iff hchildren).2 ⟨o, mem_of_find? ho, rfl⟩, rfl,
      rfl⟩

theorem EachConsistent.isSound (h : m.EachConsistent) (hm : m.IsTree) : m.IsSound where
  root := by
    obtain ⟨o, ho, hdirectory⟩ := hm.root_mem
    exact ⟨o, hm.find?_eq_some_iff.2 ho, hdirectory⟩
  parent := by
    intro l o ho hne
    obtain ⟨k, d, hk, hd, hdirectory⟩ := (hm.parent_mem _ (mem_of_find? ho)).resolve_left hne
    exact ⟨k, d, hk, hm.find?_eq_some_iff.2 hd, hdirectory⟩
  consistent := fun l o ho => (h _ (mem_of_find? ho)).2
  numbers_distinct := by
    intro l k o o' ho ho' heq
    exact hm.eq_of_idAt_eq (idAt_eq_some_iff.2 ⟨o, ho, heq⟩) (idAt_eq_some_iff.2 ⟨o', ho', rfl⟩)
  numbers_lt := fun l o ho => hm.ids_lt _ (mem_of_find? ho)
  lists := by
    intro l o ho hdirectory
    obtain ⟨children, hchildren⟩ := readDirectory_eq_ok ho hdirectory
    exact ⟨children, hchildren, h.lists hm hchildren⟩

/-- What holds behind one call holds behind every sequence of calls. -/
theorem EachConsistent.after (h : m.EachConsistent) (hm : m.IsTree) {calls : List StoreCall}
    (hpaths : ∀ c ∈ calls, ∀ p ∈ c.request.paths, p.FromRoot) :
    (m.after calls).EachConsistent ∧ (m.after calls).IsTree ∧
      (m.after calls).maxFileSize = m.maxFileSize := by
  induction calls generalizing m with
  | nil => exact ⟨h, hm, rfl⟩
  | cons c calls ih =>
    rw [List.forall_mem_cons] at hpaths
    have hlimit : (m.next c).maxFileSize = m.maxFileSize :=
      (perform_change c.now c.request m).elim (congrArg maxFileSize) Change.maxFileSize_eq
    rw [← hlimit]
    exact ih (h.perform c.now hpaths.1) (hm.perform c.now c.request) hpaths.2

/-- Behind any sequence of calls, be they successes or failures, a store is sound, its size limit
is the one chosen at first, and no number has been given to a second object. -/
theorem isSound_after (now : Time) (isReadOnly : Bool) (limit : Nat) (calls : List StoreCall)
    (hpaths : ∀ c ∈ calls, ∀ p ∈ c.request.paths, p.FromRoot) :
    let start := empty now isReadOnly limit
    (start.after calls).IsSound ∧
      (start.after calls).maxFileSize = min limit addressLimit ∧
      (start.numbers ++ start.given calls).Nodup := by
  intro start
  have htree : start.IsTree := isTree_empty now isReadOnly limit
  have hconsistent : start.EachConsistent := eachConsistent_empty now isReadOnly limit
  obtain ⟨hend, htree', hlimit⟩ := hconsistent.after htree hpaths
  refine ⟨hend.isSound htree', hlimit, ?_⟩
  obtain ⟨hnodup, hbound⟩ := htree.nodup_given calls
  refine List.nodup_append.2 ⟨htree.ids_nodup, hnodup, fun f hf f' hf' heq => ?_⟩
  obtain ⟨e, he, rfl⟩ := List.mem_map.1 hf
  have := htree.ids_lt e he
  have := hbound f' hf'
  omega

/-- A directory with a file in it is not removed but moved, and a link takes its old place. -/
theorem isSound_after_rename :
    let a := Path.root.child [0x61]
    let b := Path.root.child [0x62]
    let calls : List StoreCall :=
      [⟨⟨1⟩, .makeDirectory a 0o7777⟩, ⟨⟨2⟩, .create (a.child [0x63]) 0o644 true⟩,
        ⟨⟨3⟩, .write (a.child [0x63]) 1 [7]⟩, ⟨⟨4⟩, .removeDirectory a⟩, ⟨⟨5⟩, .rename a b⟩,
        ⟨⟨6⟩, .symlink a [0x62]⟩]
    (∀ c ∈ calls, ∀ p ∈ c.request.paths, p.FromRoot) ∧
      let start := empty ⟨0⟩ false 5
      (start.after calls).IsSound ∧
        (start.after calls).maxFileSize = min 5 addressLimit ∧
        (start.numbers ++ start.given calls).Nodup := by
  intro a b calls
  have ha : a.FromRoot := .entry .root (show Path.root.entry [0x61] = .ok a by decide)
  have hb : b.FromRoot := .entry .root (show Path.root.entry [0x62] = .ok b by decide)
  have hc : (a.child [0x63]).FromRoot :=
    .entry ha (show a.entry [0x63] = .ok (a.child [0x63]) by decide)
  have hpaths : ∀ c ∈ calls, ∀ p ∈ c.request.paths, p.FromRoot := by
    simp [calls, StoreRequest.paths, ha, hb, hc]
  exact ⟨hpaths, isSound_after ⟨0⟩ false 5 calls hpaths⟩

end Memory

end NfsServer
