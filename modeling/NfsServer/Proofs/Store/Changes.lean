import NfsServer.Store.Memory

/-!
# Changes of a store in memory

A request either leaves the store as it was or changes it in one of four ways (`Memory.Change`): an
object is added, altered, removed or moved.  `perform_change` says which of them a request makes;
what is true of the four changes is therefore true of every request.  One such fact is that an
object keeps its place unless it lies at or below a place that the request vacates
(`perform_keeps`).
-/

namespace NfsServer

theorem Except.bind_eq_ok {ε α β : Type} {x : Except ε α} {f : α → Except ε β} {b : β}
    (h : x >>= f = .ok b) : ∃ a, x = .ok a ∧ f a = .ok b := by
  cases x with
  | error e => cases h
  | ok a => exact ⟨a, rfl, h⟩

theorem Except.check_eq_ok {ε β : Type} {c : Prop} [Decidable c] {e : ε} {f : Unit → Except ε β}
    {b : β} (h : (if c then Except.error e >>= f else f ()) = .ok b) : ¬c ∧ f () = .ok b := by
  split at h
  · cases h
  · next hc => exact ⟨hc, h⟩

namespace Memory

variable {m m' : Memory} {now : Time} {l k : Location}

/-! ## Places and objects -/

theorem get_eq_ok_iff {o : Object} : m.get l = .ok o ↔ m.find? l = some o := by
  unfold get
  split <;> simp_all

theorem mem_of_find? {o : Object} (h : m.find? l = some o) : (l, o) ∈ m.objects := by
  obtain ⟨before, after, heq, -⟩ := List.lookup_eq_some_iff.1 h
  rw [heq]
  exact List.mem_append_right _ List.mem_cons_self

theorem find?_isSome_of_mem {o : Object} (h : (l, o) ∈ m.objects) : (m.find? l).isSome := by
  rw [find?, List.lookup_isSome_iff]
  exact ⟨(l, o), h, beq_self_eq_true l⟩

/-- What tells the object at a place from all others. -/
def idAt (m : Memory) (l : Location) : Option Nat := (m.find? l).map Object.fileId

theorem idAt_eq_some_iff {f : Nat} :
    m.idAt l = some f ↔ ∃ o, m.find? l = some o ∧ o.fileId = f := by
  rw [idAt, Option.map_eq_some_iff]

theorem idAt_of_mem {o : Object} (h : (l, o) ∈ m.objects) : ∃ f, m.idAt l = some f := by
  obtain ⟨o', ho'⟩ := Option.isSome_iff_exists.1 (find?_isSome_of_mem h)
  exact ⟨o'.fileId, idAt_eq_some_iff.2 ⟨o', ho', rfl⟩⟩

theorem stat_eq_ok_iff {a : Metadata} :
    m.stat l = .ok a ↔ ∃ o, m.find? l = some o ∧ o.metadata = a := by
  unfold stat get
  cases m.find? l with
  | none => simp
  | some o => simp

theorem idAt_of_stat {a : Metadata} (h : m.stat l = .ok a) : ∃ f, m.idAt l = some f := by
  obtain ⟨o, ho, -⟩ := stat_eq_ok_iff.1 h
  exact ⟨o.fileId, idAt_eq_some_iff.2 ⟨o, ho, rfl⟩⟩

theorem idAt_modify (f : Object → Object)
    (hf : ∀ o, m.find? l = some o → (f o).fileId = o.fileId) :
    (m.modify l f).idAt k = m.idAt k := by
  unfold idAt
  rw [find?_modify]
  by_cases hk : k = l
  · subst hk
    rw [if_pos rfl, Option.map_map]
    cases ho : m.find? k with
    | none => rfl
    | some o => exact congrArg some (hf o ho)
  · rw [if_neg hk]

theorem idAt_touchParent : (m.touchParent now l).idAt k = m.idAt k :=
  idAt_modify _ fun _ _ => rfl

theorem idAt_insert_of_ne {mode : UInt32} {contents : Contents} (hk : k ≠ l) :
    (m.insert now l mode contents).idAt k = m.idAt k := by
  rw [insert, idAt_touchParent]
  unfold idAt find?
  rw [List.lookup_cons, beq_false_of_ne hk]

theorem idAt_insert_self {mode : UInt32} {contents : Contents} :
    (m.insert now l mode contents).idAt l = some m.nextId := by
  rw [insert, idAt_touchParent]
  unfold idAt find?
  rw [List.lookup_cons_self]
  rfl

theorem idAt_erase_of_ne (hk : k ≠ l) : (m.erase l).idAt k = m.idAt k := by
  unfold idAt
  rw [find?_erase, if_neg hk]

/-- Where a place goes when `source` becomes `target`. -/
def relocate (source target l : Location) : Location :=
  if source.isPrefixOf l then target ++ l.drop source.length else l

theorem relocate_append (source target rest : Location) :
    relocate source target (source ++ rest) = target ++ rest := by
  rw [relocate, if_pos (List.isPrefixOf_iff_prefix.2 (List.prefix_append source rest)),
    List.drop_left]

theorem relocate_eq_self {source : Location} (target : Location) (h : ¬source <+: l) :
    relocate source target l = l := by
  rw [relocate, if_neg (by rwa [List.isPrefixOf_iff_prefix])]

/-- A move leads over no components but those of the target and those there were. -/
theorem mem_of_mem_relocate {source target : Location} {c : Component}
    (h : c ∈ relocate source target l) : c ∈ target ∨ c ∈ l := by
  by_cases hbelow : source <+: l
  · obtain ⟨rest, rfl⟩ := hbelow
    rw [relocate_append] at h
    exact (List.mem_append.1 h).imp_right (List.mem_append_right source)
  · rw [relocate_eq_self target hbelow] at h
    exact Or.inr h

theorem objects_move (m : Memory) (source target : Location) :
    (m.move source target).objects = m.objects.map fun e => (relocate source target e.1, e.2) := rfl

/-- What lies neither below `source` nor below `target` is not concerned by a move. -/
theorem find?_move_of_not_below {source target : Location} (hsource : ¬source <+: l)
    (htarget : ¬target <+: l) : (m.move source target).find? l = m.find? l := by
  unfold find?
  rw [objects_move]
  induction m.objects with
  | nil => rfl
  | cons entry rest ih =>
    obtain ⟨k, o⟩ := entry
    rw [List.map_cons, List.lookup_cons, List.lookup_cons, ih]
    by_cases hk : source <+: k
    · obtain ⟨suffix, rfl⟩ := hk
      have hmoved : l ≠ target ++ suffix := fun h => htarget (h ▸ List.prefix_append target suffix)
      have hplace : l ≠ source ++ suffix := fun h => hsource (h ▸ List.prefix_append source suffix)
      rw [relocate_append, beq_false_of_ne hmoved, beq_false_of_ne hplace]
    · rw [relocate_eq_self target hk]

/-! ## Facts about each object -/

/-- Every object has the property at its place. -/
def Each (m : Memory) (P : Location → Object → Prop) : Prop := ∀ e ∈ m.objects, P e.1 e.2

namespace Each

variable {P : Location → Object → Prop}

theorem modify (h : m.Each P) {f : Object → Object} (hf : ∀ o, P l o → P l (f o)) :
    (m.modify l f).Each P := by
  intro e he
  obtain ⟨⟨k, o⟩, he', rfl⟩ := List.mem_map.1 he
  by_cases hk : k = l
  · subst hk
    simpa using hf o (h _ he')
  · simpa [hk] using h _ he'

theorem touchParent (h : m.Each P) (htouch : ∀ k o, P k o → P k (o.touch now)) :
    (m.touchParent now l).Each P :=
  h.modify (htouch _)

theorem insert (h : m.Each P) (htouch : ∀ k o, P k o → P k (o.touch now)) {mode : UInt32}
    {contents : Contents} (hnew : P l (m.newObject now mode contents)) :
    (m.insert now l mode contents).Each P := by
  refine touchParent (m := { m with
    objects := (l, m.newObject now mode contents) :: m.objects, nextId := m.nextId + 1 }) ?_ htouch
  exact List.forall_mem_cons.2 ⟨hnew, h⟩

theorem erase (h : m.Each P) : (m.erase l).Each P := fun e he => h e (List.mem_filter.1 he).1

theorem move (h : m.Each P) {source target : Location}
    (hmove : ∀ k o, P k o → P (relocate source target k) o) : (m.move source target).Each P := by
  intro e he
  rw [objects_move] at he
  obtain ⟨e', he', rfl⟩ := List.mem_map.1 he
  exact hmove _ _ (h e' he')

end Each

/-! ## Requests that succeed -/

theorem create_ok {mode : UInt32} {exclusive : Bool} {a : Metadata}
    (h : m.create now l mode exclusive = .ok (a, m')) :
    m.checkParent l = .ok () ∧
      ((m.find? l = none ∧ a = (m.newObject now mode (.file [])).metadata ∧
          m' = m.insert now l mode (.file [])) ∨
        (exclusive = false ∧ (∃ o, m.find? l = some o ∧ o.kind = .file ∧ a = o.metadata) ∧
          m' = m)) := by
  obtain ⟨⟨⟩, hparent, h⟩ := Except.bind_eq_ok h
  refine ⟨hparent, ?_⟩
  split at h
  · next hfree =>
    cases h
    exact Or.inl ⟨hfree, rfl, rfl⟩
  · next o ho =>
    split at h
    · cases h
    · next hexclusive =>
      split at h
      · next hkind =>
        cases h
        exact Or.inr ⟨by simpa using hexclusive, ⟨o, ho, hkind, rfl⟩, rfl⟩
      · cases h
      · cases h

theorem addNew_ok {mode : UInt32} {contents : Contents} {a : Metadata}
    (h : m.addNew now l mode contents = .ok (a, m')) :
    m.checkParent l = .ok () ∧ m.find? l = none ∧
      a = (m.newObject now mode contents).metadata ∧ m' = m.insert now l mode contents := by
  obtain ⟨⟨⟩, hparent, h⟩ := Except.bind_eq_ok h
  split at h
  · next hfree =>
    cases h
    exact ⟨hparent, hfree, rfl, rfl⟩
  · cases h

theorem write_ok {offset : Nat} {new : Bytes} {a : Metadata}
    (h : m.write now l offset new = .ok (a, m')) :
    offset + new.length ≤ m.maxFileSize ∧ ∃ o data, m.find? l = some o ∧ o.contents = .file data ∧
      checkRoom data (offset + new.length) = .ok () ∧
      let written := overwrite data offset new
      let o' := { o with contents := .file written, size := written.length }.touch now
      a = o'.metadata ∧ m' = m.modify l fun _ => o' := by
  unfold write at h
  obtain ⟨hsize, h⟩ := Except.check_eq_ok h
  obtain ⟨o, ho, h⟩ := Except.bind_eq_ok h
  split at h
  · next data hdata =>
    obtain ⟨⟨⟩, hroom, h⟩ := Except.bind_eq_ok h
    cases h
    exact ⟨Nat.le_of_not_lt hsize, o, data, get_eq_ok_iff.1 ho, hdata, hroom, rfl, rfl⟩
  · cases h

theorem setAttributes_ok {changes : AttributeChanges} {a : Metadata}
    (h : m.setAttributes now l changes = .ok (a, m')) :
    ∃ o o', a = o'.metadata ∧ (m' = m.modify l fun _ => o') ∧ m.find? l = some o ∧
      o'.fileId = o.fileId ∧ o'.kind = o.kind ∧
      o'.mode = (changes.mode.map permissions).getD o.mode ∧
      ((changes.size = none ∧ o'.contents = o.contents ∧ o'.size = o.size) ∨
        ∃ data size, changes.size = some size ∧ size ≤ m.maxFileSize ∧ o.contents = .file data ∧
          o'.contents = .file (resize data size) ∧ o'.size = size) := by
  unfold setAttributes at h
  obtain ⟨hsize, h⟩ := Except.check_eq_ok h
  obtain ⟨o, ho, h⟩ := Except.bind_eq_ok h
  replace ho := get_eq_ok_iff.1 ho
  dsimp only at h
  split at h
  · next hnone =>
    cases h
    exact ⟨o, _, rfl, rfl, ho, rfl, rfl, rfl, Or.inl ⟨hnone, rfl, rfl⟩⟩
  · next size data hsome hdata =>
    obtain ⟨⟨⟩, -, h⟩ := Except.bind_eq_ok h
    cases h
    have hle : size ≤ m.maxFileSize := by simpa [hsome] using hsize
    exact ⟨o, _, rfl, rfl, ho, rfl, rfl, rfl, Or.inr ⟨data, size, hsome, hle, hdata, rfl, rfl⟩⟩
  · cases h

theorem removeFile_ok (h : m.removeFile now l = .ok m') :
    ∃ o, m.find? l = some o ∧ o.isDirectory = false ∧ m' = (m.erase l).touchParent now l := by
  obtain ⟨o, ho, h⟩ := Except.bind_eq_ok h
  obtain ⟨hkind, h⟩ := Except.check_eq_ok h
  cases h
  exact ⟨o, get_eq_ok_iff.1 ho, Bool.eq_false_iff.2 hkind, rfl⟩

theorem removeDirectory_ok (h : m.removeDirectory now l = .ok m') :
    ∃ o, m.find? l = some o ∧ o.isDirectory = true ∧ l.parent? ≠ none ∧
      m.hasChildren l = false ∧ m' = (m.erase l).touchParent now l := by
  obtain ⟨o, ho, h⟩ := Except.bind_eq_ok h
  obtain ⟨hkind, h⟩ := Except.check_eq_ok h
  obtain ⟨hparent, h⟩ := Except.check_eq_ok h
  obtain ⟨hchildren, h⟩ := Except.check_eq_ok h
  cases h
  exact ⟨o, get_eq_ok_iff.1 ho, by simpa using hkind, by simpa using hparent,
    Bool.eq_false_iff.2 hchildren, rfl⟩

theorem rename_ok {source target : Location} (h : m.rename now source target = .ok m') :
    ∃ o, m.find? source = some o ∧ m.checkParent target = .ok () ∧
      ((source = target ∧ m' = m) ∨
        (source ≠ target ∧ ¬source <+: target ∧ m.checkReplace o.isDirectory target = .ok () ∧
          m' = (((m.erase target).move source target).touchParent now source).touchParent now
            target)) := by
  obtain ⟨o, ho, h⟩ := Except.bind_eq_ok h
  obtain ⟨⟨⟩, hparent, h⟩ := Except.bind_eq_ok h
  refine ⟨o, get_eq_ok_iff.1 ho, hparent, ?_⟩
  split at h
  · next heq =>
    cases h
    exact Or.inl ⟨heq, rfl⟩
  · next hne =>
    obtain ⟨hinside, h⟩ := Except.check_eq_ok h
    obtain ⟨⟨⟩, hreplace, h⟩ := Except.bind_eq_ok h
    cases h
    exact Or.inr ⟨hne, by rwa [List.isPrefixOf_iff_prefix] at hinside, hreplace, rfl⟩

/-! ## The four changes -/

/-- What a request makes of an object when it changes its data or its attributes: the object keeps
its number and its kind, only files get other data, and these stay within a limit. -/
structure Alters (limit : Nat) (o o' : Object) : Prop where
  fileId_eq : o'.fileId = o.fileId
  kind_eq : o'.kind = o.kind
  mode_eq : o'.mode = o.mode ∨ ∃ mode, o'.mode = permissions mode
  contents : (o'.contents = o.contents ∧ o'.size = o.size) ∨
    ∃ data data', o.contents = .file data ∧ o'.contents = .file data' ∧ o'.size = data'.length ∧
      data'.length ≤ max data.length limit

theorem length_resize (data : Bytes) (n : Nat) : (resize data n).length = n := by
  simp only [resize, List.length_append, List.length_take, List.length_replicate]
  omega

theorem length_overwrite (data : Bytes) (offset : Nat) (new : Bytes) :
    (overwrite data offset new).length = max data.length (offset + new.length) := by
  simp only [overwrite, List.length_append, length_resize, List.length_drop]
  omega

theorem alters_of_write {offset : Nat} {new : Bytes} {a : Metadata}
    (h : m.write now l offset new = .ok (a, m')) :
    ∃ o o', m.find? l = some o ∧ Alters m.maxFileSize o o' ∧ a = o'.metadata ∧
      m' = m.modify l fun _ => o' := by
  obtain ⟨hsize, o, data, ho, hdata, -, ha, hm'⟩ := write_ok h
  refine ⟨o, _, ho, ?_, ha, hm'⟩
  have hlength := length_overwrite data offset new
  have hle : (overwrite data offset new).length ≤ max data.length m.maxFileSize := by omega
  exact ⟨rfl, rfl, Or.inl rfl, Or.inr ⟨data, overwrite data offset new, hdata, rfl, rfl, hle⟩⟩

theorem alters_of_setAttributes {changes : AttributeChanges} {a : Metadata}
    (h : m.setAttributes now l changes = .ok (a, m')) :
    ∃ o o', m.find? l = some o ∧ Alters m.maxFileSize o o' ∧ a = o'.metadata ∧
      m' = m.modify l fun _ => o' := by
  obtain ⟨o, o', ha, hm', ho, hid, hkind, hmode, hcontents⟩ := setAttributes_ok h
  refine ⟨o, o', ho, ⟨hid, hkind, ?_, ?_⟩, ha, hm'⟩
  · rw [hmode]
    cases changes.mode with
    | none => exact Or.inl rfl
    | some mode => exact Or.inr ⟨mode, rfl⟩
  · refine hcontents.imp (fun h => h.2) ?_
    rintro ⟨data, size, -, hle, hold, hnew, hsize⟩
    have hlength := length_resize data size
    exact ⟨data, resize data size, hold, hnew, by omega, by omega⟩

/-- The ways in which a request changes a store, with the places that it vacates and the places
that it may occupy. -/
inductive Change (now : Time) (m : Memory) : List Location → List Location → Memory → Prop
  /-- A new object at a free place in an existing directory; a file is empty at first. -/
  | add {l : Location} {mode : UInt32} {contents : Contents} (hparent : m.checkParent l = .ok ())
      (hfree : m.find? l = none) (hempty : ∀ data, contents = .file data → data = []) :
      Change now m [] [l] (m.insert now l mode contents)
  /-- An object with other data or attributes. -/
  | alter {l : Location} {o o' : Object} (ho : m.find? l = some o)
      (halters : Alters m.maxFileSize o o') : Change now m [] [] (m.modify l fun _ => o')
  /-- A place that becomes free; a directory has been empty. -/
  | remove {l : Location} {o : Object} (ho : m.find? l = some o)
      (hempty : o.isDirectory = true → l.parent? ≠ none ∧ m.hasChildren l = false) :
      Change now m [l] [] ((m.erase l).touchParent now l)
  /-- Another place for an object and all below it. -/
  | move {source target : Location} {o : Object} (ho : m.find? source = some o)
      (hparent : m.checkParent target = .ok ()) (hne : source ≠ target)
      (houtside : ¬source <+: target) (hreplace : m.checkReplace o.isDirectory target = .ok ()) :
      Change now m [source, target] [target]
        ((((m.erase target).move source target).touchParent now source).touchParent now target)

end Memory

/-- The places from which a request takes objects away. -/
def StoreRequest.vacated {α : Type} : StoreRequest α → List Location
  | .removeFile p => [p.location]
  | .removeDirectory p => [p.location]
  | .rename source target => [source.location, target.location]
  | _ => []

/-- The places at which a request may put objects. -/
def StoreRequest.occupied {α : Type} : StoreRequest α → List Location
  | .create p _ _ => [p.location]
  | .makeDirectory p _ => [p.location]
  | .symlink p _ => [p.location]
  | .rename _ target => [target.location]
  | _ => []

/-- Whether a request only asks. -/
def StoreRequest.IsQuery {α : Type} : StoreRequest α → Prop
  | .isReadOnly | .maxFileSize | .stat _ | .read _ _ _ | .readDirectory _ | .readLink _ | .space =>
    True
  | _ => False

namespace Memory

variable {m m' : Memory} {now : Time} {l : Location}

/-- A request that only asks leaves the store as it is. -/
theorem perform_of_isQuery {α : Type} {r : StoreRequest α} (h : r.IsQuery) :
    (perform now r m).2 = m := by
  cases r <;> first | rfl | exact h.elim

theorem answer_eq_ok {α : Type} {x : Except StoreError (α × Memory)} {a : α}
    (h : (m.answer x).1 = .ok a) : ∃ m', x = .ok (a, m') ∧ (m.answer x).2 = m' := by
  cases x with
  | error e => cases h
  | ok am =>
    obtain rfl := Except.ok.inj h
    exact ⟨am.2, rfl, rfl⟩

theorem answer_snd {α : Type} (m : Memory) {x : Except StoreError (α × Memory)} :
    (m.answer x).2 = m ∨ ∃ a, x = .ok (a, (m.answer x).2) := by
  cases x with
  | error e => exact Or.inl rfl
  | ok a => exact Or.inr ⟨a.1, rfl⟩

theorem answer_of_error {α : Type} {x : Except StoreError (α × Memory)} {e : StoreError}
    (h : (m.answer x).1 = .error e) : (m.answer x).2 = m := by
  cases x with
  | error e' => rfl
  | ok am => cases h

theorem answerUnit_eq_ok {x : Except StoreError Memory} (h : (m.answerUnit x).1 = .ok ()) :
    x = .ok (m.answerUnit x).2 := by
  cases x with
  | error e => cases h
  | ok m' => rfl

theorem answerUnit_of_error {x : Except StoreError Memory} {e : StoreError}
    (h : (m.answerUnit x).1 = .error e) : (m.answerUnit x).2 = m := by
  cases x with
  | error e' => rfl
  | ok m' => cases h

theorem answerUnit_snd (m : Memory) {x : Except StoreError Memory} :
    (m.answerUnit x).2 = m ∨ x = .ok (m.answerUnit x).2 := by
  cases x with
  | error e => exact Or.inl rfl
  | ok m' => exact Or.inr rfl

theorem perform_create_change (now : Time) (p : Path) (mode : UInt32) (exclusive : Bool)
    (m : Memory) : let m' := (perform now (.create p mode exclusive) m).2
      m' = m ∨ Change now m [] [p.location] m' := by
  apply (answer_snd m).elim Or.inl
  rintro ⟨a, h⟩
  obtain ⟨hparent, ⟨hfree, -, heq⟩ | ⟨-, -, heq⟩⟩ := create_ok h
  · exact Or.inr (heq ▸ .add hparent hfree fun _ hdata => (Contents.file.inj hdata).symm)
  · exact Or.inl heq

theorem addNew_change (now : Time) (l : Location) (mode : UInt32) {contents : Contents}
    (hcontents : ∀ data, contents ≠ .file data) (m : Memory) :
    let m' := (m.answer (m.addNew now l mode contents)).2
    m' = m ∨ Change now m [] [l] m' := by
  apply (answer_snd m).imp_right
  rintro ⟨a, h⟩
  obtain ⟨hparent, hfree, -, heq⟩ := addNew_ok h
  exact heq ▸ .add hparent hfree fun data hdata => absurd hdata (hcontents data)

end Memory

/-- Whether a request that fails leaves the store as it was. -/
def StoreRequest.IsAtomic {α : Type} (r : StoreRequest (Except StoreError α)) : Prop :=
  ∀ (now : Time) (m : Memory) (e : StoreError), (Memory.perform now r m).1 = .error e →
    (Memory.perform now r m).2 = m

namespace StoreRequest

theorem isAtomic_write (p : Path) (offset : Nat) (data : Bytes) :
    (write p offset data).IsAtomic := fun _ _ _ => Memory.answer_of_error

theorem isAtomic_removeFile (p : Path) : (removeFile p).IsAtomic :=
  fun _ _ _ => Memory.answerUnit_of_error

theorem isAtomic_removeDirectory (p : Path) : (removeDirectory p).IsAtomic :=
  fun _ _ _ => Memory.answerUnit_of_error

theorem isAtomic_rename (source target : Path) : (rename source target).IsAtomic :=
  fun _ _ _ => Memory.answerUnit_of_error

theorem isAtomic_setAttributes (p : Path) (changes : AttributeChanges) :
    (setAttributes p changes).IsAtomic := fun _ _ _ => Memory.answer_of_error

theorem isAtomic_symlink (p : Path) (target : Bytes) : (symlink p target).IsAtomic :=
  fun _ _ _ => Memory.answer_of_error

end StoreRequest

namespace Memory

variable {m m' : Memory} {now : Time} {l : Location}

/-- A request leaves the store as it is or makes one of the four changes. -/
theorem perform_change {α : Type} (now : Time) (r : StoreRequest α) (m : Memory) :
    (perform now r m).2 = m ∨ Change now m r.vacated r.occupied (perform now r m).2 := by
  cases r with
  | isReadOnly => exact Or.inl rfl
  | maxFileSize => exact Or.inl rfl
  | stat p => exact Or.inl rfl
  | read p offset count => exact Or.inl rfl
  | readDirectory p => exact Or.inl rfl
  | readLink p => exact Or.inl rfl
  | space => exact Or.inl rfl
  | create p mode exclusive => exact perform_create_change now p mode exclusive m
  | makeDirectory p mode => exact addNew_change now p.location mode (by simp) m
  | symlink p target => exact addNew_change now p.location 0o777 (by simp) m
  | write p offset data =>
    apply (answer_snd m).imp_right
    rintro ⟨a, h⟩
    obtain ⟨o, o', ho, halters, -, heq⟩ := alters_of_write h
    exact heq ▸ .alter ho halters
  | setAttributes p changes =>
    apply (answer_snd m).imp_right
    rintro ⟨a, h⟩
    obtain ⟨o, o', ho, halters, -, heq⟩ := alters_of_setAttributes h
    exact heq ▸ .alter ho halters
  | removeFile p =>
    apply (answerUnit_snd m).imp_right
    intro h
    obtain ⟨o, ho, hfile, heq⟩ := removeFile_ok h
    exact heq ▸ .remove ho fun hdirectory => absurd (hfile.symm.trans hdirectory) Bool.false_ne_true
  | removeDirectory p =>
    apply (answerUnit_snd m).imp_right
    intro h
    obtain ⟨o, ho, -, hparent, hempty, heq⟩ := removeDirectory_ok h
    exact heq ▸ .remove ho fun _ => ⟨hparent, hempty⟩
  | rename source target =>
    apply (answerUnit_snd m).elim Or.inl
    intro h
    obtain ⟨o, ho, hparent, ⟨-, heq⟩ | ⟨hne, houtside, hreplace, heq⟩⟩ := rename_ok h
    · exact Or.inl heq
    · exact Or.inr (heq ▸ .move ho hparent hne houtside hreplace)

/-! ## What is made -/

/-- The object that was to be created is there, be it new or not. -/
theorem idAt_of_create {mode : UInt32} {exclusive : Bool} {a : Metadata}
    (h : (m.answer (m.create now l mode exclusive)).1 = .ok a) :
    ∃ f, (m.answer (m.create now l mode exclusive)).2.idAt l = some f := by
  obtain ⟨m', hcreate, hm'⟩ := answer_eq_ok h
  rw [hm']
  obtain ⟨-, ⟨-, -, rfl⟩ | ⟨-, ⟨o, ho, -⟩, rfl⟩⟩ := create_ok hcreate
  · exact ⟨m.nextId, idAt_insert_self⟩
  · exact ⟨o.fileId, idAt_eq_some_iff.2 ⟨o, ho, rfl⟩⟩

theorem idAt_of_addNew {mode : UInt32} {contents : Contents} {a : Metadata}
    (h : (m.answer (m.addNew now l mode contents)).1 = .ok a) :
    ∃ f, (m.answer (m.addNew now l mode contents)).2.idAt l = some f := by
  obtain ⟨m', hadd, hm'⟩ := answer_eq_ok h
  rw [hm']
  obtain ⟨-, -, -, rfl⟩ := addNew_ok hadd
  exact ⟨m.nextId, idAt_insert_self⟩

/-! ## What keeps its place -/

/-- Outside the given places and what lies below them, every object keeps its place. -/
def Keeps (m m' : Memory) (vacated : List Location) : Prop :=
  ∀ l f, (∀ k ∈ vacated, ¬k <+: l) → m.idAt l = some f → m'.idAt l = some f

theorem Change.keeps {vacated occupied : List Location} (h : Change now m vacated occupied m') :
    m.Keeps m' vacated := by
  intro l f hoff hf
  cases h with
  | add _ hfree _ =>
    obtain ⟨o, ho, -⟩ := idAt_eq_some_iff.1 hf
    rw [idAt_insert_of_ne fun heq => by rw [heq, hfree] at ho; cases ho]
    exact hf
  | alter ho halters =>
    rw [idAt_modify _ fun x hx => by rw [halters.fileId_eq, Option.some.inj (hx.symm.trans ho)]]
    exact hf
  | @remove k o _ _ =>
    have hne : l ≠ k := fun heq => hoff k List.mem_cons_self (heq ▸ List.prefix_rfl)
    rw [idAt_touchParent, idAt_erase_of_ne hne]
    exact hf
  | @move source target o _ _ _ _ _ =>
    have hsource : ¬source <+: l := hoff source List.mem_cons_self
    have htarget : ¬target <+: l := hoff target (List.mem_cons_of_mem _ List.mem_cons_self)
    have hne : l ≠ target := fun heq => htarget (heq ▸ List.prefix_rfl)
    rw [idAt_touchParent, idAt_touchParent, idAt, find?_move_of_not_below hsource htarget, ← idAt,
      idAt_erase_of_ne hne]
    exact hf

/-- An object keeps its place unless a request takes it away from there. -/
theorem perform_keeps {α : Type} (now : Time) (r : StoreRequest α) (m : Memory) :
    m.Keeps (perform now r m).2 r.vacated := by
  rcases perform_change now r m with heq | hchange
  · rw [heq]
    exact fun _ _ _ hf => hf
  · exact hchange.keeps

/-- Every request keeps the property of a store. -/
def Kept (Q : Memory → Prop) : Prop :=
  ∀ {α : Type} (now : Time) (r : StoreRequest α) (m : Memory), Q m → Q (perform now r m).2

theorem Change.isReadOnly_eq {vacated occupied : List Location}
    (h : Change now m vacated occupied m') : m'.isReadOnly = m.isReadOnly := by
  cases h <;> rfl

/-- A store that takes changes goes on taking them. -/
theorem kept_isReadOnly (v : Bool) : Kept fun m => m.isReadOnly = v := by
  intro α now r m h
  rcases perform_change now r m with heq | hchange
  · rwa [heq]
  · exact hchange.isReadOnly_eq.trans h

end Memory

end NfsServer
