import NfsServer.Proofs.Store.Data
import NfsServer.Proofs.Store.Renaming

/-!
# Change times

Every request stamps what it changes: an object that is there behind the request bears the time of
the request as its change time, or it was there before just as it is and with the same objects in it
(`Memory.perform_stamps`).  It may have moved, for a move does not change the object that moves but
the directories that it leaves and enters.  Stamps add up (`Memory.Stamps.trans`), so that a change
time that has not grown is proof that nothing has happened.
-/

namespace NfsServer.Memory

variable {m m' m'' : Memory} {now : Time} {l : Location} {P : Time → Prop}

/-- The object was there before as it is, maybe at another place, and it had the same objects in
it. -/
def Untouched (m m' : Memory) (l : Location) (o : Object) : Prop :=
  ∃ k, m.find? k = some o ∧ ∀ c, m'.idAt (l ++ [c]) = m.idAt (k ++ [c])

/-- Every object that has changed on the way from one store to another bears a change time of which
`P` holds. -/
def Stamps (P : Time → Prop) (m m' : Memory) : Prop :=
  ∀ l o, m'.find? l = some o → P o.changed ∨ m.Untouched m' l o

theorem Stamps.refl (P : Time → Prop) (m : Memory) : m.Stamps P m :=
  fun l _ ho => Or.inr ⟨l, ho, fun _ => rfl⟩

theorem Stamps.trans (h : m.Stamps P m') (h' : m'.Stamps P m'') : m.Stamps P m'' := by
  intro l o ho
  rcases h' l o ho with hstamp | ⟨k', ho', hchildren'⟩
  · exact Or.inl hstamp
  · rcases h k' o ho' with hstamp | ⟨k, ho, hchildren⟩
    · exact Or.inl hstamp
    · exact Or.inr ⟨k, ho, fun c => (hchildren' c).trans (hchildren c)⟩

theorem Stamps.mono {Q : Time → Prop} (h : m.Stamps P m') (himp : ∀ t, P t → Q t) :
    m.Stamps Q m' :=
  fun l o ho => (h l o ho).imp_left (himp _)

/-! ## Changes -/

/-- A change that leaves all objects where they are and marks the directory that holds a place. -/
theorem stamps_touchParent {above : Location} (habove : l.parent? = some above)
    (hfind : ∀ k o, m'.find? k = some o → o.changed = now ∨ m.find? k = some o)
    (hid : ∀ k, k ≠ l → m'.idAt k = m.idAt k) :
    m.Stamps (· = now) (m'.touchParent now l) := by
  intro k o ho
  rw [find?_touchParent m' now habove, Option.map_eq_some_iff] at ho
  obtain ⟨o, ho, rfl⟩ := ho
  by_cases hk : l.parent? = some k
  · rw [if_pos hk]
    exact Or.inl rfl
  · rw [if_neg hk]
    refine (hfind k o ho).imp_right fun hold => ⟨k, hold, fun c => ?_⟩
    rw [idAt_touchParent, hid]
    rintro rfl
    obtain rfl := Location.eq_of_parent?_append_singleton habove
    exact hk habove

theorem stamps_insert {mode : UInt32} {contents : Contents} (hparent : m.checkParent l = .ok ()) :
    m.Stamps (· = now) (m.insert now l mode contents) := by
  obtain ⟨above, -, habove, -⟩ := checkParent_eq_ok_iff.1 hparent
  refine stamps_touchParent habove (fun k o ho => ?_) fun k hk => ?_
  · by_cases hk : k = l
    · subst hk
      rw [find?, List.lookup_cons_self] at ho
      obtain rfl := Option.some.inj ho
      exact Or.inl rfl
    · rw [find?, List.lookup_cons, beq_false_of_ne hk] at ho
      exact Or.inr ho
  · rw [idAt, find?, List.lookup_cons, beq_false_of_ne hk]
    rfl

theorem stamps_erase {above : Location} (habove : l.parent? = some above) :
    m.Stamps (· = now) ((m.erase l).touchParent now l) := by
  refine stamps_touchParent habove (fun k o ho => Or.inr ?_) fun k hk => idAt_erase_of_ne hk
  rw [find?_erase] at ho
  split at ho
  · cases ho
  · exact ho

theorem stamps_modify {o o' : Object} (ho : m.find? l = some o) (hid : o'.fileId = o.fileId)
    (hchanged : o'.changed = now) : m.Stamps (· = now) (m.modify l fun _ => o') := by
  have hreplaced := replaced_modify ho o'
  intro k x hx
  by_cases hk : k = l
  · subst hk
    obtain rfl := Option.some.inj (hreplaced.here.symm.trans hx)
    exact Or.inl hchanged
  · rw [hreplaced.elsewhere k hk] at hx
    refine Or.inr ⟨k, hx, fun c => idAt_modify _ fun x hx => ?_⟩
    rw [hid, Option.some.inj (hx.symm.trans ho)]

theorem stamps_moveOver {source target : Location} (hm : m.IsTree) (h : m.CanMove source target)
    (hne : source ≠ target) : m.Stamps (· = now) (m.moveOver now source target) := by
  have hmoved := moved_moveOver hm h hne now
  obtain ⟨above, habove⟩ := hm.parent_of_canMove h hne
  obtain ⟨above', -, habove', -⟩ := h.parent_exists
  -- A place directly below `k` that lies at or below one of the two places is that place itself.
  have hchild : ∀ {place above k : Location} {c : Component}, place.parent? = some above →
      ¬place <+: k → place <+: k ++ [c] → place.parent? = some k := by
    intro place above k c hplace hoff hbelow
    obtain rfl := (List.prefix_concat_iff.1 hbelow).resolve_right hoff
    obtain rfl := Location.eq_of_parent?_append_singleton hplace
    exact hplace
  intro k o ho
  by_cases htarget : target <+: k
  · obtain ⟨rest, rfl⟩ := htarget
    rw [hmoved.moved] at ho
    refine Or.inr ⟨source ++ rest, ho, fun c => ?_⟩
    rw [List.append_assoc, List.append_assoc, idAt, hmoved.moved, idAt]
  · by_cases hsource : source <+: k
    · obtain ⟨rest, rfl⟩ := hsource
      rw [hmoved.vacated] at ho
      cases ho
    · rw [hmoved.elsewhere k hsource htarget, Option.map_eq_some_iff] at ho
      obtain ⟨o, ho, rfl⟩ := ho
      by_cases hparents : source.parent? = some k ∨ target.parent? = some k
      · rw [touchEither, if_pos hparents]
        exact Or.inl rfl
      · rw [touchEither, if_neg hparents]
        rw [not_or] at hparents
        refine Or.inr ⟨k, ho, fun c => ?_⟩
        have hsource' := fun hbelow => hparents.1 (hchild (c := c) habove hsource hbelow)
        have htarget' := fun hbelow => hparents.2 (hchild (c := c) habove' htarget hbelow)
        exact idAt_of_touchEither (hmoved.elsewhere (k ++ [c]) hsource' htarget')

/-! ## Requests -/

/-- The root is a directory, and all else lies in one. -/
theorem IsTree.parent_of_not_directory (hm : m.IsTree) {o : Object} (ho : m.find? l = some o)
    (hfile : o.isDirectory = false) : ∃ above, l.parent? = some above := by
  rcases hm.parent_mem _ (mem_of_find? ho) with hroot | ⟨above, -, habove, -⟩
  · obtain ⟨r, hr, hdirectory⟩ := hm.root_mem
    obtain rfl : l = Location.root := hroot
    rw [hm.eq_of_mem (mem_of_find? ho) hr, hdirectory] at hfile
    cases hfile
  · exact ⟨above, habove⟩

/-- Whatever a request changes bears the time of the request. -/
theorem perform_stamps {α : Type} (hm : m.IsTree) (now : Time) (r : StoreRequest α) :
    m.Stamps (· = now) (perform now r m).2 := by
  have hsame : ∀ {m'}, m' = m → m.Stamps (· = now) m' := fun h => h ▸ .refl _ _
  have hadd : ∀ {l mode contents},
      m.Stamps (· = now) (m.answer (m.addNew now l mode contents)).2 := by
    intro l mode contents
    rcases answer_snd m with heq | ⟨a, h⟩
    · exact hsame heq
    · obtain ⟨hparent, -, -, heq⟩ := addNew_ok h
      exact heq ▸ stamps_insert hparent
  cases r with
  | isReadOnly | maxFileSize | stat p | read p offset count | readDirectory p | readLink p
  | space => exact .refl _ m
  | makeDirectory p mode => exact hadd
  | symlink p target => exact hadd
  | create p mode exclusive =>
    rcases answer_snd m with heq | ⟨a, h⟩
    · exact hsame heq
    · obtain ⟨hparent, ⟨-, -, heq⟩ | ⟨-, -, heq⟩⟩ := create_ok h
      · exact heq ▸ stamps_insert hparent
      · exact hsame heq
  | write p offset data =>
    rcases answer_snd m with heq | ⟨a, h⟩
    · exact hsame heq
    · obtain ⟨-, o, data, ho, -, -, -, heq⟩ := write_ok h
      exact heq ▸ stamps_modify ho rfl rfl
  | setAttributes p changes =>
    rcases answer_snd m with heq | ⟨a, h⟩
    · exact hsame heq
    · obtain ⟨o, o', ho, htakes, -, heq⟩ := takesChanges_of_setAttributes h
      exact heq ▸ stamps_modify ho htakes.fileId_eq htakes.changed_eq
  | removeFile p =>
    rcases answerUnit_snd m with heq | h
    · exact hsame heq
    · obtain ⟨o, ho, hfile, heq⟩ := removeFile_ok h
      obtain ⟨above, habove⟩ := hm.parent_of_not_directory ho hfile
      exact heq ▸ stamps_erase habove
  | removeDirectory p =>
    rcases answerUnit_snd m with heq | h
    · exact hsame heq
    · obtain ⟨o, -, -, hparent, -, heq⟩ := removeDirectory_ok h
      obtain ⟨above, habove⟩ := Option.ne_none_iff_exists'.1 hparent
      exact heq ▸ stamps_erase habove
  | rename source target =>
    rcases answerUnit_snd m with heq | h
    · exact hsame heq
    · have hcan := (rename_eq_ok_iff hm).1 ⟨_, h⟩
      obtain ⟨o, -, -, ⟨-, heq⟩ | ⟨hne, -, -, heq⟩⟩ := rename_ok h
      · exact hsame heq
      · exact heq ▸ stamps_moveOver hm hcan hne

end NfsServer.Memory
