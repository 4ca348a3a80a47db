import NfsServer.Nfs.Conversion
import NfsServer.Proofs.Store.Changes

/-!
# Names and link targets stay short

In a store that gets only names and link targets that clients may send, all names and link targets
remain within the limits for both (`Memory.WithinLimits.perform`), and what is read from it is as
short.
-/

namespace NfsServer

/-! ## Places -/

namespace Location

/-- If the last component is a name, it is no longer than a name may be. -/
def HasShortName (l : Location) : Prop :=
  ∀ name, l.fileName? = some name → name.length ≤ Nfs.maxNameLength

theorem hasShortName_append_name (l : Location) {name : Bytes}
    (h : name.length ≤ Nfs.maxNameLength) : HasShortName (l ++ [.name name]) := by
  intro name' hname
  rw [fileName?, List.getLast?_concat] at hname
  obtain rfl := Option.some.inj hname
  exact h

/-- What lies below a place has its last component from below. -/
theorem HasShortName.rebase {source target : Location} (rest : Location)
    (h : HasShortName (source ++ rest)) (htarget : target.HasShortName) :
    HasShortName (target ++ rest) := by
  rcases rest.eq_nil_or_concat with rfl | ⟨front, c, rfl⟩
  · rwa [List.append_nil]
  · intro name hname
    refine h name ?_
    rw [fileName?, List.concat_eq_append, ← List.append_assoc, List.getLast?_concat] at hname ⊢
    exact hname

theorem HasShortName.relocate {source target l : Location} (h : l.HasShortName)
    (htarget : target.HasShortName) : (Memory.relocate source target l).HasShortName := by
  by_cases hprefix : source <+: l
  · obtain ⟨rest, rfl⟩ := hprefix
    rw [Memory.relocate_append]
    exact h.rebase rest htarget
  · rwa [Memory.relocate_eq_self target hprefix]

end Location

/-! ## Objects -/

/-- A link target is no longer than data that a client can send. -/
def Contents.HasShortTarget : Contents → Prop
  | .symlink target => target.length ≤ maxRecordLength
  | .file _ | .directory => True

/-- A request brings no names and link targets into a store but short ones. -/
def StoreRequest.WithinLimits {α : Type} : StoreRequest α → Prop
  | .create p _ _ | .makeDirectory p _ => p.location.HasShortName
  | .symlink p target => p.location.HasShortName ∧ target.length ≤ maxRecordLength
  | .rename _ target => target.location.HasShortName
  | _ => True

namespace Memory

variable {m m' : Memory} {now : Time} {l : Location}

/-- All names and link targets are short. -/
def WithinLimits (m : Memory) : Prop :=
  ∀ e ∈ m.objects, e.1.HasShortName ∧ e.2.contents.HasShortTarget

theorem withinLimits_empty (now : Time) (isReadOnly : Bool) (maxFileSize : Nat) :
    (empty now isReadOnly maxFileSize).WithinLimits := by
  intro e he
  obtain rfl := List.mem_singleton.1 he
  exact ⟨(fun _ hname => nomatch hname), trivial⟩

theorem length_le_of_read {offset count : Nat} {chunk : Chunk}
    (h : m.read l offset count = .ok chunk) : chunk.data.length ≤ count := by
  obtain ⟨o, -, h⟩ := Except.bind_eq_ok h
  split at h
  · cases h
    exact List.length_take_le _ _
  · cases h
  · cases h

namespace WithinLimits

theorem length_le_of_readLink (h : m.WithinLimits) {target : Bytes}
    (htarget : m.readLink l = .ok target) : target.length ≤ maxRecordLength := by
  obtain ⟨o, ho, htarget⟩ := Except.bind_eq_ok htarget
  have hshort := (h _ (mem_of_find? (get_eq_ok_iff.1 ho))).2
  split at htarget
  · next heq =>
    cases htarget
    rwa [heq] at hshort
  · cases htarget

theorem each (h : m.WithinLimits) :
    m.Each fun l o => l.HasShortName ∧ o.contents.HasShortTarget := h

theorem modify (h : m.WithinLimits) {f : Object → Object}
    (hf : ∀ o, o.contents.HasShortTarget → (f o).contents.HasShortTarget) :
    (m.modify l f).WithinLimits :=
  h.each.modify fun o ho => ⟨ho.1, hf o ho.2⟩

theorem touchParent (h : m.WithinLimits) : (m.touchParent now l).WithinLimits :=
  h.each.touchParent fun _ _ => id

theorem insert (h : m.WithinLimits) {mode : UInt32} {contents : Contents} (hl : l.HasShortName)
    (hcontents : contents.HasShortTarget) : (m.insert now l mode contents).WithinLimits :=
  h.each.insert (fun _ _ => id) ⟨hl, hcontents⟩

theorem erase (h : m.WithinLimits) : (m.erase l).WithinLimits := h.each.erase

theorem move (h : m.WithinLimits) {source target : Location} (htarget : target.HasShortName) :
    (m.move source target).WithinLimits :=
  h.each.move fun _ _ hk => ⟨hk.1.relocate htarget, hk.2⟩

theorem answer {α : Type} (h : m.WithinLimits) {x : Except StoreError (α × Memory)}
    (hx : ∀ a m', x = .ok (a, m') → m'.WithinLimits) : (m.answer x).2.WithinLimits := by
  cases x with
  | error e => exact h
  | ok a => exact hx a.1 a.2 rfl

theorem answerUnit (h : m.WithinLimits) {x : Except StoreError Memory}
    (hx : ∀ m', x = .ok m' → m'.WithinLimits) : (m.answerUnit x).2.WithinLimits := by
  cases x with
  | error e => exact h
  | ok m' => exact hx m' rfl

theorem addNew (h : m.WithinLimits) {mode : UInt32} {contents : Contents} (hl : l.HasShortName)
    (hcontents : contents.HasShortTarget) :
    (m.answer (m.addNew now l mode contents)).2.WithinLimits := by
  refine h.answer fun a m' hadd => ?_
  obtain ⟨-, -, -, rfl⟩ := addNew_ok hadd
  exact h.insert hl hcontents

/-- A request that brings only short names and targets keeps all of them short. -/
theorem perform {α : Type} (h : m.WithinLimits) (now : Time) {r : StoreRequest α}
    (hr : r.WithinLimits) : (perform now r m).2.WithinLimits := by
  cases r with
  | isReadOnly | maxFileSize | stat | read | readDirectory | readLink | space => exact h
  | makeDirectory p mode => exact h.addNew hr trivial
  | symlink p target => exact h.addNew hr.1 hr.2
  | create p mode exclusive =>
    refine h.answer fun a m' hcreate => ?_
    obtain ⟨-, ⟨-, -, rfl⟩ | ⟨-, -, rfl⟩⟩ := create_ok hcreate
    · exact h.insert hr trivial
    · exact h
  | write p offset data =>
    refine h.answer fun a m' hwrite => ?_
    obtain ⟨-, o, old, -, -, -, -, rfl⟩ := write_ok hwrite
    exact h.modify fun _ _ => trivial
  | setAttributes p changes =>
    refine h.answer fun a m' hset => ?_
    obtain ⟨o, o', ho, halters, -, rfl⟩ := alters_of_setAttributes hset
    refine h.modify fun _ _ => ?_
    rcases halters.contents with ⟨hsame, -⟩ | ⟨data, data', -, hnew, -⟩
    · rw [hsame]
      exact (h _ (mem_of_find? ho)).2
    · rw [hnew]
      trivial
  | removeFile p =>
    refine h.answerUnit fun m' hremove => ?_
    obtain ⟨o, -, -, rfl⟩ := removeFile_ok hremove
    exact h.erase.touchParent
  | removeDirectory p =>
    refine h.answerUnit fun m' hremove => ?_
    obtain ⟨o, -, -, -, -, rfl⟩ := removeDirectory_ok hremove
    exact h.erase.touchParent
  | rename source target =>
    refine h.answerUnit fun m' hrename => ?_
    obtain ⟨o, -, -, ⟨-, rfl⟩ | ⟨-, -, -, rfl⟩⟩ := rename_ok hrename
    · exact h
    · exact (h.erase.move hr).touchParent.touchParent

end WithinLimits

end Memory

end NfsServer
