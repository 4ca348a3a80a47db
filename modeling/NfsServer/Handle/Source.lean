import NfsServer.Nfs.Attributes

/-!
# Fresh handles

A cache does not make its handles: it draws them from a source, of which no more is known than that
a handle that is drawn is new (`HandleSource`).  What handles are drawn is open, and also how long
they are.  Any handles can come first in a source as long as they differ from each other
(`HandleSource.ofList`), so that whatever holds for all sources holds for every sequence of new
handles.  The handles of one source are plain numbers (`HandleSource.serials`).
-/

namespace NfsServer

/-- Handles that are drawn one after another. -/
structure HandleSource where
  /-- The handle that is drawn when so many have been drawn before. -/
  draw : Nat → FileHandle
  /-- A handle that is drawn is new. -/
  fresh : ∀ {m n : Nat}, draw m = draw n → m = n

/-! ## Numbered handles -/

namespace FileHandle

/-- The bytes of a text of ASCII characters. -/
def ascii (s : String) : Bytes := s.toList.map fun c => UInt8.ofNat c.toNat

/-- The `n`-th numbered handle: a word, and the number with at least nine digits. -/
def serial (n : Nat) : FileHandle :=
  let digits := (Nat.repr n).toList
  ⟨ascii "handle-" ++ List.replicate (9 - digits.length) 0x30 ++
    digits.map fun c => UInt8.ofNat c.toNat⟩

/-- The number in the text of a handle. -/
def number (h : FileHandle) : Nat :=
  (h.bytes.drop 7).foldl (fun n b => 10 * n + (b.toNat - 0x30)) 0

theorem foldl_digits (cs : List Char) (hcs : ∀ c ∈ cs, c.isDigit = true) (n : Nat) :
    (cs.map fun c => UInt8.ofNat c.toNat).foldl (fun n b => 10 * n + (b.toNat - 0x30)) n =
      Nat.ofDigitChars 10 cs n := by
  induction cs generalizing n with
  | nil => rfl
  | cons c cs ih =>
    have hdigit : c.toNat ≤ 57 := by
      have h := hcs c List.mem_cons_self
      rw [Char.isDigit, Bool.and_eq_true, decide_eq_true_eq, decide_eq_true_eq] at h
      exact h.2
    have hbyte : (UInt8.ofNat c.toNat).toNat = c.toNat :=
      UInt8.toNat_ofNat_of_lt (Nat.lt_of_le_of_lt hdigit (by decide))
    rw [List.map_cons, List.foldl_cons, Nat.ofDigitChars_cons, hbyte]
    exact ih (fun c' hc' => hcs c' (List.mem_cons_of_mem c hc')) _

theorem number_serial (n : Nat) : (serial n).number = n := by
  have hzeros : ∀ k, (List.replicate k (0x30 : UInt8)).foldl
      (fun n b => 10 * n + (b.toNat - 0x30)) 0 = 0 := by
    intro k
    induction k with
    | zero => rfl
    | succ k ih => exact ih
  have hdigits : ∀ c ∈ (Nat.repr n).toList, c.isDigit = true := by
    intro c hc
    rw [Nat.toList_repr] at hc
    exact Nat.isDigit_of_mem_toDigits (by decide) (by decide) hc
  unfold number serial
  dsimp only
  rw [List.append_assoc, List.drop_left' (by rfl), List.foldl_append, hzeros,
    foldl_digits _ hdigits, Nat.toList_repr, Nat.ofDigitChars_ten_toDigits]

theorem serial_injective {m n : Nat} (h : serial m = serial n) : m = n := by
  rw [← number_serial m, h, number_serial]

end FileHandle

namespace HandleSource

/-- The numbered handles, beginning with the first. -/
def serials : HandleSource where
  draw n := .serial (n + 1)
  fresh h := Nat.succ.inj (FileHandle.serial_injective h)

/-! ## Sources that begin with given handles -/

/-- The length of the longest of some handles. -/
def longest (handles : List FileHandle) : Nat :=
  handles.foldr (fun h n => max h.bytes.length n) 0

theorem length_le_longest {handles : List FileHandle} {h : FileHandle} (hh : h ∈ handles) :
    h.bytes.length ≤ longest handles := by
  induction handles with
  | nil => cases hh
  | cons first rest ih =>
    rw [longest, List.foldr_cons, ← longest]
    rcases List.mem_cons.1 hh with rfl | hh
    · exact Nat.le_max_left _ _
    · exact Nat.le_trans (ih hh) (Nat.le_max_right _ _)

/-- Some handle that is longer than all of the given ones, a different one for each number. -/
def beyond (handles : List FileHandle) (n : Nat) : FileHandle :=
  ⟨List.replicate (longest handles + n + 1) 0⟩

theorem length_beyond (handles : List FileHandle) (n : Nat) :
    (beyond handles n).bytes.length = longest handles + n + 1 := List.length_replicate

theorem ne_beyond {handles : List FileHandle} {h : FileHandle} (hh : h ∈ handles) (n : Nat) :
    h ≠ beyond handles n := by
  intro heq
  have hle := length_le_longest hh
  rw [heq, length_beyond] at hle
  omega

/-- A source that begins with given handles, which only have to differ. -/
def ofList (handles : List FileHandle) (h : handles.Nodup) : HandleSource where
  draw n := (handles[n]?).getD (beyond handles n)
  fresh := by
    intro m n heq
    by_cases hm : m < handles.length <;> by_cases hn : n < handles.length
    · rw [List.getElem?_eq_getElem hm, List.getElem?_eq_getElem hn] at heq
      exact (List.getElem_inj h).1 heq
    · rw [List.getElem?_eq_getElem hm, List.getElem?_eq_none (Nat.not_lt.1 hn)] at heq
      exact absurd heq (ne_beyond (List.getElem_mem hm) n)
    · rw [List.getElem?_eq_none (Nat.not_lt.1 hm), List.getElem?_eq_getElem hn] at heq
      exact absurd heq.symm (ne_beyond (List.getElem_mem hn) m)
    · rw [List.getElem?_eq_none (Nat.not_lt.1 hm), List.getElem?_eq_none (Nat.not_lt.1 hn)] at heq
      have hlength := congrArg (fun h : FileHandle => h.bytes.length) heq
      simp only [Option.getD_none, length_beyond] at hlength
      omega

theorem draw_ofList {handles : List FileHandle} (h : handles.Nodup) {n : Nat}
    (hn : n < handles.length) : (ofList handles h).draw n = handles[n] := by
  show (handles[n]?).getD (beyond handles n) = handles[n]
  rw [List.getElem?_eq_getElem hn, Option.getD_some]

/-- A source that begins with random version 4 UUIDs. -/
def uuids : HandleSource :=
  ofList
    [⟨[0x8F, 0x3A, 0x61, 0xD2, 0x5C, 0x07, 0x4E, 0x19,
        0xB4, 0x2B, 0x90, 0xEE, 0x13, 0x7D, 0xA6, 0x58]⟩,
      ⟨[0x1C, 0xE9, 0x47, 0x0A, 0xB3, 0x66, 0x41, 0xF8,
        0x8D, 0x05, 0x72, 0x3F, 0xC8, 0x91, 0x2E, 0xD4]⟩,
      ⟨[0xD6, 0x20, 0x9B, 0x7E, 0x34, 0xF1, 0x4A, 0x83,
        0xA9, 0xCE, 0x58, 0x16, 0x4D, 0xB7, 0x62, 0x0F]⟩,
      ⟨[0x47, 0xB5, 0x0C, 0xF3, 0x98, 0x2D, 0x4F, 0x6A,
        0x97, 0xE1, 0x3B, 0xAC, 0x75, 0x1E, 0xD0, 0x89]⟩]
    (by decide)

end HandleSource

end NfsServer
