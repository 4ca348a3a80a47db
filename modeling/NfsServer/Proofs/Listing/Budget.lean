import Mathlib.Algebra.Order.BigOperators.Group.List
import NfsServer.Proofs.Listing.Page
import NfsServer.Proofs.Nfs.Staleness
import NfsServer.Proofs.Rpc.Call

/-!
# Pages fill their budgets

A page is the longest part of what is left of a listing that keeps within the sizes that a client
allows (`Page.fills_of`).  The sizes are reckoned entry by entry before the page is written, and for
a page with handles even before there are any; they are the sizes on the wire, or bounds for these
(`length_encode_page`, `length_encode_attach`).  So a page that is sent is never larger than the
client allows, and a client that gets none has allowed too little (`Server.pages_fill_budgets`).
-/

namespace NfsServer

/-! ## Sizes on the wire -/

theorem Format.length_pad (bs : Bytes) : (pad bs).length = bs.length + padding bs.length := by
  rw [pad, List.length_append, List.length_replicate]

theorem Format.length_pad_le {bs : Bytes} {n : Nat} (h : bs.length ≤ 4 * n) :
    (pad bs).length ≤ 4 * n := by
  rw [length_pad, padding]
  omega

namespace Nfs

theorem length_encode_attributes (a : FileAttributes) : (encode a).length = 84 := by
  simp only [encode, Wire.format, Format.encode, Format.enumerator, List.length_append,
    Bytes.length_bigEndian]

theorem length_encode_entryPlus (e : EntryPlus) :
    (encode e).length = (encode (e.fileId, e.name, e.cookie)).length +
      (encode e.attributes).length + (encode e.handle).length := by
  simp only [encode, Wire.format, Format.encode, List.length_append, Bytes.length_bigEndian]
  omega

/-- A page is as long as what is reckoned for all pages and its entries behind their marks. -/
theorem length_encode_page {ε : Type} [Wire ε] (attributes : FileAttributes)
    (verifier : FixedBytes 8) (entries : List ε) (endOfList : Bool) :
    (encode (⟨some attributes, verifier, entries, endOfList⟩ : DirectoryPage ε)).length =
      Page.overhead + (entries.map fun e => 4 + (encode e).length).sum := by
  have hattributes : (Wire.format.encode attributes).length = 84 :=
    length_encode_attributes attributes
  have hverifier : (Format.pad verifier.val).length = 8 := by
    rw [Format.length_pad, verifier.property]
    rfl
  have hpage : encode (⟨some attributes, verifier, entries, endOfList⟩ : DirectoryPage ε) =
      (Bytes.bigEndian 4 1 ++ Wire.format.encode attributes) ++ (Format.pad verifier.val ++
        ((entries.flatMap fun e => Bytes.bigEndian 4 1 ++ encode e) ++ Bytes.bigEndian 4 0 ++
          Bytes.bigEndian 4 endOfList.toNat)) := rfl
  rw [hpage]
  simp only [List.length_append, List.length_flatMap, Bytes.length_bigEndian, hattributes,
    hverifier, Page.overhead]
  omega

end Nfs

theorem Page.length_encode_fields (e : ListedEntry) (cookie : UInt64) :
    (encode (e.fileId, e.name, cookie)).length = directoryBytes e := by
  simp only [encode, Wire.format, Format.encode, List.length_append, Bytes.length_bigEndian,
    Format.length_pad, directoryBytes]
  omega

/-! ## Handles -/

/-- An entry without its handle. -/
def Nfs.EntryPlus.withoutHandle (e : EntryPlus) : EntryPlus := { e with handle := none }

/-- A short handle takes no more than the room that is kept for it. -/
theorem Nfs.length_encode_attach {e : EntryPlus}
    (h : ∀ handle ∈ e.handle, handle.bytes.length ≤ PageBudget.maxHandleLength)
    (directoryCount maxCount : UInt32) :
    4 + (encode e).length ≤
      Page.entryBytes (.withHandles directoryCount maxCount) e.withoutHandle := by
  have hbefore := length_encode_entryPlus e.withoutHandle
  have hafter := length_encode_entryPlus e
  have hnone : (encode (none : Option FileHandle)).length = 4 := rfl
  have hhandle : (encode e.handle).length ≤ 4 + (4 + PageBudget.maxHandleLength) := by
    cases hcase : e.handle with
    | none =>
      rw [hnone]
      omega
    | some handle =>
      have hlength := Format.length_pad_le (n := 16) (h handle hcase)
      have hsome : encode (some handle) =
          Bytes.bigEndian 4 1 ++
            (Bytes.bigEndian 4 handle.bytes.length ++ Format.pad handle.bytes) := rfl
      rw [hsome]
      simp only [List.length_append, Bytes.length_bigEndian, PageBudget.maxHandleLength]
      omega
  have hfields : (encode (e.withoutHandle.fileId, e.withoutHandle.name,
      e.withoutHandle.cookie)).length = (encode (e.fileId, e.name, e.cookie)).length := rfl
  have hattributes : (encode e.withoutHandle.attributes).length =
      (encode e.attributes).length := rfl
  have hwithout : (encode e.withoutHandle.handle).length = 4 := hnone
  have hreserve : (PageBudget.withHandles directoryCount maxCount).handleReserve =
      4 + PageBudget.maxHandleLength := rfl
  rw [Page.entryBytes, hreserve]
  omega

/-! ## Cutting pages -/

namespace Page

variable {ε : Type} [Wire ε]

/-- The entries from an index on, each with its index. -/
def remaining (l : Listing) (start : Nat) : List (ListedEntry × Nat) :=
  (l.entries.drop start).zipIdx start

/-- The entry of a page for an entry of a listing and its index. -/
def made (make : ListedEntry → UInt64 → ε) (e : ListedEntry × Nat) : ε :=
  make e.1 (UInt64.ofNat (e.2 + 1))

/-- The entries keep within a budget behind `used` bytes, of which `directoryUsed` are numbers,
names and cookies. -/
def AllowsBehind (budget : PageBudget) (make : ListedEntry → UInt64 → ε) (used directoryUsed : Nat)
    (entries : List (ListedEntry × Nat)) : Prop :=
  used + (entries.map fun e => entryBytes budget (made make e)).sum ≤ budget.maxBytes ∧
    ∀ max ∈ budget.maxDirectoryBytes,
      directoryUsed + (entries.map fun e => directoryBytes e.1).sum ≤ max

/-- The entries keep within a budget. -/
def Allows (budget : PageBudget) (make : ListedEntry → UInt64 → ε)
    (entries : List (ListedEntry × Nat)) : Prop :=
  AllowsBehind budget make overhead 0 entries

/-- What is cut from a listing fills a budget: it is a page with the first entries that are left, as
many as keep within the budget, and there is none only if not even the first one does. -/
structure Fills (budget : PageBudget) (make : ListedEntry → UInt64 → ε) (l : Listing) (start : Nat)
    (result : Except Nfs.NfsError (Page ε)) : Prop where
  error_iff : ∀ e, result = .error e ↔
    e = .tooSmall ∧ remaining l start ≠ [] ∧ ¬Allows budget make ((remaining l start).take 1)
  entries_eq : ∀ page, result = .ok page →
    page.entries = ((remaining l start).take page.entries.length).map (made make)
  length_le : ∀ page, result = .ok page → page.entries.length ≤ (remaining l start).length
  longest : ∀ page, result = .ok page → ∀ k, 0 < k → k ≤ (remaining l start).length →
    (k ≤ page.entries.length ↔ Allows budget make ((remaining l start).take k))
  endOfList_iff : ∀ page, result = .ok page →
    (page.endOfList = true ↔ page.entries.length = (remaining l start).length)

variable {budget : PageBudget} {make : ListedEntry → UInt64 → ε}

theorem allowsBehind_cons {used directoryUsed : Nat} {e : ListedEntry × Nat}
    {entries : List (ListedEntry × Nat)} :
    AllowsBehind budget make used directoryUsed (e :: entries) ↔
      AllowsBehind budget make (used + entryBytes budget (made make e))
        (directoryUsed + directoryBytes e.1) entries := by
  unfold AllowsBehind
  rw [List.map_cons, List.map_cons, List.sum_cons, List.sum_cons, ← Nat.add_assoc]
  simp only [← Nat.add_assoc]

/-- Where entries fit, what comes before them does. -/
theorem AllowsBehind.used_le {used directoryUsed : Nat} {entries : List (ListedEntry × Nat)}
    (h : AllowsBehind budget make used directoryUsed entries) :
    used ≤ budget.maxBytes ∧ ∀ max ∈ budget.maxDirectoryBytes, directoryUsed ≤ max :=
  ⟨(Nat.le_add_right _ _).trans h.1, fun max hmax => (Nat.le_add_right _ _).trans (h.2 max hmax)⟩

theorem any_lt_eq_true_iff {limit : Option Nat} {n : Nat} :
    limit.any (· < n) = true ↔ ¬∀ max ∈ limit, n ≤ max := by
  cases limit <;> simp

/-- An entry is taken exactly if it and all before it keep within the budget. -/
theorem lt_length_cutFrom_iff (used directoryUsed cookie : Nat) (entries : List ListedEntry)
    {k : Nat} (hk : k < entries.length) :
    k < (cutFrom budget make used directoryUsed cookie entries).entries.length ↔
      AllowsBehind budget make used directoryUsed ((entries.zipIdx cookie).take (k + 1)) := by
  induction entries generalizing used directoryUsed cookie k with
  | nil => exact absurd hk (Nat.not_lt_zero k)
  | cons e rest ih =>
    rw [List.zipIdx_cons, List.take_succ_cons, allowsBehind_cons]
    unfold cutFrom
    split
    · next hdirectory =>
      exact iff_of_false (Nat.not_lt_zero k) fun hallows =>
        any_lt_eq_true_iff.1 hdirectory hallows.used_le.2
    · next hdirectory =>
      dsimp only
      split
      · next hbytes =>
        exact iff_of_false (Nat.not_lt_zero k) fun hallows =>
          absurd hallows.used_le.1 (Nat.not_le.2 hbytes)
      · next hbytes =>
        cases k with
        | zero =>
          rw [any_lt_eq_true_iff, Classical.not_not] at hdirectory
          refine iff_of_true (Nat.succ_pos _) ⟨Nat.le_of_not_lt hbytes, hdirectory⟩
        | succ k =>
          rw [List.length_cons, Nat.succ_lt_succ_iff]
          exact ih _ _ _ (Nat.lt_of_succ_lt_succ hk)

/-- A page is the longest one. -/
theorem fills_of (budget : PageBudget) (make : ListedEntry → UInt64 → ε) (l : Listing)
    (start : Nat) : Fills budget make l start (of l start budget make) := by
  have hlength : (remaining l start).length = (l.entries.drop start).length :=
    List.length_zipIdx
  have htaken : ∀ k, 0 < k → k ≤ (remaining l start).length →
      (k ≤ (cut l start budget make).entries.length ↔
        Allows budget make ((remaining l start).take k)) := by
    intro k hpos hk
    obtain ⟨k, rfl⟩ := Nat.exists_eq_succ_of_ne_zero hpos.ne'
    exact lt_length_cutFrom_iff overhead 0 start _ (hlength ▸ hk)
  have hnone : remaining l start ≠ [] →
      ((cut l start budget make).entries = [] ↔
        ¬Allows budget make ((remaining l start).take 1)) := by
    intro hne
    rw [← htaken 1 Nat.one_pos (List.length_pos_iff.2 hne), Nat.not_le, Nat.lt_one_iff,
      List.length_eq_zero_iff]
  obtain ⟨hle, hentries⟩ := cutFrom_eq budget make overhead 0 start (l.entries.drop start)
  by_cases hsmall : (cut l start budget make).entries = [] ∧ (l.entries.drop start).length ≠ 0
  · have hof : of l start budget make = .error .tooSmall := if_pos hsmall
    have hne : remaining l start ≠ [] := fun hnil => hsmall.2 (hlength ▸ congrArg List.length hnil)
    rw [hof]
    exact {
      error_iff := fun e => ⟨fun h => ⟨(Except.error.inj h).symm, hne, (hnone hne).1 hsmall.1⟩,
        fun h => by rw [h.1]⟩
      entries_eq := nofun
      length_le := nofun
      longest := nofun
      endOfList_iff := nofun }
  · have hof : of l start budget make = .ok ⟨(cut l start budget make).entries,
        decide ((cut l start budget make).entries.length = (l.entries.drop start).length)⟩ :=
      if_neg hsmall
    rw [hof]
    refine ⟨fun e => ⟨nofun, fun ⟨_, hne, hnot⟩ => ?_⟩, ?_, ?_, ?_, ?_⟩
    · exact absurd ⟨(hnone hne).2 hnot, fun hzero =>
        hne (List.length_eq_zero_iff.1 (hlength.trans hzero))⟩ hsmall
    · rintro page ⟨⟩
      exact hentries
    · rintro page ⟨⟩
      exact hlength ▸ hle
    · rintro page ⟨⟩
      exact htaken
    · rintro page ⟨⟩
      rw [hlength]
      exact decide_eq_true_iff

/-- A page with entries keeps within its budget. -/
theorem Fills.allows {l : Listing} {start : Nat} {page : Page ε}
    (h : Fills budget make l start (.ok page)) (hne : page.entries ≠ []) :
    Allows budget make ((remaining l start).take page.entries.length) :=
  (h.longest page rfl _ (List.length_pos_iff.2 hne) (h.length_le page rfl)).1 (Nat.le_refl _)

theorem Fills.entryBytes_le {l : Listing} {start : Nat} {page : Page ε}
    (h : Fills budget make l start (.ok page)) (hne : page.entries ≠ []) :
    overhead + (page.entries.map (entryBytes budget)).sum ≤ budget.maxBytes := by
  have hmade : ((remaining l start).take page.entries.length).map
      (fun e => entryBytes budget (made make e)) = page.entries.map (entryBytes budget) := by
    rw [congrArg (List.map (entryBytes budget)) (h.entries_eq page rfl), List.map_map]
    rfl
  rw [← hmade]
  exact (h.allows hne).1

end Page

/-! ## Replies -/

namespace Nfs

variable {ε : Type} {σ : Type} [Store σ]

/-- What is answered with what comes before the cutting of a page, and with how pages are cut. -/
def answerPage (page : Listing → Nat → Except NfsError (Page ε)) :
    Except (NfsError × Option FileAttributes) (FileAttributes × Listing × Nat) →
      Outcome (DirectoryPage ε) (Option FileAttributes)
  | .error (e, attributes) => .failed e attributes
  | .ok (attributes, listing, start) => pageReply attributes listing (page listing start)

theorem run_readDirectory (args : ReadDirectoryArgs) (now : Time) (b : Backend σ) :
    ((readDirectory args).run now b).1 =
      answerPage (fun listing start => Page.of listing start (.plain args.count) Page.plainEntry)
        ((openListing args.directory args.cookie args.verifier).run now b).1 := by
  unfold readDirectory
  rw [listDirectory_eq, Program.run_bind]
  rcases (openListing args.directory args.cookie args.verifier).run now b with
    ⟨⟨e, attributes⟩ | ⟨attributes, listing, start⟩, b'⟩ <;> rfl

/-- The answer without the handles in its entries. -/
def withoutHandles {φ : Type} : Outcome (DirectoryPage EntryPlus) φ →
    Outcome (DirectoryPage EntryPlus) φ
  | .ok page => .ok { page with entries := page.entries.map EntryPlus.withoutHandle }
  | .failed e detail => .failed e detail

/-- Putting handles in changes nothing else. -/
theorem yields_attachHandles (entries : List EntryPlus) (listed : List ListedEntry) :
    (attachHandles entries listed).Yields fun attached =>
      attached.map EntryPlus.withoutHandle = entries.map EntryPlus.withoutHandle := by
  induction entries generalizing listed with
  | nil => exact Program.yields_pure rfl
  | cons entry entries ih =>
    cases listed with
    | nil => exact Program.yields_pure rfl
    | cons first rest =>
      refine Program.yields_then _ fun handle => ?_
      refine (ih rest).bind fun attached hattached => Program.yields_pure ?_
      rw [List.map_cons, List.map_cons, hattached]
      rfl

/-- Entries have no handles when they are cut. -/
theorem withoutHandle_of_page {listing : Listing} {start : Nat} {budget : PageBudget}
    {page : Page EntryPlus} (h : Page.of listing start budget Page.fullEntry = .ok page) :
    page.entries.map EntryPlus.withoutHandle = page.entries := by
  rw [(Page.of_ok h).1, List.map_map]
  rfl

theorem run_readDirectoryPlus_withoutHandles (args : ReadDirectoryPlusArgs) (now : Time)
    (b : Backend σ) :
    withoutHandles ((readDirectoryPlus args).run now b).1 =
      answerPage (fun listing start =>
          Page.of listing start (.withHandles args.directoryCount args.maxCount) Page.fullEntry)
        ((openListing args.directory args.cookie args.verifier).run now b).1 := by
  unfold readDirectoryPlus
  rw [listDirectory_eq, Program.run_bind]
  rcases (openListing args.directory args.cookie args.verifier).run now b with
    ⟨⟨e, attributes⟩ | ⟨attributes, listing, start⟩, b'⟩
  · rfl
  · dsimp only [answerPage]
    cases hpage : Page.of listing start (.withHandles args.directoryCount args.maxCount)
      Page.fullEntry with
    | error e => rfl
    | ok page =>
      have hattached := (yields_attachHandles page.entries (listing.entries.drop start)).run now b'
      rw [withoutHandle_of_page hpage] at hattached
      rw [Program.run_bind, Program.run_bind]
      show Outcome.ok _ = Outcome.ok _
      rw [hattached]

/-- The answer is no error that asks for more room. -/
def HasRoom {α : Type} (r : Except NfsError α) : Prop := ∀ e, r = .error e → e ≠ .tooSmall

theorem hasRoom_ok {α : Type} (a : α) : HasRoom (.ok a : Except NfsError α) := nofun

theorem hasRoom_error {α : Type} {e : NfsError} (he : e ≠ .tooSmall) :
    HasRoom (.error e : Except NfsError α) :=
  fun _ h => Except.error.inj h ▸ he

theorem yields_attempt_hasRoom {α : Type} (r : StoreRequest (Except StoreError α)) :
    (attempt r).Yields HasRoom := by
  refine Program.yields_then _ fun a => Program.yields_pure ?_
  rcases a with e | a
  · cases e <;> exact hasRoom_error NfsError.noConfusion
  · exact hasRoom_ok _

theorem hasRoom_childEntries (directory : Path) (children : List Child) :
    HasRoom (Listing.childEntries directory children) := by
  fun_induction Listing.childEntries directory children with
  | case1 => exact hasRoom_ok []
  | case2 => exact hasRoom_error NfsError.noConfusion
  | case3 _ _ _ _ e he ih => exact hasRoom_error (ih e he)
  | case4 => exact hasRoom_ok _

theorem yields_listFrom_hasRoom (directory : Path) (m : Metadata) (cookie : UInt64)
    (verifier : FixedBytes 8) : (listFrom directory m cookie verifier).Yields HasRoom := by
  have hparent : (Listing.parentMetadata directory m).Yields HasRoom := by
    unfold Listing.parentMetadata
    split
    · exact hasRoom_ok _
    · exact yields_attempt_hasRoom _
  have hread : (Listing.read directory m).Yields HasRoom := by
    refine (yields_attempt_hasRoom _).bind fun children hchildren => ?_
    rcases children with e | children
    · exact hasRoom_error (hchildren e rfl)
    · refine hparent.bind fun parent hparent => ?_
      rcases parent with e | parent
      · exact hasRoom_error (hparent e rfl)
      · dsimp only
        split
        · next e he => exact hasRoom_error (hasRoom_childEntries directory _ e he)
        · exact hasRoom_ok _
  refine hread.bind fun listing hlisting => ?_
  rcases listing with e | listing
  · exact hasRoom_error (hlisting e rfl)
  · dsimp only
    split
    · next e he =>
      unfold Listing.resume at he
      split_ifs at he <;> obtain rfl := Except.error.inj he <;>
        exact hasRoom_error NfsError.noConfusion
    · exact hasRoom_ok _

theorem hasRoom_resolve (t : HandleTable) (h : FileHandle) : HasRoom (t.resolve h).1 := by
  unfold HandleTable.resolve
  split
  · split
    · exact hasRoom_ok _
    · exact hasRoom_error NfsError.noConfusion
  · split
    · exact hasRoom_ok _
    · exact hasRoom_error NfsError.noConfusion

/-- What comes before the cutting of a page does not end with the wish for more room. -/
def Opens {α : Type} (opened : Except (NfsError × Option FileAttributes) α) : Prop :=
  ∀ e detail, opened = .error (e, detail) → e ≠ .tooSmall

theorem opens_ok {α : Type} (a : α) :
    Opens (.ok a : Except (NfsError × Option FileAttributes) α) := fun _ _ h => nomatch h

theorem opens_error {α : Type} {e : NfsError} (he : e ≠ .tooSmall)
    (detail : Option FileAttributes) :
    Opens (.error (e, detail) : Except (NfsError × Option FileAttributes) α) := by
  rintro _ _ ⟨⟩
  exact he

theorem opens_openListing (directory : FileHandle) (cookie : UInt64) (verifier : FixedBytes 8)
    (now : Time) (b : Backend σ) : Opens ((openListing directory cookie verifier).run now b).1 := by
  unfold openListing
  rw [Program.run_bind]
  have hroom : HasRoom ((Program.resolve directory).run now b).1 :=
    hasRoom_resolve b.handles directory
  generalize ((Program.resolve directory).run now b).1 = resolved at hroom
  -- Behind the handle table it does not matter what the store answers.
  apply Program.Yields.run
  rcases resolved with e | path
  · exact Program.yields_pure (opens_error (hroom e rfl) none)
  · refine (yields_attempt_hasRoom _).bind fun m hm => ?_
    rcases m with e | m
    · exact Program.yields_pure (opens_error (hm e rfl) none)
    · dsimp only
      split
      · exact Program.yields_pure (opens_error NfsError.noConfusion _)
      · refine (yields_listFrom_hasRoom path m cookie verifier).bind fun listed hlisted => ?_
        rcases listed with e | listed
        · exact Program.yields_pure (opens_error (hlisted e rfl) _)
        · exact Program.yields_pure (opens_ok _)

/-- How a call for a page ends: what comes before the cutting of the page (`opened`) has failed, or
the page fills its budget, or the client must allow more. -/
structure PageAnswer [Wire ε] (budget : PageBudget) (make : ListedEntry → UInt64 → ε)
    (opened : Except (NfsError × Option FileAttributes) (FileAttributes × Listing × Nat))
    (result : Outcome (DirectoryPage ε) (Option FileAttributes)) : Prop where
  tooSmall_iff : ∀ detail, result = .failed .tooSmall detail ↔
    ∃ attributes listing start, opened = .ok (attributes, listing, start) ∧
      detail = some attributes ∧ Page.remaining listing start ≠ [] ∧
      ¬Page.Allows budget make ((Page.remaining listing start).take 1)
  failed_iff : ∀ e detail, e ≠ .tooSmall →
    (result = .failed e detail ↔ opened = .error (e, detail))
  page : ∀ page, result = .ok page → ∃ attributes listing start,
    opened = .ok (attributes, listing, start) ∧ page.directory = some attributes ∧
      page.verifier = listing.verifier ∧
      Page.Fills budget make listing start (.ok ⟨page.entries, page.endOfList⟩)

theorem pageAnswer_answerPage [Wire ε] (budget : PageBudget) (make : ListedEntry → UInt64 → ε)
    {opened : Except (NfsError × Option FileAttributes) (FileAttributes × Listing × Nat)}
    (hopened : Opens opened) :
    PageAnswer budget make opened
      (answerPage (fun listing start => Page.of listing start budget make) opened) := by
  rcases opened with ⟨cause, detail⟩ | ⟨attributes, listing, start⟩
  · have hcause := hopened cause detail rfl
    refine ⟨fun detail' => ⟨?_, nofun⟩, fun e detail' _ => ⟨?_, ?_⟩, nofun⟩
    · rintro ⟨⟩
      exact absurd rfl hcause
    · rintro ⟨⟩
      rfl
    · rintro ⟨⟩
      rfl
  · have hfills := Page.fills_of budget make listing start
    dsimp only [answerPage]
    cases hpage : Page.of listing start budget make with
    | error e =>
      obtain ⟨rfl, hne, hnot⟩ := (hfills.error_iff e).1 hpage
      refine ⟨fun detail => ⟨?_, ?_⟩, fun e detail he => ⟨?_, nofun⟩, nofun⟩
      · rintro ⟨⟩
        exact ⟨attributes, listing, start, rfl, rfl, hne, hnot⟩
      · rintro ⟨_, _, _, ⟨⟩, rfl, -, -⟩
        rfl
      · rintro ⟨⟩
        exact absurd rfl he
    | ok page =>
      refine ⟨fun detail => ⟨nofun, ?_⟩, fun e detail _ => ⟨nofun, nofun⟩, ?_⟩
      · rintro ⟨_, _, _, ⟨⟩, -, hne, hnot⟩
        have := (hfills.error_iff .tooSmall).2 ⟨rfl, hne, hnot⟩
        rw [hpage] at this
        cases this
      · rintro page' ⟨⟩
        exact ⟨attributes, listing, start, rfl, rfl, rfl, hpage ▸ hfills⟩

/-- A page without handles is written in as many bytes as were reckoned. -/
theorem length_encode_page_plain {listing : Listing} {start : Nat} {count : UInt32}
    {page : DirectoryPage Entry} (hdirectory : page.directory ≠ none)
    (h : Page.Fills (.plain count) Page.plainEntry listing start
      (.ok ⟨page.entries, page.endOfList⟩)) (hne : page.entries ≠ []) :
    (encode page).length ≤ count.toNat := by
  obtain ⟨directory, verifier, entries, endOfList⟩ := page
  obtain ⟨attributes, rfl⟩ := Option.ne_none_iff_exists'.1 hdirectory
  have hsize : (fun e : Entry => 4 + (encode e).length) = Page.entryBytes (.plain count) :=
    funext fun e => (Nat.add_zero _).symm
  rw [length_encode_page, hsize]
  exact h.entryBytes_le hne

/-- With short handles in it, a page is written in no more bytes than were reckoned. -/
theorem length_encode_page_full {listing : Listing} {start : Nat}
    {directoryCount maxCount : UInt32} {page : DirectoryPage EntryPlus}
    (hdirectory : page.directory ≠ none)
    (h : Page.Fills (.withHandles directoryCount maxCount) Page.fullEntry listing start
      (.ok ⟨page.entries.map EntryPlus.withoutHandle, page.endOfList⟩)) (hne : page.entries ≠ [])
    (hshort : ∀ e ∈ page.entries, ∀ handle ∈ e.handle,
      handle.bytes.length ≤ PageBudget.maxHandleLength) :
    (encode page).length ≤ maxCount.toNat := by
  obtain ⟨directory, verifier, entries, endOfList⟩ := page
  obtain ⟨attributes, rfl⟩ := Option.ne_none_iff_exists'.1 hdirectory
  have hbound := h.entryBytes_le fun hnil => hne (List.map_eq_nil_iff.1 hnil)
  have hentries : (entries.map fun e => 4 + (encode e).length).sum ≤
      ((entries.map EntryPlus.withoutHandle).map
        (Page.entryBytes (.withHandles directoryCount maxCount))).sum := by
    rw [List.map_map]
    exact List.sum_le_sum fun e he => length_encode_attach (hshort e he) directoryCount maxCount
  rw [length_encode_page]
  exact (Nat.add_le_add_left hentries _).trans hbound

/-- The numbers, names and cookies of a page keep within a budget of their own. -/
theorem length_encode_fields_le {listing : Listing} {start : Nat}
    {directoryCount maxCount : UInt32} {page : Page EntryPlus}
    (h : Page.Fills (.withHandles directoryCount maxCount) Page.fullEntry listing start (.ok page))
    (hne : page.entries ≠ []) :
    (page.entries.map fun e => (encode (e.fileId, e.name, e.cookie)).length).sum ≤
      directoryCount.toNat := by
  have hbound := (h.allows hne).2 directoryCount.toNat rfl
  rw [Nat.zero_add] at hbound
  rw [congrArg (List.map _) (h.entries_eq page rfl), List.map_map]
  have hfields : ∀ e : ListedEntry × Nat,
      (encode ((Page.made Page.fullEntry e).fileId, (Page.made Page.fullEntry e).name,
        (Page.made Page.fullEntry e).cookie)).length = Page.directoryBytes e.1 :=
    fun e => Page.length_encode_fields e.1 _
  simpa only [Function.comp_def, hfields] using hbound

end Nfs

namespace Server

open Rpc Nfs

/-- For every listing and every place to begin, a page is as long as the sizes that a client allows
let it be, and there is none exactly if entries are left of which not even the first one fits.  So
it is with every reply, whatever the store is: a page with entries takes no more bytes than the
client allows, and with handles that clients accept neither do the entries of a page with handles
nor their numbers, names and cookies alone. -/
theorem pages_fill_budgets {σ : Type} [Store σ] (s : Server σ) (m : Incoming) (xid : UInt32) :
    (∀ listing start count, Page.Fills (.plain count) Page.plainEntry listing start
        (Page.of listing start (.plain count) Page.plainEntry)) ∧
      (∀ listing start directoryCount maxCount,
        Page.Fills (.withHandles directoryCount maxCount) Page.fullEntry listing start
          (Page.of listing start (.withHandles directoryCount maxCount) Page.fullEntry)) ∧
      (∀ args result, s.Answers m ⟨xid, .nfs .readDirectory, args⟩ (.results result) →
        PageAnswer (.plain args.count) Page.plainEntry
            ((openListing args.directory args.cookie args.verifier).run m.clock.performed
              s.backend).1 result ∧
          ∀ page, result = .ok page → page.entries ≠ [] →
            page.directory ≠ none ∧ (encode page).length ≤ args.count.toNat) ∧
      ∀ args result, s.Answers m ⟨xid, .nfs .readDirectoryPlus, args⟩ (.results result) →
        PageAnswer (.withHandles args.directoryCount args.maxCount) Page.fullEntry
            ((openListing args.directory args.cookie args.verifier).run m.clock.performed
              s.backend).1 (withoutHandles result) ∧
          ∀ page, result = .ok page → page.entries ≠ [] → page.directory ≠ none ∧
            ((∀ e ∈ page.entries, ∀ h ∈ e.handle, h.bytes.length ≤ PageBudget.maxHandleLength) →
              (encode page).length ≤ args.maxCount.toNat) ∧
            (page.entries.map fun e => (encode (e.fileId, e.name, e.cookie)).length).sum ≤
              args.directoryCount.toNat := by
  refine ⟨fun _ _ _ => Page.fills_of _ _ _ _, fun _ _ _ _ => Page.fills_of _ _ _ _, ?_, ?_⟩
  · rintro args result ⟨-, hrun⟩
    have hresult := Program.run_eq_of_responding hrun
    have hanswer := pageAnswer_answerPage (.plain args.count) Page.plainEntry
      (opens_openListing args.directory args.cookie args.verifier m.clock.performed s.backend)
    rw [← run_readDirectory, hresult] at hanswer
    refine ⟨hanswer, fun page hpage hne => ?_⟩
    obtain ⟨attributes, listing, start, -, hdirectory, -, hfills⟩ := hanswer.page page hpage
    have hsome : page.directory ≠ none := hdirectory ▸ Option.some_ne_none attributes
    exact ⟨hsome, length_encode_page_plain hsome hfills hne⟩
  · rintro args result ⟨-, hrun⟩
    have hresult := Program.run_eq_of_responding hrun
    have hanswer := pageAnswer_answerPage (.withHandles args.directoryCount args.maxCount)
      Page.fullEntry
      (opens_openListing args.directory args.cookie args.verifier m.clock.performed s.backend)
    rw [← run_readDirectoryPlus_withoutHandles, hresult] at hanswer
    refine ⟨hanswer, ?_⟩
    rintro page rfl hne
    obtain ⟨attributes, listing, start, -, hdirectory, -, hfills⟩ := hanswer.page _ rfl
    have hsome : page.directory ≠ none := by
      rw [show page.directory = some attributes from hdirectory]
      exact Option.some_ne_none attributes
    have hne' : page.entries.map EntryPlus.withoutHandle ≠ [] :=
      fun hnil => hne (List.map_eq_nil_iff.1 hnil)
    have hfields := length_encode_fields_le hfills hne'
    rw [List.map_map] at hfields
    exact ⟨hsome, length_encode_page_full hsome hfills hne, hfields⟩

/-- The root has three entries.  Both kinds of page hold two of them, the plain one because of its
whole size and the other because of the size of what names an entry. -/
theorem pages_fill_budgets_root :
    let config : ServerConfig := ⟨.known, ['/'], Bytes.zeros 8⟩
    let root := HandleSource.uuids.draw 0
    let before := [Call.sentAt ⟨0⟩ ⟨7, .mount .mount, [0x2F]⟩,
      Call.sentAt ⟨0⟩ ⟨8, .nfs .makeDirectory, ⟨⟨root, [0x64]⟩, .empty⟩⟩]
    let args : ReadDirectoryArgs := ⟨root, 0, Bytes.zeros 8, 160⟩
    let fullArgs : ReadDirectoryPlusArgs := ⟨root, 0, Bytes.zeros 8, 50, 1000⟩
    let read := Call.sentAt ⟨0⟩ ⟨9, .nfs .readDirectory, args⟩
    let readFull := Call.sentAt ⟨0⟩ ⟨9, .nfs .readDirectoryPlus, fullArgs⟩
    let verifier := Listing.verifierOf [.root] [[0x64]]
    let a : FileAttributes :=
      ⟨.directory, 0o755, 2, 0, 0, 0, 0, ⟨0, 0⟩, 0, 1, ⟨0, 0⟩, ⟨0, 0⟩, ⟨0, 0⟩⟩
    let page : DirectoryPage Entry :=
      ⟨some a, verifier, [⟨1, [0x2E], 1⟩, ⟨1, [0x2E, 0x2E], 2⟩], false⟩
    let fullPage : DirectoryPage EntryPlus :=
      ⟨some a, verifier, [⟨1, [0x2E], 1, some a, some root⟩,
        ⟨1, [0x2E, 0x2E], 2, some a, some root⟩], false⟩
    let s :=
      (start config ⟨Memory.empty ⟨0⟩ false 100, .cached (.empty 8 .uuids), []⟩).after before
    let opened := ((openListing root 0 (Bytes.zeros 8)).run ⟨0⟩ s.backend).1
    (s.Answers read ⟨9, .nfs .readDirectory, args⟩ (.results (.ok page)) ∧
        s.Answers readFull ⟨9, .nfs .readDirectoryPlus, fullArgs⟩ (.results (.ok fullPage)) ∧
        ∀ e ∈ fullPage.entries, ∀ h ∈ e.handle, h.bytes.length ≤ PageBudget.maxHandleLength) ∧
      PageAnswer (.plain 160) Page.plainEntry opened (.ok page) ∧ (encode page).length ≤ 160 ∧
      PageAnswer (.withHandles 50 1000) Page.fullEntry opened (withoutHandles (.ok fullPage)) ∧
      (encode fullPage).length ≤ 1000 ∧
      (fullPage.entries.map fun e => (encode (e.fileId, e.name, e.cookie)).length).sum ≤ 50 := by
  intro config root before args fullArgs read readFull verifier a page fullPage s opened
  have hread : s.Answers read ⟨9, .nfs .readDirectory, args⟩ (.results (.ok page)) :=
    ⟨performed?_sentAt (by decide +kernel) (by decide +kernel) (by decide +kernel),
      by decide +kernel⟩
  have hreadFull : s.Answers readFull ⟨9, .nfs .readDirectoryPlus, fullArgs⟩
      (.results (.ok fullPage)) :=
    ⟨performed?_sentAt (by decide +kernel) (by decide +kernel) (by decide +kernel),
      by decide +kernel⟩
  have hshort : ∀ e ∈ fullPage.entries, ∀ h ∈ e.handle,
      h.bytes.length ≤ PageBudget.maxHandleLength := by decide
  obtain ⟨-, -, hplain, -⟩ := pages_fill_budgets s read 9
  obtain ⟨-, -, -, hfull⟩ := pages_fill_budgets s readFull 9
  obtain ⟨hpage, hsize⟩ := hplain args _ hread
  obtain ⟨hfullPage, hsizes⟩ := hfull fullArgs _ hreadFull
  obtain ⟨-, hbytes, hfields⟩ := hsizes fullPage rfl (List.cons_ne_nil _ _)
  exact ⟨⟨hread, hreadFull, hshort⟩, hpage, (hsize page rfl (List.cons_ne_nil _ _)).2, hfullPage,
    hbytes hshort, hfields⟩

end Server

end NfsServer
