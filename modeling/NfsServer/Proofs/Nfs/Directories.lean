import NfsServer.Nfs.Directories
import NfsServer.Proofs.Frame
import NfsServer.Proofs.Listing.Contents
import NfsServer.Proofs.Nfs.Queries

/-!
# Procedures that list directories

A call for a page first looks at the directory and then cuts the page (`listDirectory_eq`).  The
listing of a directory ends in one of three ways (`DirectoryListed`), whatever cuts the page.
Handles are issued only for entries of a listing that has just been made, whose objects are
therefore all there.
-/

namespace NfsServer.Nfs

/-- What comes before the cutting of a page: the attributes and the listing of a directory and the
index at which the client goes on, or why there are none. -/
def openListing (directory : FileHandle) (cookie : UInt64) (verifier : FixedBytes 8) :
    Program (Except (NfsError × Option FileAttributes) (FileAttributes × Listing × Nat)) := do
  match ← Program.resolve directory with
  | .error e => return .error (e, none)
  | .ok path =>
    match ← attempt (.stat path) with
    | .error e => return .error (e, none)
    | .ok m =>
      let attributes := m.attributesAt path
      if !m.isDirectory then return .error (.notDirectory, some attributes)
      match ← listFrom path m cookie verifier with
      | .error e => return .error (e, some attributes)
      | .ok (listing, start) => return .ok (attributes, listing, start)

/-- The answer with a page, if one could be cut. -/
def pageReply {ε : Type} (attributes : FileAttributes) (listing : Listing) :
    Except NfsError (Page ε) → Outcome (DirectoryPage ε) (Option FileAttributes)
  | .error e => .failed e (some attributes)
  | .ok page => .ok ⟨some attributes, listing.verifier, page.entries, page.endOfList⟩

theorem listDirectory_eq {ε : Type} (directory : FileHandle) (cookie : UInt64)
    (verifier : FixedBytes 8) (cut : Listing → Nat → Program (Except NfsError (Page ε))) :
    listDirectory directory cookie verifier cut =
      openListing directory cookie verifier >>= fun
        | .error (e, attributes) => pure (.failed e attributes)
        | .ok (attributes, listing, start) =>
          cut listing start >>= fun page => pure (pageReply attributes listing page) := by
  unfold listDirectory openListing
  rw [bind_assoc]
  congr 1
  funext r
  cases r with
  | error e => rfl
  | ok path =>
    dsimp only
    rw [bind_assoc]
    congr 1
    funext m
    cases m with
    | error e => rfl
    | ok m =>
      dsimp only
      split
      · rfl
      · rw [bind_assoc]
        congr 1
        funext listed
        cases listed with
        | error e => rfl
        | ok listed =>
          dsimp only
          rw [pure_bind]
          congr 1
          funext page
          cases page <;> rfl

variable {now : Time} {b : Backend Memory}

theorem asks_listFrom (directory : Path) (m : Metadata) (cookie : UInt64)
    (verifier : FixedBytes 8) : (listFrom directory m cookie verifier).Asks Request.IsQuery := by
  apply (Listing.asks_read directory m).bind
  intro listing
  cases listing with
  | error e => exact Program.asks_pure _
  | ok listing =>
    dsimp only
    split <;> exact Program.asks_pure _

/-- Besides what the cutting of the page asks, the listing of a directory only looks. -/
theorem asks_listDirectory {ε : Type} {P : ∀ {β : Type}, Request β → Prop}
    (hlook : ∀ {β : Type} {r : Request β}, r.IsLook → P r) (directory : FileHandle)
    (cookie : UInt64) (verifier : FixedBytes 8)
    {cut : Listing → Nat → Program (Except NfsError (Page ε))}
    (hcut : ∀ listing start, (cut listing start).Asks P) :
    (listDirectory directory cookie verifier cut).Asks P := by
  refine (Program.asks_resolve hlook directory).bind fun r => ?_
  cases r with
  | error e => exact Program.asks_pure _
  | ok path =>
    refine (Program.Asks.query hlook (asks_attempt (by trivial))).bind fun m => ?_
    cases m with
    | error e => exact Program.asks_pure _
    | ok m =>
      dsimp only
      split
      · exact Program.asks_pure _
      · refine ((asks_listFrom path m cookie verifier).query hlook).bind fun listed => ?_
        cases listed with
        | error e => exact Program.asks_pure _
        | ok listed =>
          refine (hcut listed.1 listed.2).bind fun page => ?_
          cases page <;> exact Program.asks_pure _

/-- What a procedure goes on with: the listing of the directory, and the index that the cookie
means. -/
theorem run_listFrom {directory : Path} {m : Metadata} {cookie : UInt64} {verifier : FixedBytes 8}
    {listing : Listing} {start : Nat}
    (h : ((listFrom directory m cookie verifier).run now b).1 = .ok (listing, start)) :
    ((Listing.read directory m).run now b).1 = .ok listing ∧
      listing.resume cookie verifier = .ok start := by
  unfold listFrom at h
  obtain ⟨listing', hlisting, h⟩ := Program.run_bind_eq_ok (Listing.asks_read directory m) h
    fun _ => rfl
  dsimp only at h
  split at h
  · cases h
  · next start' hstart =>
    cases h
    exact ⟨hlisting, hstart⟩

/-- How the listing of a directory ends, and what it leaves; `cut` makes the page. -/
inductive DirectoryListed {ε : Type} (now : Time) (b : Backend Memory) (directory : FileHandle)
    (cookie : UInt64) (verifier : FixedBytes 8)
    (cut : Listing → Nat → Program (Except NfsError (Page ε))) :
    Outcome (DirectoryPage ε) (Option FileAttributes) → Backend Memory → Prop
  /-- There is nothing from which a page could be cut. -/
  | refused {e : NfsError} {attributes : Option FileAttributes} :
      DirectoryListed now b directory cookie verifier cut (.failed e attributes)
        (b.resolved directory)
  /-- No page can be cut. -/
  | uncut {listing : Listing} {start : Nat} {e : NfsError} {attributes : Option FileAttributes}
      {b' : Backend Memory}
      (hcut : (cut listing start).run now (b.resolved directory) = (.error e, b')) :
      DirectoryListed now b directory cookie verifier cut (.failed e attributes) b'
  /-- A page is cut. -/
  | page {path : Path} {m : Metadata} {listing : Listing} {start : Nat} {p : Page ε}
      {b' : Backend Memory} (hpath : (b.handles.resolve directory).1 = .ok path)
      (hstat : b.store.stat path.location = .ok m)
      (hread : ((Listing.read path m).run now (b.resolved directory)).1 = .ok listing)
      (hresume : listing.resume cookie verifier = .ok start)
      (hcut : (cut listing start).run now (b.resolved directory) = (.ok p, b')) :
      DirectoryListed now b directory cookie verifier cut
        (.ok ⟨some (m.attributesAt path), listing.verifier, p.entries, p.endOfList⟩) b'

theorem ends_listDirectory {ε : Type} (directory : FileHandle) (cookie : UInt64)
    (verifier : FixedBytes 8) (cut : Listing → Nat → Program (Except NfsError (Page ε))) :
    (listDirectory directory cookie verifier cut).Ends now b
      (DirectoryListed now b directory cookie verifier cut) := by
  have hresolve : (Program.resolve directory).Ends now b fun r b' =>
      (b.handles.resolve directory).1 = r ∧ b' = b.resolved directory := ⟨rfl, rfl⟩
  refine hresolve.bind ?_
  rintro r _ ⟨hpath, rfl⟩
  cases r with
  | error e => exact .refused
  | ok path =>
    refine Program.ends_query_then (asks_attempt (by trivial)) fun m hm => ?_
    cases m with
    | error e => exact .refused
    | ok m =>
      have hstat : b.store.stat path.location = .ok m := report_eq_ok hm.symm
      dsimp only
      split
      · exact .refused
      · apply Program.ends_query_then (asks_listFrom path m cookie verifier)
        intro listed hlisted
        cases listed with
        | error e => exact .refused
        | ok listed =>
          obtain ⟨hread, hresume⟩ := run_listFrom hlisted.symm
          refine Program.ends_run_then fun r b' hcut => ?_
          cases r with
          | error e => exact .uncut hcut
          | ok p => exact .page hpath hstat hread hresume hcut

/-- What a page of a directory is cut from. -/
theorem run_listDirectory {ε : Type} {directory : FileHandle} {cookie : UInt64}
    {verifier : FixedBytes 8} {cut : Listing → Nat → Program (Except NfsError (Page ε))}
    {page : DirectoryPage ε}
    (h : ((listDirectory directory cookie verifier cut).run now b).1 = .ok page) :
    let b' : Backend Memory := { b with handles := (b.handles.resolve directory).2 }
    ∃ path m listing start p, (b.handles.resolve directory).1 = .ok path ∧
      ((Listing.read path m).run now b').1 = .ok listing ∧
      listing.resume cookie verifier = .ok start ∧ ((cut listing start).run now b').1 = .ok p ∧
      page = ⟨some (m.attributesAt path), listing.verifier, p.entries, p.endOfList⟩ := by
  have hlisted : (listDirectory directory cookie verifier cut).Ends now b
      (DirectoryListed now b directory cookie verifier cut) :=
    ends_listDirectory directory cookie verifier cut
  unfold Program.Ends at hlisted
  rw [h] at hlisted
  cases hlisted with
  | page hpath _ hread hresume hcut =>
    exact ⟨_, _, _, _, _, hpath, hread, hresume, congrArg Prod.fst hcut, rfl⟩

theorem stable_listDirectory {ε : Type} (hb : b.Sound) (directory : FileHandle) (cookie : UInt64)
    (verifier : FixedBytes 8) {cut : Listing → Nat → Program (Except NfsError (Page ε))}
    (hcut : ∀ (b : Backend Memory) listing start, b.Sound →
      (∀ e ∈ listing.entries, ∃ f, b.store.idAt e.path.location = some f) →
      (cut listing start).Stable now b fun _ _ => True) :
    (listDirectory directory cookie verifier cut).Stable now b fun _ _ => True := by
  apply (Program.stable_resolve hb directory).bind hb
  intro r b' hb' _
  cases r with
  | error e => exact Program.stable_pure hb' trivial
  | ok path =>
    apply (stable_stat hb' path).bind hb'
    intro m b'' hb'' hstat
    obtain ⟨rfl, hstat⟩ := hstat
    cases m with
    | error e => exact Program.stable_pure hb'' trivial
    | ok m =>
      have hpath := Memory.idAt_of_stat (hstat m rfl)
      dsimp only
      split
      · exact Program.stable_pure hb'' trivial
      · refine (Program.stable_of_asks_isQuery hb''
          (asks_listFrom path m cookie verifier)).bind hb'' fun listed b₃ hb₃ hlisted => ?_
        obtain ⟨rfl, hlisted⟩ := hlisted
        cases listed with
        | error e => exact Program.stable_pure hb₃ trivial
        | ok listed =>
          have hentries := Listing.idAt_of_run_read (run_listFrom hlisted.symm).1 hpath
          apply (hcut b₃ listed.1 listed.2 hb₃ hentries).bind hb₃
          intro page b₄ hb₄ _
          cases page <;> exact Program.stable_pure hb₄ trivial

theorem asks_readDirectory (args : ReadDirectoryArgs) :
    (readDirectory args).Asks Request.IsLook :=
  asks_listDirectory id args.directory args.cookie args.verifier fun _ _ => Program.asks_pure _

/-- What a page with handles is made of: a page without them is cut from the listing, and then the
handles are put in. -/
theorem run_readDirectoryPlus {args : ReadDirectoryPlusArgs} {page : DirectoryPage EntryPlus}
    (h : ((readDirectoryPlus args).run now b).1 = .ok page) :
    ∃ path m listing start q, (b.handles.resolve args.directory).1 = .ok path ∧
      b.store.stat path.location = .ok m ∧
      ((Listing.read path m).run now (b.resolved args.directory)).1 = .ok listing ∧
      listing.resume args.cookie args.verifier = .ok start ∧
      Page.of listing start (.withHandles args.directoryCount args.maxCount) Page.fullEntry =
        .ok q ∧
      let attached := (attachHandles q.entries (listing.entries.drop start)).run now
        (b.resolved args.directory)
      page = ⟨some (m.attributesAt path), listing.verifier, attached.1, q.endOfList⟩ ∧
        ((readDirectoryPlus args).run now b).2 = attached.2 := by
  have hlisted : (readDirectoryPlus args).Ends now b _ :=
    ends_listDirectory args.directory args.cookie args.verifier _
  unfold Program.Ends at hlisted
  rw [h] at hlisted
  generalize ((readDirectoryPlus args).run now b).2 = b' at hlisted
  cases hlisted with
  | @page path m listing start p _ hpath hstat hread hresume hcut =>
    dsimp only at hcut
    split at hcut
    · cases hcut
    · next q hq =>
      rw [Program.run_bind] at hcut
      obtain ⟨hp, rfl⟩ := Prod.mk.inj hcut
      obtain rfl := Except.ok.inj hp
      exact ⟨path, m, listing, start, q, hpath, hstat, hread, hresume, hq, rfl, rfl⟩

/-- Handles for entries whose objects are there. -/
theorem stable_attachHandles (entries : List EntryPlus) (listed : List ListedEntry)
    (hb : b.Sound) (hlisted : ∀ e ∈ listed, ∃ f, b.store.idAt e.path.location = some f) :
    (attachHandles entries listed).Stable now b fun _ _ => True := by
  induction entries generalizing b listed with
  | nil => exact Program.stable_pure hb trivial
  | cons entry entries ih =>
    cases listed with
    | nil => exact Program.stable_pure hb trivial
    | cons first rest =>
      obtain ⟨f, hf⟩ := hlisted first List.mem_cons_self
      apply (Program.stable_issue hb hf).bind hb
      intro handle b' hb' hstore
      refine (ih rest hb' fun e he => ?_).bind hb' fun _ b'' hb'' _ =>
        Program.stable_pure hb'' trivial
      rw [hstore]
      exact hlisted e (List.mem_cons_of_mem _ he)

theorem asks_attachHandles (entries : List EntryPlus) (listed : List ListedEntry) :
    (attachHandles entries listed).Asks Request.KeepsStore := by
  induction entries generalizing listed with
  | nil => exact Program.asks_pure _
  | cons entry entries ih =>
    cases listed with
    | nil => exact Program.asks_pure _
    | cons first rest =>
      refine (Program.asks_request trivial).bind fun handle => ?_
      exact (ih rest).bind fun _ => Program.asks_pure _

theorem asks_readDirectoryPlus (args : ReadDirectoryPlusArgs) :
    (readDirectoryPlus args).Asks Request.KeepsStore := by
  refine asks_listDirectory Request.IsLook.keepsStore args.directory args.cookie args.verifier
    fun listing start => ?_
  dsimp only
  split
  · exact Program.asks_pure _
  · next page _ =>
    exact (asks_attachHandles page.entries _).bind fun _ => Program.asks_pure _

theorem stable_readDirectoryPlus (hb : b.Sound) (args : ReadDirectoryPlusArgs) :
    (readDirectoryPlus args).Stable now b fun _ _ => True := by
  refine stable_listDirectory hb args.directory args.cookie args.verifier
    fun b' listing start hb' hentries => ?_
  dsimp only
  split
  · exact Program.stable_pure hb' trivial
  · next page _ =>
    exact (stable_attachHandles page.entries (listing.entries.drop start) hb' fun e he =>
      hentries e (List.mem_of_mem_drop he)).bind hb' fun _ _ hb'' _ =>
        Program.stable_pure hb'' trivial

/-- Handles change nothing else in the entries that get them. -/
theorem run_attachHandles (entries : List EntryPlus) (listed : List ListedEntry) (now : Time)
    (b : Backend Memory) :
    (((attachHandles entries listed).run now b).1.map fun e => (e.name, e.cookie)) =
      entries.map fun e => (e.name, e.cookie) := by
  induction entries generalizing listed b with
  | nil => rfl
  | cons entry entries ih =>
    cases listed with
    | nil => rfl
    | cons first rest =>
      unfold attachHandles
      rw [Program.run_bind, Program.run_bind]
      exact congrArg (_ :: ·) (ih rest _)

end NfsServer.Nfs
