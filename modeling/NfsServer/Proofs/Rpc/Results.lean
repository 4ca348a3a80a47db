import NfsServer.Proofs.Nfs.Results
import NfsServer.Proofs.Rpc.Limits

/-!
# Results to the last byte

What the protocols say about the results of each procedure is a statement about bytes
(`Procedure.IsResult`): a status, then what goes with success or with failure, and nothing behind.
It is spelled out in terms of the items of which results consist, independently of the types that
the procedures use for them.  Every accepted reply keeps to it
(`Server.results_to_the_last_byte`).
-/

namespace NfsServer

/-! ## What results look like -/

/-- The bytes spell a value that is as it must be, and no byte is left over. -/
def Format.Spells {α : Type} (f : Format α) (valid : α → Prop) (bs : Bytes) : Prop :=
  ∃ a, f.decode bs = .ok (a, []) ∧ valid a

/-- The bytes spell a value that is as it must be. -/
abbrev SpellsSome {α : Type} [Wire α] (valid : α → Prop) : Bytes → Prop :=
  Wire.format.Spells valid

/-- The bytes spell a value of `α`. -/
abbrev Spells (α : Type) [Wire α] : Bytes → Prop := SpellsSome fun _ : α => True

/-- A handle that clients accept. -/
def FileHandle.IsShort (h : FileHandle) : Prop := h.bytes.length ≤ 64

namespace Nfs

/-- The bytes are a status, and what goes with success or with failure. -/
def IsOutcome (okArm failArm : Bytes → Prop) (bs : Bytes) : Prop :=
  ∃ status rest, decode Status bs = .ok (status, rest) ∧
    match status with
    | .ok => okArm rest
    | .failed _ => failArm rest

/-- What the file service says about the results of each procedure. -/
def Procedure.IsResult : Procedure → Bytes → Prop
  | null => (· = [])
  | getAttributes => IsOutcome (Spells FileAttributes) (· = [])
  | setAttributes | remove | removeDirectory => IsOutcome (Spells WccData) (Spells WccData)
  | lookup =>
    IsOutcome
      (SpellsSome fun r : FileHandle × Option FileAttributes × Option FileAttributes =>
        r.1.IsShort)
      (Spells (Option FileAttributes))
  | access =>
    IsOutcome (Spells (Option FileAttributes × UInt32)) (Spells (Option FileAttributes))
  | readLink =>
    IsOutcome (Spells (Option FileAttributes × Bytes)) (Spells (Option FileAttributes))
  | read =>
    IsOutcome (Spells (Option FileAttributes × UInt32 × Bool × Bytes))
      (Spells (Option FileAttributes))
  | write => IsOutcome (Spells (WccData × UInt32 × Stability × FixedBytes 8)) (Spells WccData)
  | create | makeDirectory | makeSymlink | makeNode =>
    IsOutcome
      (SpellsSome fun r : Option FileHandle × Option FileAttributes × WccData =>
        ∀ h ∈ r.1, h.IsShort)
      (Spells WccData)
  | rename => IsOutcome (Spells (WccData × WccData)) (Spells (WccData × WccData))
  | makeLink =>
    IsOutcome (Spells (Option FileAttributes × WccData)) (Spells (Option FileAttributes × WccData))
  | readDirectory =>
    IsOutcome (Spells (DirectoryPage (UInt64 × Bytes × UInt64))) (Spells (Option FileAttributes))
  | readDirectoryPlus =>
    IsOutcome
      (SpellsSome fun page : DirectoryPage
          (UInt64 × Bytes × UInt64 × Option FileAttributes × Option FileHandle) =>
        ∀ e ∈ page.entries, ∀ h ∈ e.2.2.2.2, h.IsShort)
      (Spells (Option FileAttributes))
  | fileSystemSpace =>
    IsOutcome
      (Spells (Option FileAttributes × UInt64 × UInt64 × UInt64 × UInt64 × UInt64 × UInt64 ×
        UInt32))
      (Spells (Option FileAttributes))
  | fileSystemLimits =>
    IsOutcome
      (Spells (Option FileAttributes × UInt32 × UInt32 × UInt32 × UInt32 × UInt32 × UInt32 ×
        UInt32 × UInt64 × NfsTime × UInt32))
      (Spells (Option FileAttributes))
  | namingLimits =>
    IsOutcome (Spells (Option FileAttributes × UInt32 × UInt32 × Bool × Bool × Bool × Bool))
      (Spells (Option FileAttributes))
  | commit => IsOutcome (Spells (WccData × FixedBytes 8)) (Spells WccData)

end Nfs

namespace Mount

/-- What the mount service says about the results of each procedure.  The lists are spelled as
chains: of the clients with the directories that they have mounted, and of the exported directories
with the groups of clients that may mount each. -/
def Procedure.IsResult : Procedure → Bytes → Prop
  | null | unmount | unmountAll => (· = [])
  | mount => fun bs =>
    ∃ status rest, decode MountStatus bs = .ok (status, rest) ∧
      match status with
      | .ok => SpellsSome (fun r : FileHandle × List UInt32 => r.1.IsShort) rest
      | .failed _ => rest = []
  | listMounts => (Format.chain (.pair .varData .varData)).Spells fun _ => True
  | listExports => (Format.chain (.pair .varData (.chain .varData))).Spells fun _ => True

end Mount

/-- What the service of a procedure says about its results. -/
def Rpc.Procedure.IsResult : Procedure → Bytes → Prop
  | nfs p => p.IsResult
  | mount p => p.IsResult

/-! ## What procedures answer -/

theorem Format.spells_encode {α : Type} {f : Format α} {valid : α → Prop} {a : α}
    (hfits : f.Fits a) (hvalid : valid a) : f.Spells valid (f.encode a) := by
  have hread := readsBack_encode f hfits []
  rw [List.append_nil] at hread
  exact ⟨a, hread, hvalid⟩

theorem spells_of_isFixed {α : Type} [Wire α] (h : (Wire.format : Format α).isFixed = true)
    (a : α) : Spells α (encode a) :=
  Format.spells_encode (Format.fits_of_isFixed h a) trivial

/-- All handles that have been issued are short enough for clients. -/
def HandleTable.HasShortHandles (t : HandleTable) : Prop := ∀ h, t.HasIssued h → h.IsShort

theorem HandleTable.hasShortHandles_cached {c : HandleCache}
    (h : ∀ n < c.issued, (c.ids.draw n).IsShort) : (HandleTable.cached c).HasShortHandles := by
  rintro _ ⟨n, hn, rfl⟩
  exact h n hn

theorem FileHandle.IsShort.fits {h : FileHandle} (hshort : h.IsShort) :
    Format.Fits Wire.format h := Nat.le_trans hshort (by decide)

open Program

variable {now : Time} {b : Backend Memory}

/-- What a program ends with is what it responds. -/
theorem ends_results {α : Type} {f : Format α} {P : Bytes → Prop} {p : Program α}
    (h : p.Ends now b fun a b' => b'.handles.HasShortHandles → P (f.encode a)) :
    p.responding.Ends now b fun response b' =>
      b'.handles.HasShortHandles → ∀ r, response = .results r → P (f.encode r) := by
  refine Ends.responding (h.mono fun a b' hresult hshort r hr => ?_)
  cases hr
  exact hresult hshort

namespace Nfs

theorem isOutcome_encode {α φ : Type} {f : Format α} {g : Format φ} {okArm failArm : Bytes → Prop}
    {o : Outcome α φ} (hok : ∀ a, o = .ok a → okArm (f.encode a))
    (hfail : ∀ d, failArm (g.encode d)) :
    IsOutcome okArm failArm ((Outcome.format f g).encode o) := by
  have hstatus : ∀ status : Status, Format.ReadsBack (decode Status) (encode status) status :=
    fun status => Format.readsBack_encode Wire.format trivial
  cases o with
  | ok a => exact ⟨.ok, f.encode a, hstatus .ok _, hok a rfl⟩
  | failed cause d => exact ⟨.failed cause, g.encode d, hstatus (.failed cause) _, hfail d⟩

/-- The procedures whose results have no data of variable length. -/
def Procedure.HasFixedResult : Procedure → Prop
  | null | getAttributes | setAttributes | access | write | remove | removeDirectory | rename
  | makeLink | fileSystemSpace | fileSystemLimits | namingLimits | commit => True
  | _ => False

theorem Procedure.isResult_of_fixed {p : Procedure} (hp : p.HasFixedResult) (r : p.Result) :
    p.IsResult (p.resultFormat.encode r) := by
  cases p with
  | null => rfl
  | getAttributes => exact isOutcome_encode (fun a _ => spells_of_isFixed rfl a) fun _ => rfl
  | setAttributes | remove | removeDirectory =>
    exact isOutcome_encode (fun a _ => spells_of_isFixed rfl a) fun d => spells_of_isFixed rfl d
  | access =>
    exact isOutcome_encode (fun a _ => spells_of_isFixed rfl (a.attributes, a.granted))
      fun d => spells_of_isFixed rfl d
  | write =>
    exact isOutcome_encode
      (fun a _ => spells_of_isFixed rfl (a.file, a.count, a.committed, a.verifier))
      fun d => spells_of_isFixed rfl d
  | rename =>
    exact isOutcome_encode (fun a _ => spells_of_isFixed rfl (a.source, a.target))
      fun d => spells_of_isFixed rfl (d.source, d.target)
  | makeLink =>
    exact isOutcome_encode (fun a _ => spells_of_isFixed rfl (a.file, a.directory))
      fun d => spells_of_isFixed rfl (d.file, d.directory)
  | fileSystemSpace =>
    exact isOutcome_encode
      (fun a _ => spells_of_isFixed rfl (a.attributes, a.totalBytes, a.freeBytes,
        a.availableBytes, a.totalFiles, a.freeFiles, a.availableFiles, a.invariantSeconds))
      fun d => spells_of_isFixed rfl d
  | fileSystemLimits =>
    exact isOutcome_encode
      (fun a _ => spells_of_isFixed rfl (a.attributes, a.readMax, a.readPreferred, a.readMultiple,
        a.writeMax, a.writePreferred, a.writeMultiple, a.directoryPreferred, a.maxFileSize,
        a.timeStep, a.properties))
      fun d => spells_of_isFixed rfl d
  | namingLimits =>
    exact isOutcome_encode
      (fun a _ => spells_of_isFixed rfl (a.attributes, a.maxLinks, a.maxName, a.noTruncation,
        a.chownRestricted, a.caseInsensitive, a.casePreserving))
      fun d => spells_of_isFixed rfl d
  | commit =>
    exact isOutcome_encode (fun a _ => spells_of_isFixed rfl (a.file, a.verifier))
      fun d => spells_of_isFixed rfl d
  | lookup | readLink | read | create | makeDirectory | makeSymlink | makeNode | readDirectory
  | readDirectoryPlus => exact hp.elim

/-! ### Results with handles, names and data -/

/-- What goes with success may be said in other words, as long as they are spelled alike. -/
theorem isOutcome_of_fits {α β φ : Type} [Wire α] [Wire β] [Wire φ] {valid : β → Prop} {f : α → β}
    (hf : ∀ a, encode (f a) = encode a) {o : Outcome α φ}
    (hok : ∀ a, o = .ok a → Format.Fits Wire.format (f a) ∧ valid (f a))
    (hfixed : (Wire.format : Format φ).isFixed = true) :
    IsOutcome (SpellsSome valid) (Spells φ) (encode o) := by
  refine isOutcome_encode (fun a ha => ?_) fun d => spells_of_isFixed hfixed d
  obtain ⟨hfits, hvalid⟩ := hok a ha
  show SpellsSome valid (encode a)
  rw [← hf a]
  exact Format.spells_encode hfits hvalid

theorem isResult_lookup {o : Outcome LookupResult (Option FileAttributes)}
    (h : ∀ r, o = .ok r → r.object.IsShort) :
    Procedure.lookup.IsResult (encode o) := by
  refine isOutcome_of_fits (f := fun r => (r.object, r.attributes, r.directory)) (fun _ => rfl)
    (fun r hr => ⟨?_, h r hr⟩) rfl
  exact ⟨(h r hr).fits, Format.fits_of_isFixed rfl _⟩

theorem isResult_readLink {o : Outcome ReadLinkResult (Option FileAttributes)}
    (h : ∀ r, o = .ok r → r.target.length ≤ maxRecordLength) :
    Procedure.readLink.IsResult (encode o) := by
  refine isOutcome_of_fits (f := fun r => (r.attributes, r.target)) (fun _ => rfl)
    (fun r hr => ⟨?_, trivial⟩) rfl
  exact ⟨Format.fits_of_isFixed rfl _, h r hr⟩

theorem isResult_read {o : Outcome ReadResult (Option FileAttributes)}
    (h : ∀ r, o = .ok r → r.data.length ≤ maxTransfer.toNat) :
    Procedure.read.IsResult (encode o) := by
  refine isOutcome_of_fits (f := fun r => (r.attributes, r.count, r.endOfFile, r.data))
    (fun _ => rfl) (fun r hr => ⟨?_, trivial⟩) rfl
  exact ⟨Format.fits_of_isFixed rfl _, trivial, trivial, (h r hr).trans (by decide)⟩

/-- The results of the procedures that make an object. -/
theorem isResult_create {o : Outcome CreateResult WccData}
    (h : ∀ r, o = .ok r → ∀ handle ∈ r.object, handle.IsShort) :
    Procedure.create.IsResult (encode o) := by
  refine isOutcome_of_fits (f := fun r => (r.object, r.attributes, r.directory)) (fun _ => rfl)
    (fun r hr => ⟨?_, h r hr⟩) rfl
  exact ⟨fun handle hhandle => (h r hr handle hhandle).fits, Format.fits_of_isFixed rfl _⟩

theorem isResult_makeNode {o : Outcome WccData WccData} (h : o.IsFailed) :
    Procedure.makeNode.IsResult (encode o) :=
  isOutcome_encode (fun _ ho => absurd (congrArg Outcome.status ho) h)
    fun d => spells_of_isFixed rfl d

/-- A page is spelled by spelling its entries. -/
theorem encode_page_map {ε δ : Type} [Wire ε] [Wire δ] {f : ε → δ}
    (hf : ∀ e, encode (f e) = encode e) (page : DirectoryPage ε) :
    encode (⟨page.directory, page.verifier, page.entries.map f, page.endOfList⟩ :
      DirectoryPage δ) = encode page := by
  have hentries : (Format.chain Wire.format).encode (page.entries.map f) =
      (Format.chain Wire.format).encode page.entries := by
    unfold Format.encode
    rw [List.flatMap_map]
    refine congrArg (· ++ _) (congrArg (List.flatMap · page.entries) (funext fun e => ?_))
    exact congrArg (_ ++ ·) (hf e)
  exact congrArg (fun bs =>
    encode page.directory ++ (encode page.verifier ++ (bs ++ encode page.endOfList))) hentries

/-- The results of both procedures that list directories. -/
theorem isOutcome_page {ε δ : Type} [Wire ε] [Wire δ] {f : ε → δ}
    (hf : ∀ e, encode (f e) = encode e) {valid : DirectoryPage δ → Prop}
    {o : Outcome (DirectoryPage ε) (Option FileAttributes)}
    (hfits : ∀ page, o = .ok page → ∀ e ∈ page.entries, Format.Fits Wire.format (f e))
    (hvalid : ∀ page, o = .ok page →
      valid ⟨page.directory, page.verifier, page.entries.map f, page.endOfList⟩) :
    IsOutcome (SpellsSome valid) (Spells (Option FileAttributes)) (encode o) := by
  refine isOutcome_of_fits (encode_page_map hf) (fun page hpage => ⟨?_, hvalid page hpage⟩) rfl
  have hentries : ∀ e ∈ page.entries.map f, Format.Fits Wire.format e :=
    List.forall_mem_map.2 (hfits page hpage)
  exact ⟨Format.fits_of_isFixed rfl _, trivial, hentries, trivial⟩

theorem isResult_readDirectory {o : Outcome (DirectoryPage Entry) (Option FileAttributes)}
    (h : ∀ page, o = .ok page → ∀ e ∈ page.entries, e.name.length ≤ maxNameLength) :
    Procedure.readDirectory.IsResult (encode o) := by
  refine isOutcome_page (f := fun e => (e.fileId, e.name, e.cookie)) (fun _ => rfl)
    (fun page hpage e he => ?_) fun _ _ => trivial
  exact ⟨trivial, (h page hpage e he).trans (by decide), trivial⟩

theorem isResult_readDirectoryPlus {o : Outcome (DirectoryPage EntryPlus) (Option FileAttributes)}
    (hnames : ∀ page, o = .ok page → ∀ e ∈ page.entries, e.name.length ≤ maxNameLength)
    (hhandles : ∀ page, o = .ok page → ∀ e ∈ page.entries, ∀ h ∈ e.handle, h.IsShort) :
    Procedure.readDirectoryPlus.IsResult (encode o) := by
  refine isOutcome_page (f := fun e => (e.fileId, e.name, e.cookie, e.attributes, e.handle))
    (fun _ => rfl) (fun page hpage e he => ?_) fun page hpage => ?_
  · exact ⟨trivial, (hnames page hpage e he).trans (by decide), trivial,
      Format.fits_of_isFixed rfl _, fun h hh => (hhandles page hpage e he h hh).fits⟩
  · exact List.forall_mem_map.2 (hhandles page hpage)

/-- What a procedure answers is what the file service says about its results. -/
theorem Procedure.ends_perform (hb : b.handles.WellFormed) (hstore : b.store.WithinLimits)
    (verifier : FixedBytes 8) (p : Procedure) (args : p.Args) :
    (p.perform now verifier args).Ends now b fun response b' =>
      b'.handles.HasShortHandles → ∀ r, response = .results r →
        p.IsResult (p.resultFormat.encode r) := by
  by_cases hfixed : p.HasFixedResult
  · exact fun _ r _ => isResult_of_fixed hfixed r
  · cases p with
    | lookup =>
      refine ends_results ((ends_lookup hb args).mono fun o b' hissued hshort => ?_)
      refine isResult_lookup fun r hr => hshort r.object ?_
      rwa [hr] at hissued
    | readLink =>
      exact ends_results ((ends_readLink hb hstore args).mono
        fun o b' htarget _ => isResult_readLink htarget)
    | read =>
      exact ends_results ((ends_read hb args).mono fun o b' hdata _ => isResult_read hdata)
    | create | makeDirectory | makeSymlink =>
      refine ends_results ((ends_addEntry_issued hb args.entry _).mono
        fun o b' hissued hshort => ?_)
      exact isResult_create fun r hr h hh => hshort h (hissued r hr h hh)
    | makeNode =>
      exact ends_results ((ends_makeNode hb args).mono
        fun o b' hfailed _ => isResult_makeNode hfailed)
    | readDirectory =>
      exact ends_results ((ends_readDirectory hstore args).mono
        fun o b' hnames _ => isResult_readDirectory hnames)
    | readDirectoryPlus =>
      refine ends_results ((ends_readDirectoryPlus hb hstore args).mono
        fun o b' hpage hshort => ?_)
      exact isResult_readDirectoryPlus (fun page h => (hpage page h).1)
        fun page h e he handle hh => hshort handle ((hpage page h).2 e he handle hh)
    | null | getAttributes | setAttributes | access | write | remove | removeDirectory | rename
    | makeLink | fileSystemSpace | fileSystemLimits | namingLimits | commit =>
      exact absurd trivial hfixed

end Nfs

namespace Mount

theorem isResult_mount {r : MountResult}
    (h : ∀ root, r = .ok root → root.handle.IsShort ∧ root.flavors = flavors) :
    Procedure.mount.IsResult (encode r) := by
  have hstatus : ∀ status : MountStatus,
      Format.ReadsBack (decode MountStatus) (encode status) status :=
    fun status => Format.readsBack_encode Wire.format trivial
  cases r with
  | ok root =>
    obtain ⟨hshort, hflavors⟩ := h root rfl
    have hlength : root.flavors.length ≤ 2 ^ 20 := by
      rw [hflavors]
      decide
    have hfits : Format.Fits Wire.format (root.handle, root.flavors) := ⟨hshort.fits, hlength⟩
    exact ⟨.ok, encode root, hstatus .ok _, Format.spells_encode hfits hshort⟩
  | failed cause => exact ⟨.failed cause, [], hstatus (.failed cause) _, rfl⟩

/-- The list of exports holds one directory, which is open to all clients. -/
theorem isResult_listExports {exportName : Text} (h : (Utf8.encode exportName).length ≤ 1024) :
    Procedure.listExports.IsResult (encode (exports exportName)) := by
  have hfits : (Format.chain (.pair .varData (.chain .varData))).Fits
      [(Utf8.encode exportName, [])] := by
    refine List.forall_mem_singleton.2 ⟨h.trans (by decide), fun _ hgroup => ?_⟩
    exact absurd hgroup List.not_mem_nil
  have hspelling : (Format.chain (.pair .varData (.chain .varData))).encode
      [(Utf8.encode exportName, [])] = encode (exports exportName) := by
    let zero := Bytes.bigEndian 4 0
    let one := Bytes.bigEndian 4 1
    let name := Format.varData.encode (Utf8.encode exportName)
    show (one ++ (name ++ ([] ++ zero)) ++ []) ++ zero = one ++ (name ++ (zero ++ zero))
    rw [List.append_nil, List.nil_append, List.append_assoc, List.append_assoc]
  rw [← hspelling]
  exact Format.spells_encode hfits trivial

/-- What a procedure answers is what the mount service says about its results. -/
theorem Procedure.ends_perform (hb : b.handles.WellFormed) {exportName : Text}
    (hexport : (Utf8.encode exportName).length ≤ 1024) (p : Procedure) (args : p.Args) :
    (p.perform exportName args).Ends now b fun r b' =>
      b'.handles.HasShortHandles → p.IsResult (p.resultFormat.encode r) := by
  cases p with
  | null | unmount | unmountAll => exact fun _ => rfl
  | mount =>
    refine (ends_mount hb exportName args).mono fun r b' hends hshort => ?_
    refine isResult_mount fun root hroot => ?_
    rw [hroot] at hends
    exact ⟨hshort root.handle hends.1, hends.2⟩
  | listMounts =>
    exact fun _ => Format.spells_encode (f := .chain (.pair .varData .varData)) (a := [])
      (fun _ h => absurd h List.not_mem_nil) trivial
  | listExports => exact fun _ => isResult_listExports hexport

end Mount

namespace Rpc

theorem Procedure.ends_perform (hb : b.handles.WellFormed) (hstore : b.store.WithinLimits)
    (verifier : FixedBytes 8) {exportName : Text}
    (hexport : (Utf8.encode exportName).length ≤ 1024) (p : Procedure) (args : p.Args) :
    (p.perform now verifier exportName args).Ends now b fun response b' =>
      b'.handles.HasShortHandles → ∀ r, response = .results r →
        p.IsResult (p.resultFormat.encode r) := by
  cases p with
  | nfs p => exact p.ends_perform hb hstore verifier args
  | mount p => exact ends_results (p.ends_perform hb hexport args)

end Rpc

namespace Server

open Rpc

/-- What follows the header of a reply to an accepted call is, to the last byte, what the service of
the called procedure says about its results.  The store may hold any names and link targets that
clients can send, as every empty store does (`Memory.withinLimits_empty`), and the handles that have
been drawn up to the reply are no longer than a handle may be. -/
theorem results_to_the_last_byte (config : ServerConfig)
    (hexport : (Utf8.encode config.exportName).length ≤ 1024) (limit : Nat) (ids : HandleSource)
    (store : Memory)
    (hstore : store.WithinLimits) (before : List Incoming) (m : Incoming) :
    let s := (start config ⟨store, .cached (.empty limit ids), []⟩).after before
    (∀ c, (s.take m).2.backend.handles = .cached c → ∀ n < c.issued, (ids.draw n).IsShort) →
    ∀ results, (s.take m).1.results? = some results →
      ∃ c, Call.read? config.policy m.input = some c ∧ c.procedure.IsResult results := by
  intro s hdrawn results hresults
  have hstart : (start config ⟨store, .cached (.empty limit ids), []⟩).backend.handles.WellFormed :=
    HandleCache.wellFormed_empty limit ids
  obtain ⟨hwell, hlater⟩ := handles_after hstart before
  have hlimits : s.backend.store.WithinLimits := withinLimits_after hstore before
  have hconfig : s.config = config := config_after _ before
  obtain ⟨c, r, hanswers, rfl⟩ := answers_of_results? hresults
  have hcall := read?_of_performed? hanswers.1
  rw [hconfig] at hcall
  refine ⟨c, hcall, ?_⟩
  -- The results may hold handles that this very call has issued, so the table behind it counts.
  have hshort : (s.take m).2.backend.handles.HasShortHandles := by
    have hlater' := hlater.trans (handles_take hwell m).2
    obtain ⟨cache, hcache⟩ := hlater'.cached_iff.1 ⟨_, rfl⟩
    rw [hcache] at hlater' ⊢
    have hids : cache.ids = ids := HandleCache.Later.ids_eq hlater'
    exact HandleTable.hasShortHandles_cached (hids ▸ hdrawn cache hcache)
  have hbackend := backend_take s m
  rw [hanswers.1] at hbackend
  rw [hbackend] at hshort
  rw [← hconfig] at hexport
  exact c.procedure.ends_perform hwell hlimits s.config.writeVerifier hexport c.arguments hshort r
    hanswers.2

/-- The reply to the mount of the root directory. -/
theorem results_to_the_last_byte_mount :
    let config : ServerConfig := ⟨.known, ['/'], Bytes.zeros 8⟩
    let mount := Call.sentAt ⟨0⟩ ⟨7, .mount .mount, [0x2F]⟩
    let s := start config ⟨Memory.empty ⟨0⟩ false 1000, .cached (.empty 4 .uuids), []⟩
    let results := encode (Mount.MountResult.ok ⟨HandleSource.uuids.draw 0, Mount.flavors⟩)
    (s.take mount).1.results? = some results ∧
      (∀ c, (s.take mount).2.backend.handles = .cached c →
        ∀ n < c.issued, (HandleSource.uuids.draw n).IsShort) ∧
      (Procedure.mount .mount).IsResult results := by
  intro config mount s results
  have hresults : (s.take mount).1.results? = some results := by decide +kernel
  have hdrawn : ∀ c, (s.take mount).2.backend.handles = .cached c →
      ∀ n < c.issued, (HandleSource.uuids.draw n).IsShort := by
    intro c hc n hn
    have hissued : c.issued = 1 := by
      have hone : (match (s.take mount).2.backend.handles with
        | .cached c => c.issued
        | .pathText => 0) = 1 := by decide +kernel
      rwa [hc] at hone
    obtain rfl : n = 0 := by omega
    unfold FileHandle.IsShort
    decide
  have hall := results_to_the_last_byte config (by decide +kernel) 4 .uuids (.empty ⟨0⟩ false 1000)
    (Memory.withinLimits_empty ⟨0⟩ false 1000) [] mount
  have hs : (start config ⟨Memory.empty ⟨0⟩ false 1000, .cached (.empty 4 .uuids), []⟩).after
      [] = s := rfl
  rw [hs] at hall
  obtain ⟨c, hcall, hresult⟩ := hall hdrawn results hresults
  rw [Call.read?_sentAt rfl (by decide)] at hcall
  obtain rfl := Option.some.inj hcall
  exact ⟨hresults, hdrawn, hresult⟩

end Server

end NfsServer
