import NfsServer.Proofs.Nfs.Data
import NfsServer.Proofs.Rpc.Reply
import NfsServer.Proofs.Wire.Canonical

/-!
# Calls that would make special files

By the definition of the protocol, what a call says about a file to make depends on the type of the
file (`Nfs.FileType.nodePayload`).  The server reads the same few words for every type.  These are
found at the front of what the protocol has for the four types of special files, so that calls for
them get their answer; they are missing for all other types, so that calls for these close the
connection (`Server.make_node_answered_iff`).
-/

namespace NfsServer

namespace Format

variable {α β : Type} {bs between rest : Bytes}

theorem decode_pair_of_ok {f : Format α} {g : Format β} {a : α} {b : β}
    (hfirst : f.decode bs = .ok (a, between)) (hsecond : g.decode between = .ok (b, rest)) :
    (pair f g).decode bs = .ok ((a, b), rest) := by
  rw [decode_pair_eq, andThen_of_ok hfirst, andThen_of_ok hsecond]

theorem decode_via_of_ok {f : α → β} {g : β → α} {right : ∀ b, f (g b) = b}
    {left : ∀ a, g (f a) = a} {inner : Format α} {a : α} (h : inner.decode bs = .ok (a, rest)) :
    (via f g right left inner).decode bs = .ok (f a, rest) := by
  rw [decode_via_eq, andThen_of_ok h]

/-- Data that is longer than a record is refused. -/
theorem decode_encode_of_long {data : Bytes} (hlong : maxRecordLength < data.length)
    (hlength : data.length < 2 ^ 32) (rest : Bytes) :
    NfsServer.decode Bytes (NfsServer.encode data ++ rest) = .error .dataTooLong := by
  have hencode : NfsServer.encode data ++ rest =
      Bytes.bigEndian 4 data.length ++ (pad data ++ rest) := List.append_assoc _ _ _
  rw [hencode]
  exact (Refuses.varData hlong).error hlength _

/-- A word is read from any four bytes. -/
theorem exists_decode_word (h : 4 ≤ bs.length) :
    ∃ w rest, word.decode bs = .ok (w, rest) ∧ 4 + rest.length = bs.length := by
  obtain ⟨⟨front, rest⟩, hcut⟩ := Option.ne_none_iff_exists'.1
    (mt Bytes.split?_eq_none_iff.1 (Nat.not_lt.2 h))
  obtain ⟨rfl, hfront⟩ := Bytes.split?_eq_some_iff.1 hcut
  refine ⟨UInt32.ofNat (Bytes.toNat front), rest, ?_, ?_⟩
  · unfold decode decodeNumber decodeExact
    rw [hcut]
  · rw [List.length_append, hfront]

/-- What may be absent begins with the word that tells whether it is there. -/
theorem exists_encode_optional (f : Format α) (v : Option α) :
    ∃ (present : Bool) (content : Bytes),
      (optional f).encode v = Bytes.bigEndian 4 present.toNat ++ content := by
  cases v with
  | none => exact ⟨false, [], (List.append_nil _).symm⟩
  | some a => exact ⟨true, f.encode a, rfl⟩

theorem four_le_length_encode_optional (f : Format α) (v : Option α) :
    4 ≤ ((optional f).encode v).length := by
  obtain ⟨present, content, hencode⟩ := exists_encode_optional f v
  rw [hencode, List.length_append, Bytes.length_bigEndian]
  exact Nat.le_add_right 4 _

end Format

namespace Nfs

open Format Program

/-! ## What the protocol has -/

/-- What a call says about a new file of a type, by the definition of the protocol. -/
abbrev FileType.NodePayload : FileType → Type
  | characterDevice | blockDevice => AttributeRequest × DeviceNumbers
  | socket | pipe => AttributeRequest
  | regular | directory | symlink => Unit

/-- How that is spelled. -/
def FileType.nodePayload : (t : FileType) → Format t.NodePayload
  | characterDevice | blockDevice => Wire.format
  | socket | pipe => Wire.format
  | regular | directory | symlink => .void

/-- Whether files of a type are special files. -/
def FileType.isSpecial : FileType → Bool
  | characterDevice | blockDevice | socket | pipe => true
  | regular | directory | symlink => false

/-- The arguments by the definition of the protocol. -/
def nodeArguments : Format (EntryName × ((t : FileType) × t.NodePayload)) :=
  .pair Wire.format (.tagged Wire.format FileType.nodePayload)

/-! ## What the server reads -/

/-- The numbers of a device are read from any eight bytes. -/
theorem exists_decode_deviceNumbers {bs : Bytes} (h : 8 ≤ bs.length) :
    ∃ d rest, decode DeviceNumbers bs = .ok (d, rest) := by
  obtain ⟨major, between, hmajor, hbetween⟩ := exists_decode_word (le_trans (by decide) h)
  have hlength : 4 ≤ between.length := by omega
  obtain ⟨minor, rest, hminor, -⟩ := exists_decode_word hlength
  exact ⟨_, rest, decode_via_of_ok (decode_pair_of_ok hmajor hminor)⟩

/-- The server reads the word that tells whether a mode is asked for as the type of a device. -/
theorem exists_decode_deviceSpec (wanted : Bool) {bs : Bytes} (h : 8 ≤ bs.length) :
    ∃ d rest, decode DeviceSpec (Bytes.bigEndian 4 wanted.toNat ++ bs) = .ok (d, rest) := by
  obtain ⟨numbers, rest, hnumbers⟩ := exists_decode_deviceNumbers h
  -- The words for absent and present are the numbers of the first two types of devices.
  obtain ⟨t, ht⟩ : ∃ t : DeviceType, encode t = Bytes.bigEndian 4 wanted.toNat := by
    cases wanted
    · exact ⟨.character, rfl⟩
    · exact ⟨.block, rfl⟩
  have hfits : (Wire.format : Format DeviceType).Fits t := trivial
  have htype := readsBack_encode _ hfits bs
  rw [← ht]
  exact ⟨_, rest, decode_via_of_ok (decode_pair_of_ok htype hnumbers)⟩

/-- Requested attributes begin with the word that tells whether a mode is asked for, and go on with
enough words for the numbers of a device. -/
theorem exists_encode_attributeRequest (r : AttributeRequest) :
    ∃ (wanted : Bool) (rest : Bytes),
      encode r = Bytes.bigEndian 4 wanted.toNat ++ rest ∧ 8 ≤ rest.length := by
  obtain ⟨wanted, content, hmode⟩ := exists_encode_optional .word r.mode
  have huid := four_le_length_encode_optional .word r.uid
  have hgid := four_le_length_encode_optional .word r.gid
  have hencode : encode r = (optional .word).encode r.mode ++ ((optional .word).encode r.uid ++
      ((optional .word).encode r.gid ++ encode (r.size, r.accessed, r.modified))) := rfl
  rw [hencode, hmode, List.append_assoc]
  refine ⟨wanted, _, rfl, ?_⟩
  rw [List.length_append, List.length_append, List.length_append]
  omega

/-- What a call says about a special file begins with requested attributes. -/
theorem FileType.exists_encode_nodePayload {t : FileType} (h : t.isSpecial = true)
    (v : t.NodePayload) :
    ∃ (r : AttributeRequest) (rest : Bytes), t.nodePayload.encode v = encode r ++ rest := by
  cases t with
  | characterDevice | blockDevice => exact ⟨v.1, encode v.2, rfl⟩
  | socket | pipe => exact ⟨v, [], (List.append_nil _).symm⟩
  | regular | directory | symlink => cases h

theorem FileType.encode_nodePayload_eq_nil {t : FileType} (h : t.isSpecial = false)
    (v : t.NodePayload) : t.nodePayload.encode v = [] := by
  cases t with
  | characterDevice | blockDevice | socket | pipe => cases h
  | regular | directory | symlink => rfl

section Arguments

variable {entry : EntryName} {t : FileType}

/-- Neither the handle nor the name is longer than a record. -/
def EntryName.IsReadable (entry : EntryName) : Prop :=
  entry.directory.bytes.length ≤ maxRecordLength ∧ entry.name.length ≤ maxRecordLength

theorem EntryName.IsReadable.decode_append (h : entry.IsReadable) (rest : Bytes) :
    decode EntryName (encode entry ++ rest) = .ok (entry, rest) := by
  have hfits : (Wire.format : Format EntryName).Fits entry := h
  exact readsBack_encode _ hfits rest

theorem decode_fileType_append (t : FileType) (rest : Bytes) :
    decode FileType (encode t ++ rest) = .ok (t, rest) := by
  have hfits : (Wire.format : Format FileType).Fits t := trivial
  exact readsBack_encode _ hfits rest

theorem encode_nodeArguments (entry : EntryName) (t : FileType) (v : t.NodePayload) :
    nodeArguments.encode (entry, ⟨t, v⟩) = encode entry ++ (encode t ++ t.nodePayload.encode v) :=
  rfl

theorem exists_decode_nodeArguments (hentry : entry.IsReadable) (ht : t.isSpecial = true)
    (v : t.NodePayload) :
    ∃ node rest, decode MakeNodeArgs (nodeArguments.encode (entry, ⟨t, v⟩)) =
      .ok (⟨entry, node⟩, rest) := by
  obtain ⟨r, behind, hpayload⟩ := FileType.exists_encode_nodePayload ht v
  obtain ⟨wanted, words, hrequest, hlength⟩ := exists_encode_attributeRequest r
  have hdevice : 8 ≤ (words ++ behind).length := by
    rw [List.length_append]
    exact Nat.le_add_right_of_le hlength
  obtain ⟨device, rest, hdevice⟩ := exists_decode_deviceSpec wanted hdevice
  rw [← List.append_assoc, ← hrequest, ← hpayload] at hdevice
  rw [encode_nodeArguments]
  have hnode : decode NodeSpec (encode t ++ t.nodePayload.encode v) = .ok (⟨t, device⟩, rest) :=
    decode_via_of_ok (decode_pair_of_ok (decode_fileType_append t _) hdevice)
  exact ⟨⟨t, device⟩, rest, decode_via_of_ok (decode_pair_of_ok (hentry.decode_append _) hnode)⟩

theorem decode_nodeArguments_of_not_special (hentry : entry.IsReadable)
    (ht : t.isSpecial = false) (v : t.NodePayload) :
    decode MakeNodeArgs (nodeArguments.encode (entry, ⟨t, v⟩)) = .error .truncated := by
  rw [encode_nodeArguments, FileType.encode_nodePayload_eq_nil ht]
  have hdevice : Meets (Wire.format : Format MakeNodeArgs) (encode entry ++ (encode t ++ []))
      (Wire.format : Format DeviceSpec) [] :=
    .through (.second (hentry.decode_append _)
      (.through (.second (decode_fileType_append t []) .here)))
  exact hdevice.error rfl

/-- A name that is longer than a record is refused before anything behind it is read. -/
theorem decode_makeNodeArgs_of_not_readable (hdirectory : entry.directory.bytes.length < 2 ^ 32)
    (hname : entry.name.length < 2 ^ 32) (hentry : ¬entry.IsReadable) (rest : Bytes) :
    decode MakeNodeArgs (encode entry ++ rest) = .error .dataTooLong := by
  have hencode : encode entry ++ rest =
      encode entry.directory.bytes ++ (encode entry.name ++ rest) := List.append_assoc _ _ _
  rw [hencode]
  by_cases hlong : maxRecordLength < entry.directory.bytes.length
  · have hmeets : Meets (Wire.format : Format MakeNodeArgs)
        (encode entry.directory.bytes ++ (encode entry.name ++ rest)) (Wire.format : Format Bytes)
        (encode entry.directory.bytes ++ (encode entry.name ++ rest)) :=
      .through (.first (.through (.first (.through .here))))
    exact hmeets.error (decode_encode_of_long hlong hdirectory _)
  · have hfits : (Wire.format : Format FileHandle).Fits entry.directory := Nat.not_lt.1 hlong
    have hmeets : Meets (Wire.format : Format MakeNodeArgs)
        (encode entry.directory.bytes ++ (encode entry.name ++ rest)) (Wire.format : Format Bytes)
        (encode entry.name ++ rest) :=
      .through (.first (.through (.second (readsBack_encode _ hfits _) .here)))
    have hlong' : maxRecordLength < entry.name.length :=
      Nat.lt_of_not_le fun hle => hentry ⟨Nat.not_lt.1 hlong, hle⟩
    exact hmeets.error (decode_encode_of_long hlong' hname _)

end Arguments

/-! ## What the server answers -/

section Answer

variable {σ : Type} [Store σ]

/-- The attributes of the object that a handle stands for, if it stands for one and the store tells
them. -/
def attributesOfHandle? (now : Time) (b : Backend σ) (h : FileHandle) : Option FileAttributes :=
  match (b.handles.resolve h).1 with
  | .error _ => none
  | .ok p => (Store.perform now (.stat p) b.store).1.toOption.map fun m => m.attributesAt p

theorem attributesOfHandle?_of_standsFor (now : Time) {b : Backend Memory} {h : FileHandle}
    {p : Path} {o : Object} (hobject : b.StandsFor h p o) :
    attributesOfHandle? now b h = some (o.metadata.attributesAt p) := by
  have hstat : b.store.stat p.location = .ok o.metadata :=
    Memory.stat_eq_ok_iff.2 ⟨o, hobject.find?, rfl⟩
  have hperform : (Store.perform now (.stat p) b.store).1 = .ok o.metadata := hstat
  unfold attributesOfHandle?
  rw [hobject.resolve]
  dsimp only
  rw [hperform]
  rfl

theorem run_attributesOf?_fst (now : Time) (b : Backend σ) (p : Path) :
    ((attributesOf? p).run now b).1 =
      (Store.perform now (.stat p) b.store).1.toOption.map fun m => m.attributesAt p := by
  have hattempt : (attempt (.stat p)).run now b = (report (Store.perform now (.stat p) b.store).1,
    { b with store := (Store.perform now (.stat p) b.store).2 }) := rfl
  rw [attributesOf?, run_bind, hattempt]
  cases (Store.perform now (.stat p) b.store).1 with
  | error e => rfl
  | ok m => rfl

/-- The results for a file that cannot be made in a directory. -/
def nodeRefusal (now : Time) (b : Backend σ) (directory : FileHandle) : Outcome WccData WccData :=
  .failed .notSupported ⟨none, attributesOfHandle? now b directory⟩

theorem run_makeNode_fst (now : Time) (b : Backend σ) (args : MakeNodeArgs) :
    ((makeNode args).run now b).1 = nodeRefusal now b args.entry.directory := by
  unfold nodeRefusal attributesOfHandle?
  cases hresolve : (b.handles.resolve args.entry.directory).1 with
  | error e =>
    have hrun : (Program.resolve args.entry.directory).run now b =
      (.error e, { b with handles := (b.handles.resolve args.entry.directory).2 }) :=
        Prod.ext hresolve rfl
    rw [makeNode, run_bind, hrun]
    rfl
  | ok p =>
    rw [makeNode, run_resolve_then hresolve]
    dsimp only
    rw [run_bind]
    show Outcome.failed _ (WccData.mk none ((attributesOf? p).run now _).1) = _
    rw [run_attributesOf?_fst]

end Answer

end Nfs

namespace Server

open Rpc Nfs

variable {σ : Type} [Store σ] {s : Server σ} {m : Incoming} {xid : UInt32} {header : CallHeader}
  {arguments rest : Bytes} {p : Rpc.Procedure}

theorem take_of_undecodable {e : DecodeError} (hadmits : s.Admits m xid header arguments)
    (hfind : Procedure.find header.program header.version header.procedure = .ok p)
    (harguments : p.argsFormat.decode arguments = .error e) :
    (s.take m).1 = .closed (.undecodable e) ∧ (s.take m).2.backend = s.backend := by
  have hclosed : (s.take m).1 = .closed (.undecodable e) :=
    take_closed_iff.2 (.malformed hadmits hfind harguments)
  exact ⟨hclosed, backend_take_of_closed hclosed⟩

theorem take_makeNode {args : MakeNodeArgs} (hadmits : s.Admits m xid header arguments)
    (hfind : Procedure.find header.program header.version header.procedure = .ok (.nfs .makeNode))
    (harguments : decode MakeNodeArgs arguments = .ok (args, rest)) :
    (s.take m).1 = .reply (replyTo xid (.nfs .makeNode)
      (.results (nodeRefusal m.clock.performed s.backend args.entry.directory))) := by
  have hperform : (((Rpc.Procedure.nfs .makeNode).perform m.clock.performed
      s.config.writeVerifier s.config.exportName args).run m.clock.performed s.backend).1 =
        .results (nodeRefusal m.clock.performed s.backend args.entry.directory) := by
    show (((makeNode args).responding).run _ _).1 = _
    rw [Program.run_responding, run_makeNode_fst]
  have hexecute : (s.execute m.clock.performed xid (.nfs .makeNode) arguments).1 = _ :=
    congrArg Prod.fst (execute_of_ok (p := .nfs .makeNode) harguments)
  rw [hadmits.take_eq.1, answer_of_ok hfind, hexecute, hperform]

/-- A call whose arguments are spelled as the protocol defines them is answered exactly if it is for
a special file and neither its handle nor its name is longer than a record.  The answer is that such
files are not supported, with the attributes of the directory if its handle stands for one.  Any
other such call closes the connection, as its arguments cannot be read, and changes nothing. -/
theorem make_node_answered_iff {entry : EntryName} {node : (t : FileType) × t.NodePayload}
    (hadmits : s.Admits m xid header (nodeArguments.encode (entry, node)))
    (hfind : Procedure.find header.program header.version header.procedure = .ok (.nfs .makeNode))
    (hdirectory : entry.directory.bytes.length < 2 ^ 32) (hname : entry.name.length < 2 ^ 32) :
    let reply := replyTo xid (.nfs .makeNode)
      (.results (nodeRefusal m.clock.performed s.backend entry.directory))
    ((s.take m).1 = .reply reply ↔ entry.IsReadable ∧ node.1.isSpecial = true) ∧
      ((s.take m).1 ≠ .reply reply →
        (∃ e, (s.take m).1 = .closed (.undecodable e) ∧ (e = .truncated ↔ entry.IsReadable)) ∧
        (s.take m).2.backend = s.backend) := by
  intro reply
  obtain ⟨t, v⟩ := node
  have hclosed {e : DecodeError}
      (he : decode MakeNodeArgs (nodeArguments.encode (entry, ⟨t, v⟩)) = .error e) :
      (s.take m).1 = .closed (.undecodable e) ∧ (s.take m).2.backend = s.backend :=
    take_of_undecodable hadmits hfind he
  by_cases hentry : entry.IsReadable
  · cases ht : t.isSpecial with
    | true =>
      obtain ⟨node, rest, harguments⟩ := exists_decode_nodeArguments hentry ht v
      have htake := take_makeNode hadmits hfind harguments
      exact ⟨iff_of_true htake ⟨hentry, rfl⟩, fun hnone => absurd htake hnone⟩
    | false =>
      obtain ⟨htake, hbackend⟩ := hclosed (decode_nodeArguments_of_not_special hentry ht v)
      rw [htake]
      exact ⟨iff_of_false CallOutcome.noConfusion fun h => Bool.false_ne_true h.2,
        fun _ => ⟨⟨_, rfl, iff_of_true rfl hentry⟩, hbackend⟩⟩
  · obtain ⟨htake, hbackend⟩ :=
      hclosed (decode_makeNodeArgs_of_not_readable hdirectory hname hentry _)
    rw [htake]
    exact ⟨iff_of_false CallOutcome.noConfusion fun h => hentry h.1,
      fun _ => ⟨⟨_, rfl, iff_of_false DecodeError.noConfusion hentry⟩, hbackend⟩⟩

/-- A pipe cannot be made in the root directory. -/
theorem make_node_answered_iff_pipe :
    let header := Procedure.header (.nfs .makeNode) .empty
    let entry : EntryName := ⟨⟨[0x2F]⟩, [0x66]⟩
    let arguments := nodeArguments.encode (entry, ⟨.pipe, AttributeRequest.empty⟩)
    let m : Incoming := ⟨.still ⟨2⟩, "host", encode (⟨7, .call header⟩ : Message) ++ arguments⟩
    let s : Server Memory :=
      start ⟨.known, ['/'], Bytes.zeros 8⟩ ⟨Memory.empty ⟨0⟩ false 10, .pathText, []⟩
    (s.Admits m 7 header arguments ∧
        Procedure.find header.program header.version header.procedure = .ok (.nfs .makeNode) ∧
        entry.directory.bytes.length < 2 ^ 32 ∧ entry.name.length < 2 ^ 32) ∧
      (s.take m).1 = .reply (replyTo 7 (.nfs .makeNode)
        (.results (nodeRefusal ⟨2⟩ s.backend ⟨[0x2F]⟩))) ∧
      (attributesOfHandle? ⟨2⟩ s.backend ⟨[0x2F]⟩).isSome = true := by
  intro header entry arguments m s
  have hmessage : decode Message m.input = .ok (⟨7, .call header⟩, arguments) := by
    decide +kernel
  have hadmits : s.Admits m 7 header arguments := ⟨hmessage, rfl, rfl, rfl⟩
  have hfind : Procedure.find header.program header.version header.procedure =
      .ok (.nfs .makeNode) := rfl
  have hlengths : entry.directory.bytes.length < 2 ^ 32 ∧ entry.name.length < 2 ^ 32 := by decide
  have hreadable : entry.IsReadable := ⟨by decide, by decide⟩
  obtain ⟨hanswered, -⟩ := make_node_answered_iff hadmits hfind hlengths.1 hlengths.2
  have hobject : s.backend.StandsFor ⟨[0x2F]⟩ .root _ := ⟨rfl, rfl⟩
  refine ⟨⟨hadmits, hfind, hlengths⟩, hanswered.2 ⟨hreadable, rfl⟩, ?_⟩
  rw [attributesOfHandle?_of_standsFor ⟨2⟩ hobject]
  rfl

/-- A call for a regular file, of which the protocol has nothing to say, closes the connection. -/
theorem make_regular_node_closes :
    let m : Incoming := ⟨.still ⟨2⟩, "host",
      encode (⟨7, .call (Procedure.header (.nfs .makeNode) .empty)⟩ : Message) ++
        nodeArguments.encode (⟨⟨[0x2F]⟩, [0x66]⟩, ⟨.regular, ()⟩)⟩
    let s : Server Memory :=
      start ⟨.known, ['/'], Bytes.zeros 8⟩ ⟨Memory.empty ⟨0⟩ false 10, .pathText, []⟩
    (s.take m).1 = .closed (.undecodable .truncated) := by
  decide +kernel

end Server

end NfsServer
