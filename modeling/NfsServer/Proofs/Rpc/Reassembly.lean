import Mathlib.Data.List.Basic
import NfsServer.Connection
import NfsServer.Proofs.Bytes
import NfsServer.Proofs.Run
import NfsServer.Store.Memory

/-!
# Reassembly of records

The records of a stream are given a second time, in two passes: `Fragment.cut` cuts the stream into
fragments and looks at nothing but their headers, and `join` puts the payloads together and looks at
nothing but the lengths of the records.  A `Division` says where reading stops.  A connection takes
exactly the messages that the two passes give (`Server.serve_takes_parse`), and they give back every
list of records that are short enough, however they are cut into fragments.
-/

namespace NfsServer

namespace Rpc.Record

/-! ## The reference -/

/-- A fragment of a record: whether it is the last one, and its payload. -/
structure Fragment where
  isLast : Bool
  payload : Bytes
  deriving DecidableEq, Repr

namespace Fragment

/-- A fragment as it travels. -/
def spelling (f : Fragment) : Bytes := header f.isLast f.payload.length ++ f.payload

/-- The fragment at the front of a stream, if its header and its payload are there: the top bit of
the header marks the last one, and the other bits are the length of the payload. -/
def read? (stream : Bytes) : Option (Fragment × Bytes) :=
  match Bytes.split? 4 stream with
  | none => none
  | some (head, rest) =>
    match Bytes.split? (Bytes.toNat head % lastMark) rest with
    | none => none
    | some (payload, rest) => some (⟨decide (lastMark ≤ Bytes.toNat head), payload⟩, rest)

theorem length_of_read? {stream rest : Bytes} {f : Fragment} (h : read? stream = some (f, rest)) :
    rest.length < stream.length := by
  unfold read? at h
  split at h
  · cases h
  · next head tail hhead =>
    obtain ⟨rfl, hlength⟩ := Bytes.split?_eq_some_iff.1 hhead
    split at h
    · cases h
    · next payload tail' hpayload =>
      obtain ⟨rfl, -⟩ := Bytes.split?_eq_some_iff.1 hpayload
      cases h
      simp only [List.length_append]
      omega

/-- The fragments with which a stream begins, up to the first one that is not all there. -/
def cut (stream : Bytes) : List Fragment :=
  match _h : read? stream with
  | none => []
  | some (f, rest) => f :: cut rest
termination_by stream.length
decreasing_by exact length_of_read? _h

end Fragment

/-- The records that fragments complete, when `record` has been read of the first one: the payloads
up to each last fragment.  Nothing is taken from the first fragment on that makes a record too
long. -/
def join (record : Bytes) : List Fragment → List Bytes
  | [] => []
  | f :: rest =>
    if maxRecordLength < (record ++ f.payload).length then []
    else if f.isLast then (record ++ f.payload) :: join [] rest
    else join (record ++ f.payload) rest

/-- The records of a stream. -/
def parse (stream : Bytes) : List Bytes := join [] (Fragment.cut stream)

/-- Pieces of a record as its fragments. -/
def inFragments : List Bytes → List Fragment
  | [] => []
  | [piece] => [⟨true, piece⟩]
  | piece :: others => ⟨false, piece⟩ :: inFragments others

/-! ## Fragments of a stream -/

namespace Fragment

theorem cut_of_none {stream : Bytes} (h : read? stream = none) : cut stream = [] := by
  rw [cut]
  split
  · rfl
  · next f rest hread => cases h.symm.trans hread

theorem cut_of_some {stream rest : Bytes} {f : Fragment} (h : read? stream = some (f, rest)) :
    cut stream = f :: cut rest := by
  rw [cut]
  split
  · next hread => cases h.symm.trans hread
  · next f' rest' hread =>
    obtain ⟨rfl, rfl⟩ := Prod.mk.inj (Option.some.inj (h.symm.trans hread))
    rfl

theorem toNat_header {n : Nat} (h : n < lastMark) (isLast : Bool) :
    Bytes.toNat (header isLast n) = if isLast then lastMark + n else n := by
  unfold lastMark at h
  unfold header
  rw [Bytes.toNat_bigEndian]
  unfold lastMark
  split <;> omega

/-- A fragment is read back from its spelling. -/
theorem read?_spelling {f : Fragment} (h : f.payload.length < lastMark) (rest : Bytes) :
    read? (f.spelling ++ rest) = some (f, rest) := by
  obtain ⟨isLast, payload⟩ := f
  have hhead : Bytes.split? 4 (spelling ⟨isLast, payload⟩ ++ rest) =
      some (header isLast payload.length, payload ++ rest) :=
    Bytes.split?_eq_some_iff.2 ⟨List.append_assoc _ _ _, Bytes.length_bigEndian 4 _⟩
  have hlength : Bytes.toNat (header isLast payload.length) % lastMark = payload.length := by
    rw [toNat_header h]
    cases isLast
    · exact Nat.mod_eq_of_lt h
    · exact (Nat.add_mod_left lastMark payload.length).trans (Nat.mod_eq_of_lt h)
  have hlast : decide (lastMark ≤ Bytes.toNat (header isLast payload.length)) = isLast := by
    rw [toNat_header h]
    cases isLast
    · exact decide_eq_false (Nat.not_le.2 h)
    · exact decide_eq_true (Nat.le_add_right lastMark payload.length)
  have hpayload : Bytes.split? payload.length (payload ++ rest) = some (payload, rest) :=
    Bytes.split?_eq_some_iff.2 ⟨rfl, rfl⟩
  unfold read?
  simp only [hhead, hlength, hpayload, hlast]

theorem cut_spellings_append {fs : List Fragment} (h : ∀ f ∈ fs, f.payload.length < lastMark)
    (rest : Bytes) : cut (fs.flatMap spelling ++ rest) = fs ++ cut rest := by
  induction fs with
  | nil => rfl
  | cons f fs ih =>
    obtain ⟨hf, hfs⟩ := List.forall_mem_cons.1 h
    rw [List.flatMap_cons, List.append_assoc, cut_of_some (read?_spelling hf _), ih hfs,
      List.cons_append]

theorem cut_spellings {fs : List Fragment} (h : ∀ f ∈ fs, f.payload.length < lastMark) :
    cut (fs.flatMap spelling) = fs := by
  have hnil : cut [] = [] := cut_of_none rfl
  have happend := cut_spellings_append h []
  rwa [hnil, List.append_nil, List.append_nil] at happend

end Fragment

/-! ## Records of a stream -/

/-- Reading a fragment is reading its header and payload and comparing the length that the record
would get. -/
theorem readFragment_of_some {record stream rest : Bytes} {f : Fragment}
    (h : Fragment.read? stream = some (f, rest)) :
    readFragment record stream =
      if maxRecordLength < (record ++ f.payload).length then
        .error (.recordTooLong (record ++ f.payload).length)
      else .ok (f.isLast, record ++ f.payload, rest) := by
  unfold Fragment.read? at h
  split at h
  · cases h
  · next head tail hhead =>
    split at h
    · cases h
    · next payload tail' hpayload =>
      cases h
      have hlength : payload.length = Bytes.toNat head % lastMark :=
        (Bytes.split?_eq_some_iff.1 hpayload).2
      unfold readFragment
      simp only [hhead, hpayload, List.length_append, hlength]

theorem readFragment_of_none {record stream : Bytes} (h : Fragment.read? stream = none) :
    ∃ e, readFragment record stream = .error e := by
  unfold Fragment.read? at h
  unfold readFragment
  cases hhead : Bytes.split? 4 stream with
  | none => exact ⟨_, rfl⟩
  | some head =>
    rw [hhead] at h
    dsimp only at h ⊢
    cases hpayload : Bytes.split? (Bytes.toNat head.1 % lastMark) head.2 with
    | none =>
      dsimp only
      split <;> exact ⟨_, rfl⟩
    | some payload =>
      rw [hpayload] at h
      cases h

theorem readFragment_eq_ok {record stream record' rest : Bytes} {isLast : Bool}
    (h : readFragment record stream = .ok (isLast, record', rest)) :
    ∃ f, Fragment.read? stream = some (f, rest) ∧
      ¬ maxRecordLength < (record ++ f.payload).length ∧ f.isLast = isLast ∧
      record' = record ++ f.payload := by
  cases hread : Fragment.read? stream with
  | none =>
    obtain ⟨e, he⟩ := readFragment_of_none hread
    cases h.symm.trans he
  | some head =>
    obtain ⟨f, rest'⟩ := head
    rw [readFragment_of_some hread] at h
    split at h
    · cases h
    · next hshort =>
      cases h
      exact ⟨f, rfl, hshort, rfl, rfl⟩

/-- Reading fragment by fragment completes the records that the two passes give. -/
theorem filterMap_fragmentsFrom (seen : List (Option Bytes)) (record stream : Bytes) :
    (fragmentsFrom seen record stream).1.filterMap id =
      seen.reverse.filterMap id ++ join record (Fragment.cut stream) := by
  fun_induction fragmentsFrom seen record stream with
  | case1 seen record stream e h =>
    cases hread : Fragment.read? stream with
    | none => rw [Fragment.cut_of_none hread, join, List.append_nil]
    | some head =>
      obtain ⟨f, rest⟩ := head
      rw [readFragment_of_some hread] at h
      split at h
      · next hlong => rw [Fragment.cut_of_some hread, join, if_pos hlong, List.append_nil]
      · cases h
  | case2 seen record stream record' rest h ih =>
    obtain ⟨f, hread, hshort, hlast, rfl⟩ := readFragment_eq_ok h
    rw [ih, Fragment.cut_of_some hread, join, if_neg hshort, if_pos hlast]
    simp
  | case3 seen record stream record' rest h ih =>
    obtain ⟨f, hread, hshort, hlast, rfl⟩ := readFragment_eq_ok h
    rw [ih, Fragment.cut_of_some hread, join, if_neg hshort, hlast]
    simp

/-- A fragment that another one follows adds its payload to what comes after it. -/
theorem join_inFragments {record : Bytes} {pieces : List Bytes} (hpieces : pieces ≠ [])
    (hlength : (record ++ pieces.flatten).length ≤ maxRecordLength) (behind : List Fragment) :
    join record (inFragments pieces ++ behind) =
      (record ++ pieces.flatten) :: join [] behind := by
  induction pieces generalizing record with
  | nil => exact absurd rfl hpieces
  | cons piece others ih =>
    rw [List.flatten_cons, ← List.append_assoc] at hlength ⊢
    have hshort : ¬ maxRecordLength < (record ++ piece).length := by
      rw [List.length_append] at hlength
      omega
    cases others with
    | nil =>
      change join record (⟨true, piece⟩ :: behind) = _
      rw [join, if_neg hshort, if_pos rfl, List.flatten_nil, List.append_nil]
    | cons next others =>
      change join record (⟨false, piece⟩ :: (inFragments (next :: others) ++ behind)) = _
      rw [join, if_neg hshort, if_neg Bool.false_ne_true, ih (List.cons_ne_nil next others) hlength]

theorem join_flatMap_inFragments {cuts : List (List Bytes)}
    (h : ∀ pieces ∈ cuts, pieces ≠ [] ∧ pieces.flatten.length ≤ maxRecordLength) :
    join [] (cuts.flatMap inFragments) = cuts.map List.flatten := by
  induction cuts with
  | nil => rfl
  | cons pieces cuts ih =>
    obtain ⟨⟨hpieces, hlength⟩, hcuts⟩ := List.forall_mem_cons.1 h
    rw [List.flatMap_cons, join_inFragments hpieces hlength, ih hcuts]
    rfl

theorem mem_of_mem_inFragments {pieces : List Bytes} {f : Fragment} (h : f ∈ inFragments pieces) :
    f.payload ∈ pieces := by
  fun_induction inFragments pieces with
  | case1 => cases h
  | case2 piece => exact List.mem_singleton.2 (congrArg Fragment.payload (List.mem_singleton.1 h))
  | case3 piece others _ ih =>
    rcases List.mem_cons.1 h with rfl | h
    · exact List.mem_cons_self
    · exact List.mem_cons_of_mem piece (ih h)

theorem maxRecordLength_lt_lastMark : maxRecordLength < lastMark := by decide

/-- However short records are cut into fragments, they are what the fragments are put together
to. -/
theorem parse_flatMap_spelling {cuts : List (List Bytes)}
    (h : ∀ pieces ∈ cuts, pieces ≠ [] ∧ pieces.flatten.length ≤ maxRecordLength) :
    parse ((cuts.flatMap inFragments).flatMap Fragment.spelling) = cuts.map List.flatten := by
  have hpayload : ∀ f ∈ cuts.flatMap inFragments, f.payload.length < lastMark := by
    intro f hf
    obtain ⟨pieces, hpieces, hf⟩ := List.mem_flatMap.1 hf
    have hle : f.payload.length ≤ pieces.flatten.length :=
      (List.sublist_flatten_of_mem (mem_of_mem_inFragments hf)).length_le
    exact (hle.trans (h pieces hpieces).2).trans_lt maxRecordLength_lt_lastMark
  rw [parse, Fragment.cut_spellings hpayload, join_flatMap_inFragments h]

/-- A short record is written as one fragment. -/
theorem frame_eq_spelling {record : Bytes} (h : record.length ≤ maxRecordLength) :
    frame record = (inFragments [record]).flatMap Fragment.spelling := by
  have hle : record.length ≤ maxFragment := h.trans (by decide)
  rewrite [frame, if_pos hle]
  exact (List.append_nil _).symm

theorem parse_flatMap_frame {records : List Bytes}
    (h : ∀ record ∈ records, record.length ≤ maxRecordLength) :
    parse (records.flatMap frame) = records := by
  have hframes : records.flatMap frame =
      ((records.map fun record => [record]).flatMap inFragments).flatMap Fragment.spelling := by
    rw [List.flatMap_map, List.flatMap_assoc]
    exact List.flatMap_congr fun record hrecord => frame_eq_spelling (h record hrecord)
  have hcuts : ∀ pieces ∈ records.map fun record => [record],
      pieces ≠ [] ∧ pieces.flatten.length ≤ maxRecordLength := by
    intro pieces hpieces
    obtain ⟨record, hrecord, rfl⟩ := List.mem_map.1 hpieces
    exact ⟨List.cons_ne_nil record [], by rw [List.flatten_singleton]; exact h record hrecord⟩
  rw [hframes, parse_flatMap_spelling hcuts, List.map_map]
  exact (List.map_congr_left fun record _ => List.flatten_singleton).trans (List.map_id' records)

/-! ## Where reading stops -/

/-- A piece of a record that another one follows. -/
def Fragment.more (piece : Bytes) : Fragment := ⟨false, piece⟩

/-- Pieces of short records that stand in `stream` one after the other, each record cut in some
way; then pieces of a short record that is not complete; then the point where reading stops. -/
structure Division (stream : Bytes) where
  cuts : List (List Bytes)
  unfinished : List Bytes
  rest : Bytes
  stream_eq : stream =
    (cuts.flatMap inFragments ++ unfinished.map Fragment.more).flatMap Fragment.spelling ++ rest
  short : ∀ pieces ∈ cuts, pieces ≠ [] ∧ pieces.flatten.length ≤ maxRecordLength
  unfinished_short : unfinished.flatten.length ≤ maxRecordLength
  stops : ∀ f behind, Fragment.read? rest = some (f, behind) →
    maxRecordLength < (unfinished.flatten ++ f.payload).length

namespace Fragment

theorem bigEndian_header {n word : Nat} (h : word < 256 ^ 4) (hn : n = word % lastMark) :
    header (decide (lastMark ≤ word)) n = Bytes.bigEndian 4 word := by
  unfold lastMark at *
  unfold header
  congr 1
  subst hn
  by_cases hmark : 2147483648 ≤ word
  · rw [decide_eq_true hmark, if_pos rfl, lastMark]
    omega
  · rw [decide_eq_false hmark, if_neg Bool.false_ne_true]
    omega

theorem spelling_of_read? {stream rest : Bytes} {f : Fragment} (h : read? stream = some (f, rest)) :
    stream = f.spelling ++ rest := by
  unfold read? at h
  split at h
  · cases h
  · next head tail hhead =>
    obtain ⟨rfl, hfour⟩ := Bytes.split?_eq_some_iff.1 hhead
    split at h
    · cases h
    · next payload tail' hpayload =>
      obtain ⟨rfl, hlength⟩ := Bytes.split?_eq_some_iff.1 hpayload
      cases h
      have hword : Bytes.toNat head < 256 ^ 4 := hfour ▸ Bytes.toNat_lt head
      have hheader := Bytes.bigEndian_toNat head
      rw [hfour] at hheader
      rw [spelling, bigEndian_header hword hlength, hheader, List.append_assoc]

end Fragment

theorem inFragments_concat (pieces : List Bytes) (piece : Bytes) :
    inFragments (pieces ++ [piece]) = pieces.map Fragment.more ++ [⟨true, piece⟩] := by
  induction pieces with
  | nil => rfl
  | cons first others ih =>
    cases others with
    | nil => rfl
    | cons next others => exact congrArg (Fragment.more first :: ·) ih

/-- What two passes give behind the pieces of an unfinished record are the records of a
division. -/
theorem exists_division_of_join {pieces : List Bytes}
    (hpieces : pieces.flatten.length ≤ maxRecordLength) (stream : Bytes) :
    ∃ d : Division ((pieces.map Fragment.more).flatMap Fragment.spelling ++ stream),
      join pieces.flatten (Fragment.cut stream) = d.cuts.map List.flatten := by
  fun_induction Fragment.cut stream generalizing pieces with
  | case1 stream hread =>
    exact ⟨⟨[], pieces, stream, rfl, List.forall_mem_nil _, hpieces,
      fun f behind h => by rw [hread] at h; cases h⟩, rfl⟩
  | case2 stream f rest hread ih =>
    have hstream := Fragment.spelling_of_read? hread
    rw [join]
    by_cases hlong : maxRecordLength < (pieces.flatten ++ f.payload).length
    · refine ⟨⟨[], pieces, stream, rfl, List.forall_mem_nil _, hpieces, fun g behind h => ?_⟩,
        if_pos hlong⟩
      rw [hread] at h
      cases h
      exact hlong
    · have hflatten : (pieces ++ [f.payload]).flatten = pieces.flatten ++ f.payload := by
        rw [List.flatten_append, List.flatten_singleton]
      have hshort : (pieces ++ [f.payload]).flatten.length ≤ maxRecordLength :=
        hflatten ▸ Nat.not_lt.1 hlong
      rw [if_neg hlong, ← hflatten]
      obtain ⟨isLast, payload⟩ := f
      cases isLast with
      | true =>
        obtain ⟨d, hd⟩ := @ih [] (Nat.zero_le _)
        refine ⟨⟨(pieces ++ [payload]) :: d.cuts, d.unfinished, d.rest, ?_,
          List.forall_mem_cons.2 ⟨⟨by simp, hshort⟩, d.short⟩, d.unfinished_short, d.stops⟩, ?_⟩
        · have hrest : rest = _ := d.stream_eq
          rw [hstream, List.flatMap_cons, inFragments_concat]
          conv_lhs => rw [hrest]
          simp only [List.flatMap_append, List.flatMap_cons, List.flatMap_nil, List.append_assoc,
            List.append_nil]
        · exact congrArg (_ :: ·) hd
      | false =>
        obtain ⟨d, hd⟩ := ih hshort
        refine ⟨⟨d.cuts, d.unfinished, d.rest, .trans ?_ d.stream_eq, d.short,
          d.unfinished_short, d.stops⟩, hd⟩
        rw [hstream, List.map_append, List.flatMap_append, List.append_assoc]
        exact congrArg (_ ++ ·) (congrArg (· ++ rest) (List.append_nil _).symm)

/-- A stream is parsed to the records that are complete where reading stops. -/
theorem exists_division (stream : Bytes) :
    ∃ d : Division stream, parse stream = d.cuts.map List.flatten :=
  @exists_division_of_join [] (Nat.zero_le _) stream

end Rpc.Record

/-! ## Messages of a connection -/

/-- The event tells what became of a message. -/
def ConnectionEvent.isOutcome : ConnectionEvent → Bool
  | replied _ | closed _ => true
  | received | ended _ => false

theorem CallOutcome.filter_events (o : CallOutcome) :
    o.events.filter ConnectionEvent.isOutcome = o.events := by
  cases o <;> rfl

/-- Records as messages that a client sends at one point in time. -/
def Incoming.ofRecords (now : Time) (client : String) (records : List Bytes) : List Incoming :=
  records.map fun record => ⟨.still now, client, record⟩

namespace Server

variable {σ : Type} [Store σ]

/-- The records that fragments complete are taken one after the other. -/
theorem serveFragments_eq (s : Server σ) (now : Time) (client : String)
    (seen : List ConnectionEvent) (fragments : List (Option Bytes)) :
    (s.serveFragments now client seen fragments).2 =
        s.after (Incoming.ofRecords now client (fragments.filterMap id)) ∧
      (s.serveFragments now client seen fragments).1.filter ConnectionEvent.isOutcome =
        seen.reverse.filter ConnectionEvent.isOutcome ++
          (s.outcomes (Incoming.ofRecords now client (fragments.filterMap id))).flatMap
            CallOutcome.events := by
  induction fragments generalizing s seen with
  | nil => exact ⟨rfl, (List.append_nil _).symm⟩
  | cons fragment rest ih =>
    cases fragment with
    | none =>
      obtain ⟨hserver, hevents⟩ := ih s (.received :: seen)
      refine ⟨hserver, hevents.trans ?_⟩
      rw [List.reverse_cons, List.filter_append]
      exact congrArg (· ++ _) (List.append_nil _)
    | some record =>
      obtain ⟨hserver, hevents⟩ := ih (s.call now client record).2
        ((s.call now client record).1.events.reverse ++ .received :: seen)
      refine ⟨hserver, hevents.trans ?_⟩
      rw [List.reverse_append, List.reverse_reverse, List.reverse_cons, List.filter_append,
        CallOutcome.filter_events, List.filter_append, List.append_assoc, List.append_assoc]
      rfl

open Rpc.Record in
/-- A connection takes exactly the messages that are parsed from its stream, which are the records
that are complete where reading stops; short records that are cut into fragments in any way are
parsed back. -/
theorem serve_takes_parse (s : Server σ) (now : Time) (client : String) :
    (∀ stream,
      (fragments stream).1.filterMap id = parse stream ∧
      (s.serve now client stream).2 = s.after (Incoming.ofRecords now client (parse stream)) ∧
      (s.serve now client stream).1.filter ConnectionEvent.isOutcome =
        (s.outcomes (Incoming.ofRecords now client (parse stream))).flatMap CallOutcome.events ∧
      ∃ d : Division stream, parse stream = d.cuts.map List.flatten) ∧
    (∀ cuts : List (List Bytes),
      (∀ pieces ∈ cuts, pieces ≠ [] ∧ pieces.flatten.length ≤ maxRecordLength) →
      parse ((cuts.flatMap inFragments).flatMap Fragment.spelling) = cuts.map List.flatten) ∧
    (∀ records : List Bytes, (∀ record ∈ records, record.length ≤ maxRecordLength) →
      parse (records.flatMap frame) = records) := by
  refine ⟨fun stream => ?_, fun cuts => parse_flatMap_spelling, fun records => parse_flatMap_frame⟩
  have hparse : (fragments stream).1.filterMap id = parse stream :=
    filterMap_fragmentsFrom [] [] stream
  have hserve : s.serve now client stream =
      ((s.serveFragments now client [] (fragments stream).1).1 ++ [.ended (fragments stream).2],
        (s.serveFragments now client [] (fragments stream).1).2) := rfl
  obtain ⟨hserver, hevents⟩ := s.serveFragments_eq now client [] (fragments stream).1
  rw [hparse] at hserver hevents
  refine ⟨hparse, ?_, ?_, exists_division stream⟩
  · rw [hserve, hserver]
  · rw [hserve, List.filter_append, hevents]
    exact List.append_nil _

open Rpc.Record in
/-- A record in three fragments, one of them empty, and an empty record. -/
theorem serve_takes_parse_pieces :
    let records : List Bytes := [[1, 2, 3], []]
    let cuts : List (List Bytes) := [[[1], [], [2, 3]], [[]]]
    (∀ pieces ∈ cuts, pieces ≠ [] ∧ pieces.flatten.length ≤ maxRecordLength) ∧
      parse ((cuts.flatMap inFragments).flatMap Fragment.spelling) = records ∧
      parse (records.flatMap frame) = records := by
  intro records cuts
  let s : Server Memory :=
    .start ⟨.known, ['/'], Bytes.zeros 8⟩ ⟨.empty ⟨0⟩ false 100, .cached (.empty 8), []⟩
  have hcuts : ∀ pieces ∈ cuts, pieces ≠ [] ∧ pieces.flatten.length ≤ maxRecordLength := by decide
  obtain ⟨-, hparse, hframes⟩ := serve_takes_parse s ⟨0⟩ "host"
  exact ⟨hcuts, hparse cuts hcuts, hframes records (by decide)⟩

end Server

end NfsServer
