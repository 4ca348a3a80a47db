import NfsServer.Proofs.Program
import NfsServer.Proofs.Run
import NfsServer.Proofs.Store.Tree
import NfsServer.Proofs.Wire.RoundTrip

/-!
# Calls of procedures

A message either is no call that a server would perform, and then it changes nothing that procedures
work on, or it calls a certain procedure with certain arguments (`Call.read?`).  Such a call is
dropped as a repetition, or the program of the procedure is run and decides the reply
(`Server.take_of_call`).  Every call whose arguments are within the limits of records can be made:
it is read back from the message with which a client makes it (`Call.read?_message`).
-/

namespace NfsServer

namespace Rpc

namespace Procedure

/-- The number of the service that a procedure belongs to. -/
def program : Procedure → UInt32
  | nfs _ => Nfs.Procedure.program
  | mount _ => Mount.Procedure.program

/-- The number of a procedure in its service. -/
def number : Procedure → UInt32
  | nfs p => Enumeration.number p
  | mount p => Enumeration.number p

/-- The header with which a client calls a procedure. -/
def header (p : Procedure) (credential : Credential) : CallHeader :=
  ⟨Message.rpcVersion, p.program, versions.high, p.number, credential, .empty⟩

theorem find_header (p : Procedure) (credential : Credential) :
    find (p.header credential).program (p.header credential).version
      (p.header credential).procedure = .ok p := by
  cases p with
  | nfs p => cases p <;> rfl
  | mount p => cases p <;> rfl

end Procedure

/-- A call of a procedure. -/
structure Call where
  xid : UInt32
  procedure : Procedure
  arguments : procedure.Args

namespace Call

/-- The call that a message makes, if it is let in, is for a procedure, and has arguments that can
be read. -/
def read? (policy : CredentialPolicy) (input : Bytes) : Option Call :=
  match Arrival.read policy input with
  | .closed _ => none
  | .denied _ _ => none
  | .call xid header arguments =>
    match Procedure.find header.program header.version header.procedure with
    | .error _ => none
    | .ok p =>
      match p.argsFormat.decode arguments with
      | .error _ => none
      | .ok (args, _) => some ⟨xid, p, args⟩

theorem read?_eq_some {policy : CredentialPolicy} {input arguments rest : Bytes} {xid : UInt32}
    {header : CallHeader} {p : Procedure} {args : p.Args}
    (hread : Arrival.read policy input = .call xid header arguments)
    (hfind : Procedure.find header.program header.version header.procedure = .ok p)
    (hdecode : p.argsFormat.decode arguments = .ok (args, rest)) :
    read? policy input = some ⟨xid, p, args⟩ := by
  unfold read?
  rw [hread]
  dsimp only
  rw [hfind]
  dsimp only
  rw [hdecode]

theorem exists_read_of_read? {policy : CredentialPolicy} {input : Bytes} {c : Call}
    (h : read? policy input = some c) :
    ∃ header arguments rest, Arrival.read policy input = .call c.xid header arguments ∧
      Procedure.find header.program header.version header.procedure = .ok c.procedure ∧
      c.procedure.argsFormat.decode arguments = .ok (c.arguments, rest) := by
  unfold read? at h
  split at h
  · cases h
  · cases h
  · next xid header arguments hread =>
    split at h
    · cases h
    · next p hfind =>
      split at h
      · cases h
      · next args rest hdecode =>
        obtain rfl := Option.some.inj h
        exact ⟨header, arguments, rest, hread, hfind, hdecode⟩

/-- The message with which a client makes a call. -/
def message (c : Call) (credential : Credential := .empty) : Bytes :=
  encode (⟨c.xid, .call (c.procedure.header credential)⟩ : Message) ++
    c.procedure.argsFormat.encode c.arguments

theorem decode_message (c : Call) {credential : Credential}
    (hcredential : Format.Fits Wire.format credential) :
    decode Message (c.message credential) = .ok (⟨c.xid, .call (c.procedure.header credential)⟩,
      c.procedure.argsFormat.encode c.arguments) := by
  have hfits : Format.Fits Wire.format
      (⟨c.xid, .call (c.procedure.header credential)⟩ : Message) :=
    ⟨trivial, trivial, trivial, trivial, trivial, trivial, hcredential, trivial, Nat.zero_le _⟩
  exact Format.readsBack_encode Wire.format hfits _

/-- Whoever accepts the credential reads the call from its message. -/
theorem read?_message {policy : CredentialPolicy} {c : Call} {credential : Credential}
    (hcredential : Format.Fits Wire.format credential)
    (hpolicy : policy.authenticate credential = .ok ())
    (hfits : c.procedure.argsFormat.Fits c.arguments) :
    read? policy (c.message credential) = some c := by
  have hread : Arrival.read policy (c.message credential) =
      .call c.xid (c.procedure.header credential)
        (c.procedure.argsFormat.encode c.arguments) := by
    have haccepted : policy.authenticate (c.procedure.header credential).credential = .ok () :=
      hpolicy
    rw [Arrival.read, c.decode_message hcredential]
    dsimp only
    rw [haccepted]
    rfl
  have hdecode := Format.readsBack_encode c.procedure.argsFormat hfits []
  rw [List.append_nil] at hdecode
  exact read?_eq_some hread (c.procedure.find_header credential) hdecode

/-- The message of a client that makes a call without a credential, taken in no time. -/
def sentAt (now : Time) (c : Call) : Incoming := ⟨.still now, "host", c.message⟩

theorem read?_sentAt {policy : CredentialPolicy} {c : Call} {now : Time}
    (hpolicy : policy.authenticate .empty = .ok ())
    (hfits : c.procedure.argsFormat.Fits c.arguments) :
    read? policy (c.sentAt now).input = some c :=
  read?_message ⟨trivial, Nat.zero_le _⟩ hpolicy hfits

/-- The program that a server runs for a call. -/
def program (c : Call) (config : ServerConfig) (now : Time) :
    Program (Response c.procedure.Result) :=
  c.procedure.perform now config.writeVerifier config.exportName c.arguments

end Call

end Rpc

namespace Server

open Rpc

variable {σ : Type} [Store σ]

theorem answer_of_error {s : Server σ} {now : Time} {xid : UInt32} {header : CallHeader}
    {arguments : Bytes} {e : DispatchError}
    (h : Procedure.find header.program header.version header.procedure = .error e) :
    s.answer now xid header arguments =
      (.reply (encode (Message.accepted xid e.status)), s.backend) := by
  unfold answer
  rw [h]

theorem answer_of_ok {s : Server σ} {now : Time} {xid : UInt32} {header : CallHeader}
    {arguments : Bytes} {p : Procedure}
    (h : Procedure.find header.program header.version header.procedure = .ok p) :
    s.answer now xid header arguments = s.execute now xid p arguments := by
  unfold answer
  rw [h]

theorem execute_of_error {s : Server σ} {now : Time} {xid : UInt32} {p : Procedure}
    {arguments : Bytes} {e : DecodeError} (h : p.argsFormat.decode arguments = .error e) :
    s.execute now xid p arguments = (.closed (.undecodable e), s.backend) := by
  unfold execute
  rw [h]

theorem execute_of_ok {s : Server σ} {now : Time} {xid : UInt32} {p : Procedure}
    {arguments rest : Bytes} {args : p.Args}
    (h : p.argsFormat.decode arguments = .ok (args, rest)) :
    let result := (p.perform now s.config.writeVerifier s.config.exportName args).run now s.backend
    s.execute now xid p arguments = (.reply (replyTo xid p result.1), result.2) := by
  unfold execute
  rw [h]

/-- A message that calls no procedure leaves everything that procedures work on as it was. -/
theorem backend_take_of_not_call {s : Server σ} {m : Incoming}
    (h : Call.read? s.config.policy m.input = none) : (s.take m).2.backend = s.backend := by
  cases hread : Arrival.read s.config.policy m.input with
  | closed e => rw [take_of_read_closed hread]
  | denied xid cause => rw [take_of_read_denied hread]
  | call xid header arguments =>
    cases hrepeated : (s.calls.arrive m.clock.arrived ⟨xid, m.client⟩).1 with
    | true => rw [take_of_read_repeated hread hrepeated]
    | false =>
      rw [take_of_read_first hread hrepeated]
      cases hfind : Procedure.find header.program header.version header.procedure with
      | error e => rw [answer_of_error hfind]
      | ok p =>
        rw [answer_of_ok hfind]
        cases hdecode : p.argsFormat.decode arguments with
        | error e => rw [execute_of_error hdecode]
        | ok decoded =>
          rw [Call.read?_eq_some hread hfind hdecode] at h
          cases h

/-- A message that calls a procedure is dropped as a repetition, or the procedure is performed. -/
theorem take_of_call {s : Server σ} {m : Incoming} {c : Call}
    (h : Call.read? s.config.policy m.input = some c) :
    let result := (c.program s.config m.clock.performed).run m.clock.performed s.backend
    ((s.take m).1 = .silent ∧ (s.take m).2.backend = s.backend) ∨
      ((s.take m).1 = .reply (replyTo c.xid c.procedure result.1) ∧
        (s.take m).2.backend = result.2) := by
  intro result
  obtain ⟨header, arguments, rest, hread, hfind, hdecode⟩ := Call.exists_read_of_read? h
  cases hrepeated : (s.calls.arrive m.clock.arrived ⟨c.xid, m.client⟩).1 with
  | true =>
    rw [take_of_read_repeated hread hrepeated]
    exact Or.inl ⟨rfl, rfl⟩
  | false =>
    rw [take_of_read_first hread hrepeated, answer_of_ok hfind, execute_of_ok hdecode]
    exact Or.inr ⟨rfl, rfl⟩

/-- The call that a server performs when it takes a message, if it performs one. -/
def performed? (s : Server σ) (m : Incoming) : Option Call :=
  if (s.take m).1 = .silent then none else Call.read? s.config.policy m.input

theorem performed?_of_ne_silent {s : Server σ} {m : Incoming} (h : (s.take m).1 ≠ .silent) :
    s.performed? m = Call.read? s.config.policy m.input := if_neg h

/-- A message that is answered and passes all readers is performed. -/
theorem performed?_eq_some {s : Server σ} {m : Incoming} {arguments rest : Bytes} {xid : UInt32}
    {header : CallHeader} {p : Procedure} {args : p.Args} (hanswered : (s.take m).1 ≠ .silent)
    (hread : Arrival.read s.config.policy m.input = .call xid header arguments)
    (hfind : Procedure.find header.program header.version header.procedure = .ok p)
    (hdecode : p.argsFormat.decode arguments = .ok (args, rest)) :
    s.performed? m = some ⟨xid, p, args⟩ := by
  rw [performed?_of_ne_silent hanswered]
  exact Call.read?_eq_some hread hfind hdecode

/-- A call that is sent and answered is performed. -/
theorem performed?_sentAt {s : Server σ} {c : Call} {now : Time}
    (hpolicy : s.config.policy.authenticate .empty = .ok ())
    (hfits : c.procedure.argsFormat.Fits c.arguments)
    (hanswered : (s.take (c.sentAt now)).1 ≠ .silent) : s.performed? (c.sentAt now) = some c := by
  rw [performed?_of_ne_silent hanswered]
  exact Call.read?_sentAt hpolicy hfits

theorem read?_of_performed? {s : Server σ} {m : Incoming} {c : Call} (h : s.performed? m = some c) :
    Call.read? s.config.policy m.input = some c := by
  unfold performed? at h
  split at h
  · cases h
  · exact h

/-- What a message does to what procedures work on is what the performed call does. -/
theorem backend_take (s : Server σ) (m : Incoming) :
    (s.take m).2.backend = match s.performed? m with
      | some c => ((c.program s.config m.clock.performed).run m.clock.performed s.backend).2
      | none => s.backend := by
  unfold performed?
  cases hcall : Call.read? s.config.policy m.input with
  | none =>
    rw [ite_self]
    exact backend_take_of_not_call hcall
  | some c =>
    rcases take_of_call hcall with ⟨hsilent, hbackend⟩ | ⟨hreply, hbackend⟩
    · rw [if_pos hsilent]
      exact hbackend
    · rw [if_neg (by rw [hreply]; exact CallOutcome.noConfusion)]
      exact hbackend

/-- The server performs the call that a message makes, and this is the response. -/
def Answers (s : Server σ) (m : Incoming) (c : Call) (r : Response c.procedure.Result) : Prop :=
  s.performed? m = some c ∧
    ((c.program s.config m.clock.performed).run m.clock.performed s.backend).1 = r

/-- The response to a call is what the client gets. -/
theorem Answers.take_eq {s : Server σ} {m : Incoming} {c : Call} {r : Response c.procedure.Result}
    (h : s.Answers m c r) : (s.take m).1 = .reply (replyTo c.xid c.procedure r) := by
  obtain ⟨hcall, rfl⟩ := h
  unfold performed? at hcall
  split at hcall
  · cases hcall
  · next hanswered =>
    rcases take_of_call hcall with ⟨hsilent, -⟩ | ⟨hreply, -⟩
    · exact absurd hsilent hanswered
    · exact hreply

/-- A performed call of the file service does what its program does. -/
theorem take_of_run {s : Server σ} {m : Incoming} {xid : UInt32} {p : Nfs.Procedure} {args : p.Args}
    {r : Response p.Result} {b : Backend σ} (hcall : s.performed? m = some ⟨xid, .nfs p, args⟩)
    (hrun : (p.perform m.clock.performed s.config.writeVerifier args).run m.clock.performed
      s.backend = (r, b)) :
    (s.take m).1 = .reply (replyTo xid (.nfs p) r) ∧ (s.take m).2.backend = b := by
  have hanswers : s.Answers m ⟨xid, .nfs p, args⟩ r := ⟨hcall, congrArg Prod.fst hrun⟩
  have hbackend := backend_take s m
  rw [hcall] at hbackend
  exact ⟨hanswers.take_eq, hbackend.trans (congrArg Prod.snd hrun)⟩

theorem take_of_run_responding {s : Server σ} {m : Incoming} {xid : UInt32} {p : Nfs.Procedure}
    {args : p.Args} {q : Program p.Result} {r : p.Result} {b : Backend σ}
    (hq : p.perform m.clock.performed s.config.writeVerifier args = q.responding)
    (hcall : s.performed? m = some ⟨xid, .nfs p, args⟩)
    (hrun : q.run m.clock.performed s.backend = (r, b)) :
    (s.take m).1 = .reply (replyTo xid (.nfs p) (.results r)) ∧ (s.take m).2.backend = b :=
  take_of_run hcall (by rw [hq, Program.run_responding, hrun])

/-- The response of a procedure of the file service is what its program ends with. -/
theorem Answers.eq_results {s : Server σ} {m : Incoming} {xid : UInt32} {p : Nfs.Procedure}
    {args : p.Args} {response : Response p.Result} {q : Program p.Result}
    (hq : p.perform m.clock.performed s.config.writeVerifier args = q.responding)
    (h : s.Answers m ⟨xid, .nfs p, args⟩ response) :
    response = .results (q.run m.clock.performed s.backend).1 := by
  have hrun : ((p.perform m.clock.performed s.config.writeVerifier args).run m.clock.performed
      s.backend).1 = response := h.2
  rw [hq, Program.run_responding] at hrun
  exact hrun.symm

/-- Whatever the messages are, the handle table remains well-formed, and no handle that was issued
comes to stand for something else. -/
theorem handles_take {s : Server σ} (h : s.backend.handles.WellFormed) (m : Incoming) :
    (s.take m).2.backend.handles.WellFormed ∧
      s.backend.handles.Later (s.take m).2.backend.handles := by
  rw [backend_take]
  cases s.performed? m with
  | none => exact ⟨h, .refl _⟩
  | some c => exact Program.handles_run _ _ _ h

theorem handles_after {s : Server σ} (h : s.backend.handles.WellFormed) (ms : List Incoming) :
    (s.after ms).backend.handles.WellFormed ∧
      s.backend.handles.Later (s.after ms).backend.handles := by
  induction ms generalizing s with
  | nil => exact ⟨h, .refl _⟩
  | cons m ms ih =>
    obtain ⟨hwell, hlater⟩ := handles_take h m
    obtain ⟨hwell', hlater'⟩ := ih hwell
    exact ⟨hwell', hlater.trans hlater'⟩

/-- Whatever the messages are, what every request keeps of a store is kept. -/
theorem store_take {Q : Memory → Prop} (hQ : Memory.Kept Q) {s : Server Memory}
    (h : Q s.backend.store) (m : Incoming) : Q (s.take m).2.backend.store := by
  rw [backend_take]
  cases s.performed? m with
  | none => exact h
  | some c => exact Program.store_run hQ _ _ _ h

theorem store_after {Q : Memory → Prop} (hQ : Memory.Kept Q) {s : Server Memory}
    (h : Q s.backend.store) (ms : List Incoming) : Q (s.after ms).backend.store := by
  induction ms generalizing s with
  | nil => exact h
  | cons m ms ih => exact ih (store_take hQ h m)

theorem isTree_take {s : Server Memory} (h : s.backend.store.IsTree) (m : Incoming) :
    (s.take m).2.backend.store.IsTree :=
  store_take Memory.kept_isTree h m

theorem isTree_after {s : Server Memory} (h : s.backend.store.IsTree) (ms : List Incoming) :
    (s.after ms).backend.store.IsTree :=
  store_after Memory.kept_isTree h ms

/-- The place that a handle stands for, if it is good. -/
def placeOf? (s : Server Memory) (h : FileHandle) : Option Location :=
  match (s.backend.handles.resolve h).1 with
  | .ok path => some path.location
  | .error _ => none

theorem placeOf?_of_resolve_eq {s : Server Memory} {h : FileHandle} {path : Path}
    (hpath : (s.backend.handles.resolve h).1 = .ok path) : s.placeOf? h = some path.location := by
  rw [placeOf?, hpath]

/-- The moments at which handles are issued or resolved while a message is dealt with. -/
def namings (s : Server σ) (m : Incoming) : List (Naming σ) :=
  match s.performed? m with
  | some c => (c.program s.config m.clock.performed).namings m.clock.performed s.backend
  | none => []

end Server

end NfsServer
