import NfsServer.Proofs.Rpc.Repetition

/-!
# One reply or nothing

What a server does with a message depends on the first check that the message does not pass
(`Server.Fate`).  Every reply is one message that carries the number of the call; after it come only
the results of a procedure.  A message that is not answered makes the server write nothing, and one
that closes the connection leaves everything that procedures work on as it was
(`one_reply_or_nothing`).
-/

namespace NfsServer

/-- The bytes that a client is sent. -/
def CallOutcome.written : CallOutcome → Bytes
  | reply message => message
  | silent => []
  | closed _ => []

/-- The results in a reply: what follows the header if the call was accepted and succeeded. -/
def CallOutcome.results? : CallOutcome → Option Bytes
  | reply message =>
    match decode Rpc.Message message with
    | .ok (⟨_, .reply (.accepted ⟨_, .success⟩)⟩, results) => some results
    | _ => none
  | silent => none
  | closed _ => none

namespace Rpc

/-! ## Reply messages -/

namespace Message

theorem fits_accepted (xid : UInt32) (status : AcceptStatus) :
    Format.Fits Wire.format (accepted xid status) := by
  refine ⟨trivial, trivial, trivial, ⟨trivial, Nat.zero_le _⟩, trivial, ?_⟩
  cases status <;> trivial

theorem fits_denied (xid : UInt32) (cause : Rejection) :
    Format.Fits Wire.format (denied xid cause) := by
  refine ⟨trivial, trivial, trivial, trivial, ?_⟩
  cases cause <;> trivial

theorem decode_accepted_append (xid : UInt32) (status : AcceptStatus) (rest : Bytes) :
    decode Message (encode (accepted xid status) ++ rest) = .ok (accepted xid status, rest) :=
  Format.readsBack_encode Wire.format (fits_accepted xid status) rest

theorem decode_accepted (xid : UInt32) (status : AcceptStatus) :
    decode Message (encode (accepted xid status)) = .ok (accepted xid status, []) := by
  have hread := decode_accepted_append xid status []
  rwa [List.append_nil] at hread

theorem decode_denied (xid : UInt32) (cause : Rejection) :
    decode Message (encode (denied xid cause)) = .ok (denied xid cause, []) := by
  have hread := Format.readsBack_encode Wire.format (fits_denied xid cause) []
  rwa [List.append_nil] at hread

end Message

/-! ## Checks on a message -/

namespace Arrival

variable {policy : CredentialPolicy} {input arguments : Bytes} {xid : UInt32} {header : CallHeader}

theorem read_of_error {e : DecodeError} (h : decode Message input = .error e) :
    read policy input = .closed (.undecodable e) := by
  unfold read
  rw [h]

theorem read_of_reply {r : ReplyBody}
    (h : decode Message input = .ok (⟨xid, .reply r⟩, arguments)) :
    read policy input = .closed .notACall := by
  unfold read
  rw [h]

theorem read_of_call (policy : CredentialPolicy)
    (h : decode Message input = .ok (⟨xid, .call header⟩, arguments)) :
    (∃ cause, read policy input = .denied xid cause) ∨
      (header.rpcVersion = Message.rpcVersion ∧
        policy.authenticate header.credential = .ok () ∧
        read policy input = .call xid header arguments) := by
  unfold read
  rw [h]
  dsimp only
  split
  · exact Or.inl ⟨_, rfl⟩
  · next hversion =>
    cases hcredential : policy.authenticate header.credential with
    | error e => exact Or.inl ⟨_, rfl⟩
    | ok u => exact Or.inr ⟨not_not.1 hversion, rfl, rfl⟩

theorem read_eq_call (hmessage : decode Message input = .ok (⟨xid, .call header⟩, arguments))
    (hversion : header.rpcVersion = Message.rpcVersion)
    (hcredential : policy.authenticate header.credential = .ok ()) :
    read policy input = .call xid header arguments := by
  unfold read
  rw [hmessage]
  dsimp only
  rw [if_neg (not_not.2 hversion), hcredential]

end Arrival

end Rpc

namespace Server

open Rpc

variable {σ : Type} [Store σ] {s : Server σ} {m : Incoming}

/-! ## What becomes of a message -/

/-- The message is a call that passes all checks that come before its procedure is looked up. -/
structure Admits (s : Server σ) (m : Incoming) (xid : UInt32) (header : CallHeader)
    (arguments : Bytes) : Prop where
  message : decode Message m.input = .ok (⟨xid, .call header⟩, arguments)
  version : header.rpcVersion = Message.rpcVersion
  credential : s.config.policy.authenticate header.credential = .ok ()
  first : (s.calls.arrive m.clock.arrived ⟨xid, m.client⟩).1 = false

theorem Admits.take_eq {xid : UInt32} {header : CallHeader} {arguments : Bytes}
    (h : s.Admits m xid header arguments) :
    (s.take m).1 = (s.answer m.clock.performed xid header arguments).1 ∧
      (s.take m).2.backend = (s.answer m.clock.performed xid header arguments).2 := by
  rw [take_of_read_first (Arrival.read_eq_call h.message h.version h.credential) h.first]
  exact ⟨rfl, rfl⟩

/-- What becomes of a message and what it leaves, by the first check that it does not pass. -/
inductive Fate (s : Server σ) (m : Incoming) : CallOutcome → Backend σ → Prop
  /-- The message cannot be read. -/
  | unreadable {e : DecodeError} (hmessage : decode Message m.input = .error e) :
      Fate s m (.closed (.undecodable e)) s.backend
  /-- The message is a reply. -/
  | notACall {xid : UInt32} {r : ReplyBody} {rest : Bytes}
      (hmessage : decode Message m.input = .ok (⟨xid, .reply r⟩, rest)) :
      Fate s m (.closed .notACall) s.backend
  /-- The call is turned away. -/
  | denied {xid : UInt32} {header : CallHeader} {arguments : Bytes} (cause : Rejection)
      (hmessage : decode Message m.input = .ok (⟨xid, .call header⟩, arguments)) :
      Fate s m (.reply (encode (Message.denied xid cause))) s.backend
  /-- The call is a repetition. -/
  | repeated : Fate s m .silent s.backend
  /-- The call is for no procedure. -/
  | refused {xid : UInt32} {header : CallHeader} {arguments : Bytes} {e : DispatchError}
      (hadmits : s.Admits m xid header arguments)
      (hfind : Procedure.find header.program header.version header.procedure = .error e) :
      Fate s m (.reply (encode (Message.accepted xid e.status))) s.backend
  /-- The arguments of the procedure cannot be read. -/
  | malformed {xid : UInt32} {header : CallHeader} {arguments : Bytes} {p : Procedure}
      {e : DecodeError} (hadmits : s.Admits m xid header arguments)
      (hfind : Procedure.find header.program header.version header.procedure = .ok p)
      (harguments : p.argsFormat.decode arguments = .error e) :
      Fate s m (.closed (.undecodable e)) s.backend
  /-- The procedure is performed. -/
  | performed {xid : UInt32} {header : CallHeader} {arguments rest : Bytes} {p : Procedure}
      {args : p.Args} (hadmits : s.Admits m xid header arguments)
      (hfind : Procedure.find header.program header.version header.procedure = .ok p)
      (harguments : p.argsFormat.decode arguments = .ok (args, rest))
      {response : Response p.Result} {backend : Backend σ}
      (hrun : (p.perform m.clock.performed s.config.writeVerifier s.config.exportName args).run
        m.clock.performed s.backend = (response, backend)) :
      Fate s m (.reply (replyTo xid p response)) backend

/-- An admitted call is refused, cannot be read, or is performed. -/
theorem Admits.fate {xid : UInt32} {header : CallHeader} {arguments : Bytes}
    (h : s.Admits m xid header arguments) : s.Fate m (s.take m).1 (s.take m).2.backend := by
  rw [h.take_eq.1, h.take_eq.2]
  cases hfind : Procedure.find header.program header.version header.procedure with
  | error e =>
    rw [answer_of_error hfind]
    exact .refused h hfind
  | ok p =>
    rw [answer_of_ok hfind]
    cases harguments : p.argsFormat.decode arguments with
    | error e =>
      rw [execute_of_error harguments]
      exact .malformed h hfind harguments
    | ok decoded =>
      rw [execute_of_ok harguments]
      exact .performed h hfind harguments rfl

/-- Every message meets one of the fates. -/
theorem fate_take (s : Server σ) (m : Incoming) : s.Fate m (s.take m).1 (s.take m).2.backend := by
  cases hmessage : decode Message m.input with
  | error e =>
    rw [take_of_read_closed (Arrival.read_of_error hmessage)]
    exact .unreadable hmessage
  | ok decoded =>
    obtain ⟨⟨xid, header | r⟩, arguments⟩ := decoded
    · rcases Arrival.read_of_call s.config.policy hmessage with
        ⟨cause, hread⟩ | ⟨hversion, hcredential, hread⟩
      · rw [take_of_read_denied hread]
        exact .denied cause hmessage
      · cases hfirst : (s.calls.arrive m.clock.arrived ⟨xid, m.client⟩).1 with
        | false => exact Admits.fate ⟨hmessage, hversion, hcredential, hfirst⟩
        | true =>
          rw [take_of_read_repeated hread hfirst]
          exact .repeated
    · rw [take_of_read_closed (Arrival.read_of_reply hmessage)]
      exact .notACall hmessage

/-- The fates that go with an outcome; what is left is a variable, so that they can be told apart by
cases. -/
theorem fate_of_take {outcome : CallOutcome} (h : (s.take m).1 = outcome) :
    ∃ backend, (s.take m).2.backend = backend ∧ s.Fate m outcome backend :=
  ⟨_, rfl, h ▸ s.fate_take m⟩

/-! ## Results -/

theorem results?_accepted {xid : UInt32} {status : AcceptStatus} (h : status ≠ .success) :
    (CallOutcome.reply (encode (Message.accepted xid status))).results? = none := by
  unfold CallOutcome.results?
  dsimp only
  rw [Message.decode_accepted]
  cases status <;> first | rfl | exact absurd rfl h

theorem results?_denied {xid : UInt32} {cause : Rejection} :
    (CallOutcome.reply (encode (Message.denied xid cause))).results? = none := by
  unfold CallOutcome.results?
  dsimp only
  rw [Message.decode_denied]
  rfl

theorem results?_replyTo (xid : UInt32) (p : Procedure) (response : Response p.Result) :
    (CallOutcome.reply (replyTo xid p response)).results? =
      match response with
      | .garbageArguments => none
      | .results r => some (p.resultFormat.encode r) := by
  cases response with
  | garbageArguments => exact results?_accepted AcceptStatus.noConfusion
  | results r =>
    unfold CallOutcome.results? replyTo
    dsimp only
    rw [Message.decode_accepted_append]
    rfl

/-- Where there are results, a procedure has been performed and has ended with them. -/
theorem answers_of_results? {results : Bytes} (h : (s.take m).1.results? = some results) :
    ∃ c r, s.Answers m c (.results r) ∧ results = c.procedure.resultFormat.encode r := by
  obtain ⟨backend, -, hfate⟩ := fate_of_take (s := s) (m := m) rfl
  have hanswered : (s.take m).1 ≠ .silent := by
    intro hsilent
    rw [hsilent] at h
    cases h
  generalize (s.take m).1 = outcome at h hfate
  cases hfate with
  | unreadable => cases h
  | notACall => cases h
  | denied => rw [results?_denied] at h; cases h
  | repeated => cases h
  | @refused _ _ _ e =>
    rw [results?_accepted (by cases e <;> exact AcceptStatus.noConfusion)] at h
    cases h
  | malformed => cases h
  | @performed xid header arguments rest p args hadmits hfind harguments response _ hrun =>
    rw [results?_replyTo] at h
    cases response with
    | garbageArguments => cases h
    | results r =>
      have hread := Arrival.read_eq_call hadmits.message hadmits.version hadmits.credential
      have hcall := performed?_eq_some hanswered hread hfind harguments
      exact ⟨⟨xid, p, args⟩, r, ⟨hcall, congrArg Prod.fst hrun⟩, (Option.some.inj h).symm⟩

/-! ## Replies and closed connections -/

/-- Why a message closes the connection: it cannot be read, it is a reply, or it is a call that
passes all checks but has arguments that its procedure cannot read. -/
inductive Refuses (s : Server σ) (m : Incoming) : CallError → Prop
  | unreadable {e : DecodeError} (hmessage : decode Message m.input = .error e) :
      Refuses s m (.undecodable e)
  | notACall {xid : UInt32} {r : ReplyBody} {rest : Bytes}
      (hmessage : decode Message m.input = .ok (⟨xid, .reply r⟩, rest)) : Refuses s m .notACall
  | malformed {xid : UInt32} {header : CallHeader} {arguments : Bytes} {p : Procedure}
      {e : DecodeError} (hadmits : s.Admits m xid header arguments)
      (hfind : Procedure.find header.program header.version header.procedure = .ok p)
      (harguments : p.argsFormat.decode arguments = .error e) : Refuses s m (.undecodable e)

theorem take_closed_iff {e : CallError} : (s.take m).1 = .closed e ↔ s.Refuses m e := by
  constructor
  · intro h
    obtain ⟨_, -, hfate⟩ := fate_of_take h
    cases hfate with
    | unreadable hmessage => exact .unreadable hmessage
    | notACall hmessage => exact .notACall hmessage
    | malformed hadmits hfind harguments => exact .malformed hadmits hfind harguments
  · intro h
    cases h with
    | unreadable hmessage => rw [take_of_read_closed (Arrival.read_of_error hmessage)]
    | notACall hmessage => rw [take_of_read_closed (Arrival.read_of_reply hmessage)]
    | malformed hadmits hfind harguments =>
      rw [hadmits.take_eq.1, answer_of_ok hfind, execute_of_error harguments]

theorem backend_take_of_closed {e : CallError} (h : (s.take m).1 = .closed e) :
    (s.take m).2.backend = s.backend := by
  obtain ⟨_, hbackend, hfate⟩ := fate_of_take h
  rw [hbackend]
  cases hfate <;> rfl

/-- A reply answers a call under its number, and only the results of a procedure follow it. -/
theorem exists_call_of_take {reply : Bytes} (h : (s.take m).1 = .reply reply) :
    ∃ xid header arguments body results,
      decode Message m.input = .ok (⟨xid, .call header⟩, arguments) ∧
      decode Message reply = .ok (⟨xid, .reply body⟩, results) ∧
      (results = [] ∨ body = .accepted ⟨.empty, .success⟩ ∧
        ∃ p r, Procedure.find header.program header.version header.procedure = .ok p ∧
          results = p.resultFormat.encode r) := by
  obtain ⟨_, -, hfate⟩ := fate_of_take h
  cases hfate with
  | denied cause hmessage =>
    exact ⟨_, _, _, _, [], hmessage, Message.decode_denied _ cause, Or.inl rfl⟩
  | refused hadmits hfind =>
    exact ⟨_, _, _, _, [], hadmits.message, Message.decode_accepted _ _, Or.inl rfl⟩
  | @performed xid header arguments rest p args hadmits hfind harguments response _ hrun =>
    cases response with
    | garbageArguments =>
      exact ⟨_, _, _, _, [], hadmits.message, Message.decode_accepted _ _, Or.inl rfl⟩
    | results r =>
      exact ⟨_, _, _, _, _, hadmits.message, Message.decode_accepted_append _ _ _,
        Or.inr ⟨rfl, p, r, hfind, rfl⟩⟩

/-- A server answers a message with one message that is a reply with the number of the call,
followed by nothing but the results of its procedure if that succeeded, or else writes nothing at
all.  It closes the connection exactly when the message cannot be read, is a reply, or calls a
procedure that cannot read its arguments, and then store, handles and mount events are as before. -/
theorem one_reply_or_nothing (s : Server σ) (m : Incoming) :
    (∀ reply, (s.take m).1 = .reply reply →
      ∃ xid header arguments body results,
        decode Message m.input = .ok (⟨xid, .call header⟩, arguments) ∧
        decode Message reply = .ok (⟨xid, .reply body⟩, results) ∧
        (results = [] ∨ body = .accepted ⟨.empty, .success⟩ ∧
          ∃ p r, Procedure.find header.program header.version header.procedure = .ok p ∧
            results = p.resultFormat.encode r)) ∧
      ((s.take m).1.written = [] ↔ ∀ reply, (s.take m).1 ≠ .reply reply) ∧
      (∀ e, (s.take m).1 = .closed e ↔ s.Refuses m e) ∧
      ∀ e, (s.take m).1 = .closed e → (s.take m).2.backend = s.backend := by
  refine ⟨fun _ => exists_call_of_take, ?_, fun _ => take_closed_iff,
    fun _ => backend_take_of_closed⟩
  cases houtcome : (s.take m).1 with
  | reply reply =>
    refine iff_of_false (fun hnil : reply = [] => ?_) fun h => h reply rfl
    obtain ⟨xid, header, arguments, body, results, -, hread, -⟩ := exists_call_of_take houtcome
    rw [hnil] at hread
    cases hread
  | silent => exact iff_of_true rfl fun _ => CallOutcome.noConfusion
  | closed e => exact iff_of_true rfl fun _ => CallOutcome.noConfusion

/-- A call of the null procedure is answered, and one without the arguments that its procedure needs
closes the connection. -/
theorem one_reply_or_nothing_null :
    let s : Server Memory :=
      start ⟨.known, ['/'], Bytes.zeros 8⟩ ⟨.empty ⟨0⟩ false 10, .pathText, []⟩
    let null := Call.sentAt ⟨0⟩ ⟨7, .nfs .null, ()⟩
    let bare : Incoming := ⟨.still ⟨0⟩, "host",
      encode (⟨8, .call (Procedure.header (.nfs .lookup) .empty)⟩ : Message)⟩
    let reply := encode (Message.accepted 7 .success)
    ((s.take null).1 = .reply reply ∧ (s.take bare).1 = .closed (.undecodable .truncated)) ∧
      (∃ xid header arguments body results,
        decode Message null.input = .ok (⟨xid, .call header⟩, arguments) ∧
        decode Message reply = .ok (⟨xid, .reply body⟩, results) ∧
        (results = [] ∨ body = .accepted ⟨.empty, .success⟩ ∧
          ∃ p r, Procedure.find header.program header.version header.procedure = .ok p ∧
            results = p.resultFormat.encode r)) ∧
      (s.take bare).1.written = [] ∧ s.Refuses bare (.undecodable .truncated) ∧
      (s.take bare).2.backend = s.backend := by
  intro s null bare reply
  have hreply : (s.take null).1 = .reply reply := by decide +kernel
  have hclosed : (s.take bare).1 = .closed (.undecodable .truncated) := by decide +kernel
  obtain ⟨hone, -⟩ := one_reply_or_nothing s null
  obtain ⟨-, hnothing, hrefuses, hbackend⟩ := one_reply_or_nothing s bare
  refine ⟨⟨hreply, hclosed⟩, hone reply hreply, hnothing.2 fun r hr => ?_, (hrefuses _).1 hclosed,
    hbackend _ hclosed⟩
  rw [hclosed] at hr
  cases hr

end Server

end NfsServer
