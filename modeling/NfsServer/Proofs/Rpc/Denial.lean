import NfsServer.Proofs.Rpc.Reply

/-!
# Calls that are turned away

A call in another version of the call protocol, or with a credential that the server does not accept
or cannot read, is turned away (`Objection`).  The server is the same before and after it, to the
last detail, and so a run is none the wiser for such calls: wherever they are put in, all others end
as they do without them (`Server.denied_without_influence`).
-/

namespace NfsServer

namespace Rpc

/-- Why a call with the given header is turned away, in the order in which the checks are made. -/
inductive Objection (policy : CredentialPolicy) (header : CallHeader) : Rejection → Prop
  /-- The call is made in another version of the call protocol. -/
  | version (hversion : header.rpcVersion ≠ 2) :
      Objection policy header (.versionMismatch ⟨2, 2⟩)
  /-- The credential is not accepted. -/
  | credential (hversion : header.rpcVersion = 2) {cause : AuthError}
      (hcheck : policy.check header.credential = .error cause) :
      Objection policy header (.authError cause)
  /-- The credential is one of a Unix user but cannot be read. -/
  | body (hversion : header.rpcVersion = 2) (hcheck : policy.check header.credential = .ok ())
      (hflavor : header.credential.flavor = .unix) {e : DecodeError}
      (hbody : decode UnixCredential header.credential.body = .error e) :
      Objection policy header (.authError .badCredential)

variable {policy : CredentialPolicy} {header : CallHeader} {input arguments : Bytes} {xid : UInt32}

/-- A call is turned away for one reason, whichever of the checks it does not pass. -/
theorem exists_objection (h : header.rpcVersion ≠ 2 ∨
    (∃ e, policy.check header.credential = .error e) ∨
    header.credential.flavor = .unix ∧
      ∃ e, decode UnixCredential header.credential.body = .error e) :
    ∃ cause, Objection policy header cause := by
  by_cases hversion : header.rpcVersion = 2
  · cases hcheck : policy.check header.credential with
    | error e => exact ⟨_, .credential hversion hcheck⟩
    | ok u =>
      rcases h with hother | ⟨e, he⟩ | ⟨hflavor, e, hbody⟩
      · exact absurd hversion hother
      · rw [hcheck] at he
        cases he
      · exact ⟨_, .body hversion hcheck hflavor hbody⟩
  · exact ⟨_, .version hversion⟩

theorem Objection.read_eq {cause : Rejection} (h : Objection policy header cause)
    (hmessage : decode Message input = .ok (⟨xid, .call header⟩, arguments)) :
    Arrival.read policy input = .denied xid cause := by
  unfold Arrival.read Message.rpcVersion
  rw [hmessage]
  dsimp only
  cases h with
  | version hversion => rw [if_pos hversion]
  | @credential hversion cause hcheck =>
    have hauthenticate : policy.authenticate header.credential = .error cause := by
      unfold CredentialPolicy.authenticate
      rw [hcheck]
    rw [if_neg (not_not.2 hversion), hauthenticate]
  | body hversion hcheck hflavor hbody =>
    have hauthenticate : policy.authenticate header.credential = .error .badCredential := by
      unfold CredentialPolicy.authenticate
      rw [hcheck]
      dsimp only
      rw [if_pos hflavor, hbody]
    rw [if_neg (not_not.2 hversion), hauthenticate]

/-- The message is a call that is turned away. -/
def IsDenied (policy : CredentialPolicy) (input : Bytes) (xid : UInt32) (cause : Rejection) :
    Prop :=
  ∃ header arguments, decode Message input = .ok (⟨xid, .call header⟩, arguments) ∧
    Objection policy header cause

end Rpc

/-- The second list is the first one with members put in anywhere, all of which satisfy `P`. -/
inductive Inserts {α : Type} (P : α → Prop) : List α → List α → Prop
  | nil : Inserts P [] []
  | keep (a : α) {as bs : List α} : Inserts P as bs → Inserts P (a :: as) (a :: bs)
  | insert {a : α} {as bs : List α} : P a → Inserts P as bs → Inserts P as (a :: bs)

namespace Server

open Rpc

variable {σ : Type} [Store σ] {s : Server σ}

/-- The messages of a run, each with what becomes of it. -/
def exchanges (s : Server σ) (ms : List Incoming) : List (Incoming × CallOutcome) :=
  ms.zip (s.outcomes ms)

theorem exchanges_cons (s : Server σ) (m : Incoming) (ms : List Incoming) :
    s.exchanges (m :: ms) = (m, (s.take m).1) :: (s.take m).2.exchanges ms := rfl

/-- A call that is turned away gets its reply and leaves everything as it was. -/
theorem take_of_isDenied {m : Incoming} {xid : UInt32} {cause : Rejection}
    (h : IsDenied s.config.policy m.input xid cause) :
    s.take m = (.reply (encode (Message.denied xid cause)), s) := by
  obtain ⟨header, arguments, hmessage, hobjection⟩ := h
  exact take_of_read_denied (hobjection.read_eq hmessage)

/-- Calls that are turned away leave the server behind a run and all other outcomes as they are. -/
theorem after_of_inserts {ms ms' : List Incoming}
    (h : Inserts (fun m => ∃ xid cause, IsDenied s.config.policy m.input xid cause) ms ms') :
    s.after ms' = s.after ms ∧
      Inserts (fun (m, outcome) => ∃ xid cause, IsDenied s.config.policy m.input xid cause ∧
        outcome = .reply (encode (Message.denied xid cause)))
        (s.exchanges ms) (s.exchanges ms') := by
  -- Every server of the run has the policy of the first one, which denies the messages put in.
  generalize hpolicy : s.config.policy = policy at h
  induction h generalizing s with
  | nil => exact ⟨rfl, .nil⟩
  | keep m _ ih =>
    obtain ⟨hafter, hexchanges⟩ := ih (s := (s.take m).2) (by rw [config_take, hpolicy])
    exact ⟨hafter, .keep _ hexchanges⟩
  | @insert m ms ms' hdenied _ ih =>
    obtain ⟨xid, cause, hdenied⟩ := hdenied
    obtain ⟨hafter, hexchanges⟩ := ih hpolicy
    have htake := take_of_isDenied (hpolicy ▸ hdenied : IsDenied s.config.policy m.input xid cause)
    rw [after, exchanges_cons, htake]
    exact ⟨hafter, .insert ⟨xid, cause, hdenied, rfl⟩ hexchanges⟩

/-- A call in another version of the call protocol than 2, with a credential that is not accepted,
or with one of a Unix user that cannot be read, is turned away: its reply says so, and the whole
server is as before.  Put into a run anywhere and any number of times, whatever their numbers and
clients, such calls leave what becomes of all other messages and the server behind the run as they
are. -/
theorem denied_without_influence (s : Server σ) :
    (∀ (m : Incoming) (xid : UInt32) (header : CallHeader) (arguments : Bytes),
      decode Message m.input = .ok (⟨xid, .call header⟩, arguments) →
      (header.rpcVersion ≠ 2 ∨ (∃ e, s.config.policy.check header.credential = .error e) ∨
        header.credential.flavor = .unix ∧
          ∃ e, decode UnixCredential header.credential.body = .error e) →
      ∃ cause reply, Objection s.config.policy header cause ∧ s.take m = (.reply reply, s) ∧
        decode Message reply = .ok (⟨xid, .reply (.denied cause)⟩, [])) ∧
      ∀ ms ms' : List Incoming,
        Inserts (fun m => ∃ xid cause, IsDenied s.config.policy m.input xid cause) ms ms' →
        s.after ms' = s.after ms ∧
          Inserts (fun (m, outcome) => ∃ xid cause, IsDenied s.config.policy m.input xid cause ∧
            outcome = .reply (encode (Message.denied xid cause)))
            (s.exchanges ms) (s.exchanges ms') := by
  refine ⟨fun m xid header arguments hmessage hobjectionable => ?_, fun _ _ => after_of_inserts⟩
  obtain ⟨cause, hobjection⟩ := exists_objection hobjectionable
  exact ⟨cause, _, hobjection, take_of_isDenied ⟨header, arguments, hmessage, hobjection⟩,
    Message.decode_denied xid cause⟩

/-- A server with a check of its own turns a call without a credential away.  The genuine call with
the same number from the same client gets the same reply behind it as without it. -/
theorem denied_without_influence_same_number :
    let call (credential : Credential) : Incoming :=
      ⟨.still ⟨0⟩, "host", Call.message ⟨7, .nfs .null, ()⟩ credential⟩
    let policy : CredentialPolicy :=
      .custom fun c => if c.flavor = .short then .ok () else .error .tooWeak
    let genuine := call ⟨.short, []⟩
    let s := start ⟨policy, ['/'], Bytes.zeros 8⟩
      (⟨.empty ⟨0⟩ false 100, .cached (.empty 4), []⟩ : Backend Memory)
    IsDenied policy (call .empty).input 7 (.authError .tooWeak) ∧
      s.after [call .empty, genuine] = s.after [genuine] ∧
      (s.take genuine).1 = .reply (encode (Message.accepted 7 .success)) ∧
      s.outcomes [call .empty, genuine] =
        [.reply (encode (Message.denied 7 (.authError .tooWeak))), (s.take genuine).1] := by
  intro call policy genuine s
  have hdenied : IsDenied policy (call .empty).input 7 (.authError .tooWeak) :=
    ⟨_, _, Call.decode_message _ ⟨trivial, Nat.zero_le _⟩, .credential rfl rfl⟩
  obtain ⟨-, hinserts⟩ := denied_without_influence s
  obtain ⟨hafter, -⟩ := hinserts [genuine] [call .empty, genuine]
    (.insert ⟨7, _, hdenied⟩ (.keep genuine .nil))
  refine ⟨hdenied, hafter, by decide +kernel, ?_⟩
  rw [outcomes, outcomes, outcomes, take_of_isDenied hdenied]

end Server

end NfsServer
