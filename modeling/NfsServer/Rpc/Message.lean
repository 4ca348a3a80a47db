import NfsServer.Wire.Format

/-!
# Remote procedure call messages

The messages of ONC RPC version 2: calls (`CallHeader`) and replies (`ReplyBody`), credentials, and
the reasons for which a call is turned down.  The arguments of a call and the results of an accepted
reply follow the message and are not part of it.
-/

namespace NfsServer.Rpc

/-- Why a server refuses a credential. -/
inductive AuthError
  | badCredential | rejectedCredential | badVerifier | rejectedVerifier | tooWeak
  deriving DecidableEq, Repr

instance : Enumeration AuthError where
  members := [.badCredential, .rejectedCredential, .badVerifier, .rejectedVerifier, .tooWeak]
  number
    | .badCredential => 1
    | .rejectedCredential => 2
    | .badVerifier => 3
    | .rejectedVerifier => 4
    | .tooWeak => 5
  symbol
    | .badCredential => "AUTH_BADCRED"
    | .rejectedCredential => "AUTH_REJECTEDCRED"
    | .badVerifier => "AUTH_BADVERF"
    | .rejectedVerifier => "AUTH_REJECTEDVERF"
    | .tooWeak => "AUTH_TOOWEAK"
  find_number a := by cases a <;> rfl

instance : Wire AuthError := ⟨.enumerator AuthError⟩

/-- The kinds of credential. -/
inductive AuthFlavor
  | none | unix | short | des
  deriving DecidableEq, Repr

instance : Enumeration AuthFlavor where
  members := [.none, .unix, .short, .des]
  number
    | .none => 0
    | .unix => 1
    | .short => 2
    | .des => 3
  symbol
    | .none => "AUTH_NULL"
    | .unix => "AUTH_UNIX"
    | .short => "AUTH_SHORT"
    | .des => "AUTH_DES"
  find_number a := by cases a <;> rfl

instance : Wire AuthFlavor := ⟨.enumerator AuthFlavor⟩

/-- A credential or a verifier: a flavor and data that only the flavor explains. -/
structure Credential where
  flavor : AuthFlavor
  body : Bytes
  deriving DecidableEq, Repr

/-- The credential that says nothing. -/
def Credential.empty : Credential := ⟨.none, []⟩

instance : Wire Credential :=
  ⟨.via (fun (flavor, body) => ⟨flavor, body⟩) (fun c => (c.flavor, c.body))
    (fun _ => rfl) (fun _ => rfl) Wire.format⟩

/-- The body of a Unix credential. -/
structure UnixCredential where
  stamp : UInt32
  machine : Bytes
  uid : UInt32
  gid : UInt32
  gids : List UInt32
  deriving DecidableEq, Repr

instance : Wire UnixCredential :=
  ⟨.via (fun (stamp, machine, uid, gid, gids) => ⟨stamp, machine, uid, gid, gids⟩)
    (fun c => (c.stamp, c.machine, c.uid, c.gid, c.gids))
    (fun _ => rfl) (fun _ => rfl) Wire.format⟩

/-- The lowest and the highest version that a server speaks. -/
structure VersionRange where
  low : UInt32
  high : UInt32
  deriving DecidableEq, Repr

instance : Wire VersionRange :=
  ⟨.via (fun (low, high) => ⟨low, high⟩) (fun r => (r.low, r.high))
    (fun _ => rfl) (fun _ => rfl) Wire.format⟩

/-- The header of a call. -/
structure CallHeader where
  rpcVersion : UInt32
  program : UInt32
  version : UInt32
  procedure : UInt32
  credential : Credential
  verifier : Credential
  deriving DecidableEq, Repr

instance : Wire CallHeader :=
  ⟨.via (fun (rpcVersion, program, version, procedure, credential, verifier) =>
      ⟨rpcVersion, program, version, procedure, credential, verifier⟩)
    (fun c => (c.rpcVersion, c.program, c.version, c.procedure, c.credential, c.verifier))
    (fun _ => rfl) (fun _ => rfl) Wire.format⟩

/-! ### Replies -/

/-- How an accepted call ended. -/
inductive AcceptStatus
  /-- The results follow. -/
  | success
  | programUnavailable
  | programMismatch (supported : VersionRange)
  | procedureUnavailable
  | garbageArguments
  | systemError
  deriving DecidableEq, Repr

/-- The kinds of `AcceptStatus`. -/
inductive AcceptTag
  | success | programUnavailable | programMismatch | procedureUnavailable | garbageArguments
  | systemError
  deriving DecidableEq, Repr

instance : Enumeration AcceptTag where
  members := [.success, .programUnavailable, .programMismatch, .procedureUnavailable,
    .garbageArguments, .systemError]
  number
    | .success => 0
    | .programUnavailable => 1
    | .programMismatch => 2
    | .procedureUnavailable => 3
    | .garbageArguments => 4
    | .systemError => 5
  symbol
    | .success => "SUCCESS"
    | .programUnavailable => "PROG_UNAVAIL"
    | .programMismatch => "PROG_MISMATCH"
    | .procedureUnavailable => "PROC_UNAVAIL"
    | .garbageArguments => "GARBAGE_ARGS"
    | .systemError => "SYSTEM_ERR"
  find_number a := by cases a <;> rfl

namespace AcceptTag

abbrev Payload : AcceptTag → Type
  | programMismatch => VersionRange
  | _ => Unit

def payload : (t : AcceptTag) → Format t.Payload
  | programMismatch => Wire.format
  | success | programUnavailable | procedureUnavailable | garbageArguments | systemError => .void

end AcceptTag

namespace AcceptStatus

def toTagged : AcceptStatus → (t : AcceptTag) × t.Payload
  | success => ⟨.success, ()⟩
  | programUnavailable => ⟨.programUnavailable, ()⟩
  | programMismatch r => ⟨.programMismatch, r⟩
  | procedureUnavailable => ⟨.procedureUnavailable, ()⟩
  | garbageArguments => ⟨.garbageArguments, ()⟩
  | systemError => ⟨.systemError, ()⟩

def ofTagged : (t : AcceptTag) × t.Payload → AcceptStatus
  | ⟨.success, _⟩ => success
  | ⟨.programUnavailable, _⟩ => programUnavailable
  | ⟨.programMismatch, r⟩ => programMismatch r
  | ⟨.procedureUnavailable, _⟩ => procedureUnavailable
  | ⟨.garbageArguments, _⟩ => garbageArguments
  | ⟨.systemError, _⟩ => systemError

instance : Wire AcceptStatus :=
  ⟨.via ofTagged toTagged (fun s => by cases s <;> rfl) (fun ⟨t, _⟩ => by cases t <;> rfl)
    (.tagged (.discriminant AcceptTag "accept stat in accept_body") AcceptTag.payload)⟩

end AcceptStatus

/-- The reply to a call that reached its program. -/
structure Acceptance where
  verifier : Credential
  status : AcceptStatus
  deriving DecidableEq, Repr

instance : Wire Acceptance :=
  ⟨.via (fun (verifier, status) => ⟨verifier, status⟩) (fun a => (a.verifier, a.status))
    (fun _ => rfl) (fun _ => rfl) Wire.format⟩

/-- Why a call was turned away before it reached a program. -/
inductive Rejection
  | versionMismatch (supported : VersionRange)
  | authError (cause : AuthError)
  deriving DecidableEq, Repr

/-- The kinds of `Rejection`. -/
inductive RejectTag
  | versionMismatch | authError
  deriving DecidableEq, Repr

instance : Enumeration RejectTag where
  members := [.versionMismatch, .authError]
  number
    | .versionMismatch => 0
    | .authError => 1
  symbol
    | .versionMismatch => "RPC_MISMATCH"
    | .authError => "AUTH_ERROR"
  find_number a := by cases a <;> rfl

abbrev RejectTag.Payload : RejectTag → Type
  | versionMismatch => VersionRange
  | authError => AuthError

def RejectTag.payload : (t : RejectTag) → Format t.Payload
  | versionMismatch => Wire.format
  | authError => Wire.format

namespace Rejection

def toTagged : Rejection → (t : RejectTag) × t.Payload
  | versionMismatch r => ⟨.versionMismatch, r⟩
  | authError e => ⟨.authError, e⟩

def ofTagged : (t : RejectTag) × t.Payload → Rejection
  | ⟨.versionMismatch, r⟩ => versionMismatch r
  | ⟨.authError, e⟩ => authError e

instance : Wire Rejection :=
  ⟨.via ofTagged toTagged (fun r => by cases r <;> rfl) (fun ⟨t, _⟩ => by cases t <;> rfl)
    (.tagged (.discriminant RejectTag "reject stat in rejected_reply") RejectTag.payload)⟩

end Rejection

/-- The body of a reply. -/
inductive ReplyBody
  | accepted (a : Acceptance)
  | denied (r : Rejection)
  deriving DecidableEq, Repr

/-- The kinds of `ReplyBody`. -/
inductive ReplyTag
  | accepted | denied
  deriving DecidableEq, Repr

instance : Enumeration ReplyTag where
  members := [.accepted, .denied]
  number
    | .accepted => 0
    | .denied => 1
  symbol
    | .accepted => "MSG_ACCEPTED"
    | .denied => "MSG_DENIED"
  find_number a := by cases a <;> rfl

abbrev ReplyTag.Payload : ReplyTag → Type
  | accepted => Acceptance
  | denied => Rejection

def ReplyTag.payload : (t : ReplyTag) → Format t.Payload
  | accepted => Wire.format
  | denied => Wire.format

namespace ReplyBody

def toTagged : ReplyBody → (t : ReplyTag) × t.Payload
  | accepted a => ⟨.accepted, a⟩
  | denied r => ⟨.denied, r⟩

def ofTagged : (t : ReplyTag) × t.Payload → ReplyBody
  | ⟨.accepted, a⟩ => accepted a
  | ⟨.denied, r⟩ => denied r

instance : Wire ReplyBody :=
  ⟨.via ofTagged toTagged (fun r => by cases r <;> rfl) (fun ⟨t, _⟩ => by cases t <;> rfl)
    (.tagged (.discriminant ReplyTag "reply status in reply_body") ReplyTag.payload)⟩

end ReplyBody

/-! ### Messages -/

/-- The body of a message. -/
inductive MessageBody
  | call (c : CallHeader)
  | reply (r : ReplyBody)
  deriving DecidableEq, Repr

/-- The kinds of `MessageBody`. -/
inductive MessageTag
  | call | reply
  deriving DecidableEq, Repr

instance : Enumeration MessageTag where
  members := [.call, .reply]
  number
    | .call => 0
    | .reply => 1
  symbol
    | .call => "CALL"
    | .reply => "REPLY"
  find_number a := by cases a <;> rfl

abbrev MessageTag.Payload : MessageTag → Type
  | call => CallHeader
  | reply => ReplyBody

def MessageTag.payload : (t : MessageTag) → Format t.Payload
  | call => Wire.format
  | reply => Wire.format

namespace MessageBody

def toTagged : MessageBody → (t : MessageTag) × t.Payload
  | call c => ⟨.call, c⟩
  | reply r => ⟨.reply, r⟩

def ofTagged : (t : MessageTag) × t.Payload → MessageBody
  | ⟨.call, c⟩ => call c
  | ⟨.reply, r⟩ => reply r

instance : Wire MessageBody :=
  ⟨.via ofTagged toTagged (fun b => by cases b <;> rfl) (fun ⟨t, _⟩ => by cases t <;> rfl)
    (.tagged (.discriminant MessageTag "message type in rpc_body") MessageTag.payload)⟩

end MessageBody

/-- A message; its number ties a reply to the call that it answers. -/
structure Message where
  xid : UInt32
  body : MessageBody
  deriving DecidableEq, Repr

instance : Wire Message :=
  ⟨.via (fun (xid, body) => ⟨xid, body⟩) (fun m => (m.xid, m.body))
    (fun _ => rfl) (fun _ => rfl) Wire.format⟩

namespace Message

/-- The version of the call protocol that this library speaks. -/
def rpcVersion : UInt32 := 2

/-- The reply that accepts call `xid` with a status. -/
def accepted (xid : UInt32) (status : AcceptStatus) : Message :=
  ⟨xid, .reply (.accepted ⟨.empty, status⟩)⟩

/-- The reply that turns call `xid` away. -/
def denied (xid : UInt32) (cause : Rejection) : Message :=
  ⟨xid, .reply (.denied cause)⟩

/-- The reply to a call in another version of the call protocol. -/
def versionMismatch (xid : UInt32) : Message :=
  denied xid (.versionMismatch ⟨rpcVersion, rpcVersion⟩)

end Message

end NfsServer.Rpc
