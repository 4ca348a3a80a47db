import NfsServer.Rpc.Message

/-!
# Admission of calls

Before a call has any effect, its message must be one that the server can read, its version of the
call protocol must be spoken, and its credential must be accepted.  `Arrival.read` makes these
checks in this order, and looks at nothing but the message and the policy of the server.
-/

namespace NfsServer.Rpc

/-- Which credentials a server accepts. -/
inductive CredentialPolicy
  /-- Credentials of every flavor. -/
  | any
  /-- Credentials that say nothing and those of Unix users. -/
  | known
  /-- Credentials that pass a check of the server's own. -/
  | custom (accept : Credential → Except AuthError Unit)

namespace CredentialPolicy

/-- Checks a credential, for all but `custom` by its flavor alone. -/
def check (policy : CredentialPolicy) (c : Credential) : Except AuthError Unit :=
  match policy, c.flavor with
  | any, _ => .ok ()
  | known, .none => .ok ()
  | known, .unix => .ok ()
  | known, .short => .error .badCredential
  | known, .des => .error .badCredential
  | custom accept, _ => accept c

/-- Checks a credential: it is accepted, and that of a Unix user can be read. -/
def authenticate (policy : CredentialPolicy) (c : Credential) : Except AuthError Unit :=
  match policy.check c with
  | .error e => .error e
  | .ok () =>
    if c.flavor = .unix then
      match decode UnixCredential c.body with
      | .ok _ => .ok ()
      | .error _ => .error .badCredential
    else .ok ()

end CredentialPolicy

/-- Why a message gets no reply and its connection is closed. -/
inductive CallError
  /-- The message or the arguments of its procedure cannot be read. -/
  | undecodable (cause : DecodeError)
  /-- The message is a reply. -/
  | notACall
  deriving DecidableEq, Repr

/-- The wording of an error; input that ends early is reported without words. -/
def CallError.message? : CallError → Option String
  | undecodable cause => cause.message?
  | notACall => some "Bad RPC Call format"

/-- What a message turns out to be when it arrives. -/
inductive Arrival
  /-- A message that gets no reply. -/
  | closed (e : CallError)
  /-- A call that is turned away. -/
  | denied (xid : UInt32) (cause : Rejection)
  /-- A call that is let in, with the arguments of its procedure. -/
  | call (xid : UInt32) (header : CallHeader) (arguments : Bytes)
  deriving DecidableEq, Repr

/-- Reads a message and makes the checks on its header. -/
def Arrival.read (policy : CredentialPolicy) (input : Bytes) : Arrival :=
  match decode Message input with
  | .error e => .closed (.undecodable e)
  | .ok (⟨_, .reply _⟩, _) => .closed .notACall
  | .ok (⟨xid, .call header⟩, arguments) =>
    if header.rpcVersion ≠ Message.rpcVersion then
      .denied xid (.versionMismatch ⟨Message.rpcVersion, Message.rpcVersion⟩)
    else match policy.authenticate header.credential with
      | .error e => .denied xid (.authError e)
      | .ok () => .call xid header arguments

end NfsServer.Rpc
