import NfsServer.Nfs.Queries
import NfsServer.Proofs.Frame

/-!
# Procedures that change nothing

All these procedures resolve a handle and then only ask the store (`asks_resolve_then`), except for
the lookup of a name, which issues a handle for an object that it has just seen.
-/

namespace NfsServer.Nfs

variable {α : Type} {now : Time} {b : Backend Memory}

/-- A procedure that resolves a handle and then only asks the store. -/
theorem asks_resolve_then (h : FileHandle) {k : Except NfsError Path → Program α}
    (hk : ∀ r, (k r).Asks Request.IsQuery) : (Program.resolve h >>= k).Asks Request.IsLook :=
  (Program.asks_request trivial).bind fun r => (hk r).mono Request.IsQuery.isLook

/-! ## Attributes, names and rights -/

theorem asks_getAttributes (object : FileHandle) :
    (getAttributes object).Asks Request.IsLook := by
  apply asks_resolve_then object
  intro r
  cases r with
  | error e => exact Program.asks_pure _
  | ok path =>
    apply Program.Asks.bind (asks_attempt (by trivial))
    intro m
    cases m <;> exact Program.asks_pure _

theorem stable_lookup (hb : b.Sound) (entry : EntryName) :
    (lookup entry).Stable now b fun _ _ => True := by
  apply (Program.stable_resolve hb entry.directory).bind hb
  intro r b' hb' _
  cases r with
  | error e => exact Program.stable_pure hb' trivial
  | ok directory =>
    apply (stable_stat hb' directory).bind hb'
    intro dm b'' hb'' _
    cases dm with
    | error e => exact Program.stable_pure hb'' trivial
    | ok dm =>
      dsimp only
      split
      · exact Program.stable_pure hb'' trivial
      · next path _ =>
        apply (stable_stat hb'' path).bind hb''
        intro m b₃ hb₃ hstat
        cases m with
        | error e => exact Program.stable_pure hb₃ trivial
        | ok m =>
          obtain ⟨rfl, hm⟩ := hstat
          obtain ⟨f, hf⟩ := Memory.idAt_of_stat (hm m rfl)
          exact (Program.stable_issue hb₃ hf).bind hb₃ fun _ _ hb₄ _ =>
            Program.stable_pure hb₄ trivial

theorem asks_lookup (entry : EntryName) : (lookup entry).Asks Request.KeepsStore := by
  refine (Program.asks_request trivial).bind fun r => ?_
  cases r with
  | error e => exact Program.asks_pure _
  | ok directory =>
    refine (asks_attempt (by trivial)).bind fun dm => ?_
    cases dm with
    | error e => exact Program.asks_pure _
    | ok dm =>
      dsimp only
      split
      · exact Program.asks_pure _
      · refine (asks_attempt (by trivial)).bind fun m => ?_
        cases m with
        | error e => exact Program.asks_pure _
        | ok m => exact (Program.asks_request trivial).bind fun _ => Program.asks_pure _

theorem asks_access (args : AccessArgs) :
    (access args).Asks Request.IsLook := by
  apply asks_resolve_then args.object
  intro r
  cases r with
  | error e => exact Program.asks_pure _
  | ok path =>
    apply Program.Asks.bind (asks_attempt (by trivial))
    intro m
    cases m with
    | error e => exact Program.asks_pure _
    | ok m => exact asks_isReadOnly.bind fun _ => Program.asks_pure _

/-! ## Contents -/

theorem asks_readLink (object : FileHandle) :
    (readLink object).Asks Request.IsLook := by
  apply asks_resolve_then object
  intro r
  cases r with
  | error e => exact Program.asks_pure _
  | ok path =>
    refine (asks_attributesOf? path).bind fun _ => ?_
    apply Program.Asks.bind (asks_attempt (by trivial))
    intro target
    cases target <;> exact Program.asks_pure _

theorem asks_readData (path : Path) (offset : UInt64) (count : UInt32) :
    (readData path offset count).Asks Request.IsQuery := by
  apply Program.Asks.bind (asks_attempt (by trivial))
  intro m
  cases m with
  | error e => exact Program.asks_pure _
  | ok m =>
    dsimp only
    split
    · exact Program.asks_pure _
    · exact asks_attempt (by trivial)

theorem asks_read (args : ReadArgs) :
    (read args).Asks Request.IsLook := by
  apply asks_resolve_then args.file
  intro r
  cases r with
  | error e => exact Program.asks_pure _
  | ok path =>
    apply (asks_readData path args.offset _).bind
    intro result
    refine (asks_attributesOf? path).bind fun _ => ?_
    cases result <;> exact Program.asks_pure _

/-! ## The file system -/

theorem asks_fileSystemSpace (object : FileHandle) :
    (fileSystemSpace object).Asks Request.IsLook := by
  apply asks_resolve_then object
  intro r
  cases r with
  | error e => exact Program.asks_pure _
  | ok path =>
    refine (asks_attributesOf? path).bind fun _ => ?_
    apply Program.Asks.bind (asks_attempt (by trivial))
    intro s
    cases s <;> exact Program.asks_pure _

theorem asks_fileSystemLimits (object : FileHandle) :
    (fileSystemLimits object).Asks Request.IsLook := by
  apply asks_resolve_then object
  intro r
  cases r with
  | error e => exact Program.asks_pure _
  | ok path =>
    refine (asks_attributesOf? path).bind fun _ => ?_
    exact Program.Asks.bind ⟨by trivial, fun _ => trivial⟩ fun _ => Program.asks_pure _

theorem asks_namingLimits (object : FileHandle) :
    (namingLimits object).Asks Request.IsLook := by
  apply asks_resolve_then object
  intro r
  cases r with
  | error e => exact Program.asks_pure _
  | ok path => exact (asks_attributesOf? path).bind fun _ => Program.asks_pure _

theorem asks_commit (verifier : FixedBytes 8) (args : CommitArgs) :
    (commit verifier args).Asks Request.IsLook := by
  apply asks_resolve_then args.file
  intro r
  cases r with
  | error e => exact Program.asks_pure _
  | ok path =>
    refine (asks_attributesOf? path).bind fun attributes => ?_
    cases attributes <;> exact Program.asks_pure _

end NfsServer.Nfs
