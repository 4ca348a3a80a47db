import NfsServer.Proofs.Nfs.Entries
import NfsServer.Proofs.Rpc.Staleness

/-!
# One entry more or less

A call that makes an object and is answered with success makes exactly the one that it asks for, and
a call that removes one removes exactly that; no other object changes but the directory, which bears
the time of the call (`Server.changes_one_entry`).
-/

namespace NfsServer

namespace Nfs

open Program

variable {now : Time} {b : Backend Memory}

/-- What a procedure leaves when it succeeds. -/
theorem ends_responding_ok {α φ : Type} {p : Program (Outcome α φ)}
    {post : Outcome α φ → Backend Memory → Prop}
    (hp : p.Ends now b fun r b' => ∀ a, r = .ok a → post r b') :
    p.responding.Ends now b fun response b' => ∀ r, response = .results r →
      r.status = .ok → post r b' := by
  refine Ends.responding (hp.mono fun r b' h r' hr hok => ?_)
  obtain rfl := Response.results.inj hr
  cases r with
  | ok a => exact h a rfl
  | failed e detail => cases hok

namespace Procedure

/-- The entry that a call asks to be made, and what its object is to hold. -/
def addition? : (p : Procedure) → p.Args → Option (EntryName × Contents)
  | create, args =>
    some (args.entry, .file (List.replicate (args.how.requested.size.getD 0).toNat 0))
  | makeDirectory, args => some (args.entry, .directory)
  | makeSymlink, args => some (args.entry, .symlink args.contents.target)
  | null, _ | getAttributes, _ | setAttributes, _ | lookup, _ | access, _ | readLink, _ | read, _
  | write, _ | makeNode, _ | remove, _ | removeDirectory, _ | rename, _ | makeLink, _
  | readDirectory, _ | readDirectoryPlus, _ | fileSystemSpace, _ | fileSystemLimits, _
  | namingLimits, _ | commit, _ => none

/-- The entry that a call asks to be removed, and whether it has to be a directory. -/
def removal? : (p : Procedure) → p.Args → Option (EntryName × Bool)
  | remove, entry => some (entry, false)
  | removeDirectory, entry => some (entry, true)
  | null, _ | getAttributes, _ | setAttributes, _ | lookup, _ | access, _ | readLink, _ | read, _
  | write, _ | create, _ | makeDirectory, _ | makeSymlink, _ | makeNode, _ | rename, _
  | makeLink, _ | readDirectory, _ | readDirectoryPlus, _ | fileSystemSpace, _
  | fileSystemLimits, _ | namingLimits, _ | commit, _ => none

/-- The call asks for the entry to be made or to be removed. -/
def AsksFor (p : Procedure) (args : p.Args) (entry : EntryName) : Prop :=
  (∃ contents, p.addition? args = some (entry, contents)) ∨
    ∃ isDirectory, p.removal? args = some (entry, isDirectory)

theorem AsksFor.handles?_eq {p : Procedure} {args : p.Args} {entry : EntryName}
    (h : p.AsksFor args entry) : p.handles? args = some [entry.directory] := by
  rcases h with ⟨contents, h⟩ | ⟨isDirectory, h⟩ <;> cases p <;> cases h <;> rfl

theorem AsksFor.ne_null {p : Procedure} {args : p.Args} {entry : EntryName}
    (h : p.AsksFor args entry) : p ≠ null := by
  rintro rfl
  cases h.handles?_eq

section

variable {p : Procedure} {args : p.Args} {entry : EntryName} {path : Path} {d : Object}
  (htree : b.store.IsTree) (hwrite : b.store.isReadOnly = false) (verifier : FixedBytes 8)
  (hobject : b.StandsFor entry.directory path d)

include hobject

theorem ends_perform_gains (hb : b.handles.WellFormed) {contents : Contents}
    (hadds : p.addition? args = some (entry, contents))
    (hvacant : p = create → b.store.find? (path.location ++ [.name entry.name]) = none) :
    (p.perform now verifier args).Ends now b fun response b' => ∀ r, response = .results r →
      p.status? r = some .ok →
      ∃ x, b.store.Gains now (path.location ++ [.name entry.name]) x b'.store ∧
        x.contents = contents := by
  cases p <;> cases hadds
  case create =>
    exact (ends_responding_ok (ends_create_gains hb hobject (hvacant rfl))).mono
      fun _ _ h r hr hok => h r hr (Option.some.inj hok)
  case makeDirectory =>
    exact (ends_responding_ok (ends_makeDirectory_gains hb hobject)).mono
      fun _ _ h r hr hok => h r hr (Option.some.inj hok)
  case makeSymlink =>
    exact (ends_responding_ok (ends_makeSymlink_gains hb hobject)).mono
      fun _ _ h r hr hok => h r hr (Option.some.inj hok)

include htree hwrite

theorem ends_perform_loses {isDirectory : Bool}
    (hremoves : p.removal? args = some (entry, isDirectory)) :
    (p.perform now verifier args).Ends now b fun response b' => ∀ r, response = .results r →
      p.status? r = some .ok → IsAccepted entry.name ∧
        ∃ x, b.store.Loses now (path.location ++ [.name entry.name]) x b'.store ∧
          x.isDirectory = isDirectory ∧
          (isDirectory = true → b.store.IsEmptyAt (path.location ++ [.name entry.name])) := by
  cases p <;> cases hremoves
  case remove =>
    refine (ends_responding_ok (ends_remove_loses hwrite hobject)).mono
      fun _ _ h r hr hok => ?_
    obtain ⟨hname, x, hloses, hfile⟩ := h r hr (Option.some.inj hok)
    exact ⟨hname, x, hloses, hfile, nofun⟩
  case removeDirectory =>
    refine (ends_responding_ok (ends_removeDirectory_loses htree hwrite hobject)).mono
      fun _ _ h r hr hok => ?_
    obtain ⟨hname, x, hloses, hdirectory, hempty⟩ := h r hr (Option.some.inj hok)
    exact ⟨hname, x, hloses, hdirectory, fun _ => hempty⟩

/-- Only with an accepted name does a call succeed that makes or removes an entry. -/
theorem ends_perform_named (hb : b.handles.WellFormed) (hentry : p.AsksFor args entry) :
    (p.perform now verifier args).Ends now b fun response _ => ∀ r, response = .results r →
      p.status? r = some .ok → IsAccepted entry.name := by
  rcases hentry with ⟨contents, hadds⟩ | ⟨isDirectory, hremoves⟩
  · have hnamed : ∀ make, (addEntry entry make).responding.Ends now b fun response _ =>
        ∀ r, response = .results r → r.status = .ok → IsAccepted entry.name :=
      fun make => ends_responding_ok (ends_addEntry_named hb entry make)
    cases p <;> cases hadds
    all_goals exact (hnamed _).mono fun _ _ h r hr hok => h r hr (Option.some.inj hok)
  · exact (ends_perform_loses htree hwrite verifier hobject hremoves).mono
      fun _ _ h r hr hok => (h r hr hok).1

end

end Procedure

end Nfs

namespace Server

open Rpc

section Call

variable {s : Server Memory} {m : Incoming} {xid : UInt32} {p : Nfs.Procedure} {args : p.Args}
  (hcall : s.performed? m = some ⟨xid, .nfs p, args⟩)

include hcall

/-- A call that is answered with success has ended so. -/
theorem exists_results_of_statusWord? (hp : p ≠ .null) (hok : (s.take m).1.statusWord? = some 0) :
    ∃ r, s.Answers m ⟨xid, .nfs p, args⟩ (.results r) ∧ p.status? r = some .ok := by
  have hanswers : s.Answers m ⟨xid, .nfs p, args⟩ _ := ⟨hcall, rfl⟩
  rw [hanswers.take_eq, ← show Enumeration.number Nfs.Status.ok = 0 from rfl,
    Nfs.Procedure.statusWord?_eq_iff hp] at hok
  obtain ⟨r, hr, hstatus⟩ := hok
  exact ⟨r, ⟨hcall, hr⟩, hstatus⟩

/-- Each of the handles that a successful call goes by stands for an object. -/
theorem exists_standsFor_of_statusWord? (hs : s.backend.Sound)
    (hcached : ∃ c, s.backend.handles = .cached c) (hwrite : s.backend.store.isReadOnly = false)
    {hs' : List FileHandle} (hhs : p.handles? args = some hs')
    (hok : (s.take m).1.statusWord? = some 0) :
    ∀ h ∈ hs', ∃ path o, s.backend.StandsFor h path o := by
  intro h hh
  have hp : p ≠ .null := by
    rintro rfl
    cases hhs
  obtain ⟨r, hanswers, hstatus⟩ := exists_results_of_statusWord? hcall hp hok
  have hlive : s.backend.handles.IsLive h := by
    by_contra hdead
    have hblames : (p.perform m.clock.performed s.config.writeVerifier args).Blames p.IsStale hs'
        m.clock.performed s.backend :=
      Nfs.Procedure.blames_perform hs hcached hwrite s.config.writeVerifier hhs
    obtain ⟨r', hr', hstale⟩ := hblames.2 ⟨h, hh, hdead⟩
    obtain rfl := Response.results.inj (hanswers.2.symm.trans hr')
    cases hstatus.symm.trans hstale
  obtain ⟨x, hx, rfl⟩ := hlive
  obtain ⟨o, hobject⟩ := hs.exists_standsFor hcached (hs.handles.resolve_eq hx)
  exact ⟨x.path, o, hobject⟩

end Call

/-- What a message leaves behind a performed call is what its program leaves. -/
theorem ends_take {s : Server Memory} {m : Incoming} {xid : UInt32} {p : Nfs.Procedure}
    {args : p.Args} {r : p.Result} {post : Response p.Result → Backend Memory → Prop}
    (hanswers : s.Answers m ⟨xid, .nfs p, args⟩ (.results r))
    (hends : (p.perform m.clock.performed s.config.writeVerifier args).Ends m.clock.performed
      s.backend post) : post (.results r) (s.take m).2.backend := by
  have hbackend := backend_take s m
  rw [hanswers.1] at hbackend
  rw [hbackend, ← hanswers.2]
  exact hends

/-- No object has ever had the number that comes next. -/
theorem idAt_ne_nextId_after {s : Server Memory} (hs : s.backend.store.IsTree)
    {before earlier : List Incoming} (h : earlier <+: before) (l : Location) :
    (s.after earlier).backend.store.idAt l ≠ some (s.after before).backend.store.nextId := by
  obtain ⟨rest, rfl⟩ := h
  intro hl
  have hlt := (isTree_after hs earlier).idAt_lt hl
  have hle := store_after (s := s.after earlier)
    (Memory.kept_le_nextId (s.after earlier).backend.store.nextId) (Nat.le_refl _) rest
  rw [← after_append] at hle
  exact absurd hle (Nat.not_le.2 hlt)

/-- Whatever messages a server has taken whose store takes changes: when a call that makes an object
succeeds, and the name was free in case of a file, there is exactly one object more, in the
directory that the handle stands for.  It holds what the call asks for, nothing lies in it, and no
object has ever had its number.  When a call that removes an object succeeds, there is exactly one
object less, which was a directory without anything in it or no directory, as the call asks.
Besides, only the times of the directory change.  With a name that is empty, a dot entry, too long
or no text, or that contains a slash, no such call succeeds. -/
theorem changes_one_entry (config : ServerConfig) (limit : Nat) (ids : HandleSource)
    (store : Memory) (hstore : store.Built) (hwrite : store.isReadOnly = false)
    (before : List Incoming) (m : Incoming) :
    let s := (start config ⟨store, .cached (.empty limit ids), []⟩).after before
    let s' := (s.take m).2
    let now := m.clock.performed
    ∀ xid p args entry, s.performed? m = some ⟨xid, .nfs p, args⟩ →
      let Succeeds : Prop := (s.take m).1.statusWord? = some 0
      (∀ directory d, s.backend.StandsFor entry.directory directory d → Succeeds →
        let place := directory.location ++ [.name entry.name]
        (∀ contents, p.addition? args = some (entry, contents) →
          (p = .create → s.backend.store.find? place = none) →
          ∃ o, o.contents = contents ∧ o.kind = contents.kind ∧
            s.backend.store.Gains now place o s'.backend.store ∧
            s'.backend.store.find? directory.location = some (d.touch now) ∧
            s'.backend.store.IsEmptyAt place ∧
            ∀ earlier, earlier <+: before → ∀ l,
              ((start config ⟨store, .cached (.empty limit ids), []⟩).after
                earlier).backend.store.idAt l ≠ some o.fileId) ∧
          ∀ isDirectory, p.removal? args = some (entry, isDirectory) →
            ∃ o, o.isDirectory = isDirectory ∧
              (isDirectory = true → s.backend.store.IsEmptyAt place) ∧
              s.backend.store.Loses now place o s'.backend.store ∧
              s'.backend.store.find? directory.location = some (d.touch now)) ∧
        (p.AsksFor args entry →
          entry.name = [] ∨ entry.name = [Path.dot] ∨ entry.name = [Path.dot, Path.dot] ∨
            Path.slash ∈ entry.name ∨ Utf8.isValid entry.name = false ∨ 255 < entry.name.length →
          ¬Succeeds) := by
  intro s s' now xid p args entry hcall Succeeds
  have hstart := sound_start config store limit ids
  obtain ⟨hsound, -⟩ := sound_after hstart before
  have hcached := exists_cached_after hstart ⟨_, rfl⟩ before
  have htree : s.backend.store.IsTree := isTree_after hstore.isTree before
  have hstorable : s.backend.store.isReadOnly = false :=
    store_after (Memory.kept_isReadOnly false) hwrite before
  have hbuilt : s'.backend.store.Built :=
    store_take Memory.kept_built (store_after Memory.kept_built hstore before) m
  constructor
  · intro directory d hobject hok place
    have hparent : place.parent? = some directory.location :=
      Location.parent?_append_singleton _ Component.noConfusion
    have hne : directory.location ≠ place := fun heq =>
      Location.parent?_ne_self place (heq ▸ hparent)
    constructor
    · intro contents hadds hvacant
      have hentry : p.AsksFor args entry := Or.inl ⟨contents, hadds⟩
      obtain ⟨r, hanswers, hstatus⟩ := exists_results_of_statusWord? hcall hentry.ne_null hok
      obtain ⟨o, hgains, hcontents⟩ := ends_take hanswers
        (Nfs.Procedure.ends_perform_gains s.config.writeVerifier hobject hsound.handles hadds
          hvacant) r rfl hstatus
      refine ⟨o, hcontents, ?_, hgains, ?_, hgains.isEmptyAt htree, ?_⟩
      · rw [(hbuilt.isConsistent hgains.here).kind_eq, hcontents]
      · rw [hgains.elsewhere _ hne, hobject.find?, Option.map_some,
          Memory.touchHolder_of_parent hparent]
      · intro earlier hearlier l
        rw [hgains.fileId_eq]
        exact idAt_ne_nextId_after hstore.isTree hearlier l
    · intro isDirectory hremoves
      have hentry : p.AsksFor args entry := Or.inr ⟨isDirectory, hremoves⟩
      obtain ⟨r, hanswers, hstatus⟩ := exists_results_of_statusWord? hcall hentry.ne_null hok
      obtain ⟨-, o, hloses, hkind, hempty⟩ := ends_take hanswers
        (Nfs.Procedure.ends_perform_loses htree hstorable s.config.writeVerifier hobject hremoves)
          r rfl hstatus
      refine ⟨o, hkind, hempty, hloses, ?_⟩
      rw [hloses.elsewhere _ hne, hobject.find?, Option.map_some,
        Memory.touchHolder_of_parent hparent]
  · intro hentry hname hok
    obtain ⟨directory, d, hobject⟩ := exists_standsFor_of_statusWord? hcall hsound hcached hstorable
      hentry.handles?_eq hok entry.directory (List.mem_singleton.2 rfl)
    obtain ⟨r, hanswers, hstatus⟩ := exists_results_of_statusWord? hcall hentry.ne_null hok
    obtain ⟨hlength, hentryName, htext⟩ := ends_take hanswers
      (Nfs.Procedure.ends_perform_named htree hstorable s.config.writeVerifier hobject
        hsound.handles hentry) r rfl hstatus
    rcases hname with hname | hname | hname | hname | hname | hname
    · exact hentryName.ne_nil hname
    · exact hentryName.ne_dot hname
    · exact hentryName.ne_dots hname
    · exact hentryName.slash_not_mem hname
    · rw [htext] at hname
      cases hname
    · exact Nat.not_lt.2 hlength hname

/-- A file of two bytes is made and removed again, and no directory is made by the name of the one
above. -/
theorem changes_one_entry_file :
    let config : ServerConfig := ⟨.known, ['/'], Bytes.zeros 8⟩
    let root := FileHandle.serial 1
    let mount := Call.sentAt ⟨5⟩ ⟨7, .mount .mount, [0x2F]⟩
    let entry : Nfs.EntryName := ⟨root, [0x66]⟩
    let args : Nfs.CreateArgs :=
      ⟨entry, .guarded { Nfs.AttributeRequest.empty with size := some 2 }⟩
    let make := Call.sentAt ⟨6⟩ ⟨8, .nfs .create, args⟩
    let remove := Call.sentAt ⟨7⟩ ⟨9, .nfs .remove, entry⟩
    let above : Nfs.MakeDirectoryArgs := ⟨⟨root, [Path.dot, Path.dot]⟩, .empty⟩
    let makeAbove := Call.sentAt ⟨8⟩ ⟨10, .nfs .makeDirectory, above⟩
    let place : Location := [.root, .name [0x66]]
    let first := start config ⟨.empty ⟨0⟩ false 10, .cached (.empty 4), []⟩
    let s := first.after [mount]
    let s' := (s.take make).2
    let s'' := (s'.take remove).2
    let d : Object := ⟨.directory, .directory, 0o755, 0, ⟨0⟩, ⟨0⟩, ⟨0⟩, 1⟩
    (s.performed? make = some ⟨8, .nfs .create, args⟩ ∧
        s'.performed? remove = some ⟨9, .nfs .remove, entry⟩ ∧
        s''.performed? makeAbove = some ⟨10, .nfs .makeDirectory, above⟩ ∧
        s.backend.StandsFor root ⟨[0x2F]⟩ d ∧ s'.backend.StandsFor root ⟨[0x2F]⟩ (d.touch ⟨6⟩) ∧
        s.backend.store.find? place = none) ∧
      (∃ o, o.contents = .file [0, 0] ∧ o.kind = .file ∧
        s.backend.store.Gains ⟨6⟩ place o s'.backend.store ∧
        s'.backend.store.find? Location.root = some (d.touch ⟨6⟩) ∧
        s'.backend.store.IsEmptyAt place ∧
        ∀ earlier, earlier <+: [mount] → ∀ l,
          (first.after earlier).backend.store.idAt l ≠ some o.fileId) ∧
      (∃ o, o.isDirectory = false ∧ (false = true → s'.backend.store.IsEmptyAt place) ∧
        s'.backend.store.Loses ⟨7⟩ place o s''.backend.store ∧
        s''.backend.store.find? Location.root = some (d.touch ⟨7⟩)) ∧
      (s''.take makeAbove).1.statusWord? ≠ some 0 := by
  intro config root mount entry args make remove above makeAbove place first s s' s'' d
  have hmake : s.performed? make = some ⟨8, .nfs .create, args⟩ :=
    performed?_sentAt (by decide +kernel) (by decide +kernel) (by decide +kernel)
  have hremove : s'.performed? remove = some ⟨9, .nfs .remove, entry⟩ :=
    performed?_sentAt (by decide +kernel) (by decide +kernel) (by decide +kernel)
  have hmakeAbove : s''.performed? makeAbove = some ⟨10, .nfs .makeDirectory, above⟩ :=
    performed?_sentAt (by decide +kernel) (by decide +kernel) (by decide +kernel)
  have hobject : s.backend.StandsFor root ⟨[0x2F]⟩ d := ⟨by decide +kernel, by decide +kernel⟩
  have hobject' : s'.backend.StandsFor root ⟨[0x2F]⟩ (d.touch ⟨6⟩) :=
    ⟨by decide +kernel, by decide +kernel⟩
  have hvacant : s.backend.store.find? place = none := by decide +kernel
  have hok : (s.take make).1.statusWord? = some 0 := by decide +kernel
  have hok' : (s'.take remove).1.statusWord? = some 0 := by decide +kernel
  have hplace : (⟨[0x2F]⟩ : Path).location = Location.root := by decide
  have hs : (start config ⟨.empty ⟨0⟩ false 10, .cached (.empty 4), []⟩).after [mount] = s := rfl
  have hs' : (s.take make).2 = s' := rfl
  have hs'' : (s'.take remove).2 = s'' := rfl
  have hall := changes_one_entry config 4 .serials (.empty ⟨0⟩ false 10) (.empty _ _ _) rfl
  have hmade := hall [mount] make
  have hremoved := hall ([mount] ++ [make]) remove
  have hrefused := hall ([mount] ++ [make] ++ [remove]) makeAbove
  rw [hs] at hmade
  rw [after_append, hs, show s.after [make] = s' from rfl] at hremoved
  rw [after_append, after_append, hs, show s.after [make] = s' from rfl,
    show s'.after [remove] = s'' from rfl] at hrefused
  -- What the servers are is of no matter any more.
  clear_value s'' s' s
  have hmade' := ((hmade 8 .create args entry hmake).1 _ d hobject hok).1 _ rfl fun _ => by
    rw [hplace]
    exact hvacant
  have hremoved' := ((hremoved 9 .remove entry entry hremove).1 _ _ hobject' hok').2 false rfl
  rw [hplace, hs'] at hmade'
  rw [hplace, hs''] at hremoved'
  exact ⟨⟨hmake, hremove, hmakeAbove, hobject, hobject', hvacant⟩, hmade', hremoved',
    (hrefused 10 .makeDirectory above above.entry hmakeAbove).2 (Or.inl ⟨_, rfl⟩)
      (Or.inr (Or.inr (Or.inl rfl)))⟩

end Server

end NfsServer
