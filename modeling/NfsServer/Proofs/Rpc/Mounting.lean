import NfsServer.Proofs.Mount
import NfsServer.Proofs.Mount.Export
import NfsServer.Proofs.Rpc.Reply

/-!
# The directory that a mount returns

The handle in the answer to a mount stands for the directory to which the name leads, less the white
space at its ends.  So it stands for the directory that the client named exactly if the name has no
white space there (`Server.mounts_named_directory_iff`).
-/

namespace NfsServer

namespace Mount

variable {now : Time} {b : Backend Memory} {exportName : Text} {name : Bytes}

/-- The handle of a directory that is mounted stands for its place. -/
theorem run_mount_resolves (hb : b.handles.WellFormed) (hlength : name.length ≤ maxPathLength)
    {path : Path} (hpath : Export.relative? exportName (Utf8.lossy name) = some path) {o : Object}
    (ho : b.store.find? path.location = some o) (hdirectory : o.isDirectory = true) :
    let result := (mount exportName name).run now b
    ∃ root q, result.1 = .ok root ∧ (result.2.handles.resolve root.handle).1 = .ok q ∧
      q.location = path.location := by
  intro result
  have hresult : result = _ := run_mount_of_directory hlength hpath ho hdirectory
  obtain ⟨rest, hleads⟩ := Export.exists_leads hpath
  obtain rfl := Option.some.inj (hleads.relative?_eq.symm.trans hpath)
  obtain ⟨q, hq, hplace⟩ := hb.resolve_issue (congrArg List.head? (Path.text_ofText_slash _))
    (Utf8.isValid_encode _)
  rw [hresult]
  exact ⟨_, q, rfl, hq, hplace⟩

theorem exists_path_of_run_mount (hb : b.handles.WellFormed) {root : MountedRoot}
    (h : ((mount exportName name).run now b).1 = .ok root) :
    ∃ path q, Export.relative? exportName (Utf8.lossy name) = some path ∧
      (((mount exportName name).run now b).2.handles.resolve root.handle).1 = .ok q ∧
      q.location = path.location := by
  obtain ⟨hlength, path, o, hpath, ho, hdirectory⟩ := exists_of_run_mount h
  obtain ⟨root', q, hroot, hq, hplace⟩ := run_mount_resolves hb hlength hpath ho hdirectory
  obtain rfl := MountResult.ok.inj (h.symm.trans hroot)
  exact ⟨path, q, hpath, hq, hplace⟩

end Mount

namespace Server

open Rpc Mount

variable {s : Server Memory} {m : Incoming} {xid : UInt32} {name : Bytes}

/-- A performed mount does what its program does. -/
theorem take_mount (hcall : s.performed? m = some ⟨xid, .mount .mount, name⟩) :
    let result := (mount s.config.exportName name).run m.clock.performed s.backend
    (s.take m).1 = .reply (replyTo xid (.mount .mount) (.results result.1)) ∧
      (s.take m).2.backend = result.2 := by
  intro result
  have hrun : ((mount s.config.exportName name).responding).run m.clock.performed s.backend =
      (.results result.1, result.2) := Program.run_responding _ _ _
  have hanswers : s.Answers m ⟨xid, .mount .mount, name⟩ (.results result.1) :=
    ⟨hcall, congrArg Prod.fst hrun⟩
  have hbackend := backend_take s m
  rw [hcall] at hbackend
  exact ⟨hanswers.take_eq, hbackend.trans (congrArg Prod.snd hrun)⟩

/-- The path inside the export that a client means by a name is that of the directory that it names
exactly if, slashes aside, no white space stands at the ends of what follows the name of the export.
The handle in the answer to a mount stands for that path.  So a mount by a path of at most 1024
bytes of a directory that is there is answered with a handle of just that directory exactly under
the same condition. -/
theorem mounts_named_directory_iff (config : ServerConfig) (store : Memory) {handles : HandleTable}
    (hhandles : handles = .pathText ∨ ∃ limit ids, handles = .cached (.empty limit ids))
    (before : List Incoming) (m : Incoming) :
    (∀ (name : Text) (p : Path), Export.relative? config.exportName name = some p →
      ∃ rest, Export.Leads config.exportName name rest ∧
        ((Path.ofText name).names = (Path.ofText config.exportName).names ++ p.names ↔
          ¬(Text.trim Export.isSlash rest).HasBlankEnd)) ∧
      let s := (start config ⟨store, handles, []⟩).after before
      ∀ xid name, s.performed? m = some ⟨xid, .mount .mount, name⟩ →
        ∃ r, (s.take m).1 = .reply (replyTo xid (.mount .mount) (.results r)) ∧
          (∀ root, r = .ok root → Utf8.isValid name = true →
            ∃ rest place, Export.Leads config.exportName (Utf8.lossy name) rest ∧
              (s.take m).2.placeOf? root.handle = some (.root :: place) ∧
              ((Path.mk name).names = (Path.ofText config.exportName).names ++ place ↔
                ¬(Text.trim Export.isSlash rest).HasBlankEnd)) ∧
          ∀ (directory : Text) (o : Object), directory.head? = some '/' →
            name = Utf8.encode (Text.trimEnd Export.isSlash config.exportName ++ directory) →
            name.length ≤ maxPathLength →
            s.backend.store.find? (Path.ofText directory).location = some o →
            o.isDirectory = true →
            ((∃ root, r = .ok root ∧
                (s.take m).2.placeOf? root.handle = some (Path.ofText directory).location) ↔
              ¬(Text.trim Export.isSlash directory).HasBlankEnd) := by
  refine ⟨fun name p hp => ?_, ?_⟩
  · obtain ⟨rest, hleads⟩ := Export.exists_leads hp
    exact ⟨rest, hleads, hleads.names_eq_append_iff hp⟩
  intro s xid name hcall
  have hwell : handles.WellFormed := by
    rcases hhandles with rfl | ⟨limit, ids, rfl⟩
    · trivial
    · exact HandleCache.wellFormed_empty limit ids
  have hwell' : s.backend.handles.WellFormed := (handles_after hwell before).1
  have hconfig : s.config = config := config_after _ before
  obtain ⟨htake, hbackend⟩ := take_mount hcall
  rw [hconfig] at htake hbackend
  refine ⟨_, htake, fun root hroot hvalid => ?_,
    fun directory o hslash hname hlength ho hdirectory => ?_⟩
  · obtain ⟨path, q, hpath, hq, hplace⟩ := exists_path_of_run_mount hwell' hroot
    obtain ⟨rest, hleads⟩ := Export.exists_leads hpath
    have hspelling : Path.mk name = Path.ofText (Utf8.lossy name) :=
      congrArg Path.mk (Utf8.encode_lossy hvalid).symm
    rw [← hbackend] at hq
    refine ⟨rest, path.names, hleads, ?_, ?_⟩
    · rw [placeOf?_of_resolve_eq hq, hplace, Export.location_of_relative? hpath]
    · rw [hspelling, hleads.names_eq_append_iff hpath]
  · have hleads : Export.Leads config.exportName (Utf8.lossy name) directory := by
      rw [hname, Utf8.lossy_encode]
      exact ⟨rfl, fun c hc => Option.some.inj (hc.symm.trans hslash)⟩
    have hpath := hleads.relative?_eq
    rw [← hleads.location_eq_iff hslash hpath]
    constructor
    · rintro ⟨root, hroot, hmounted⟩
      obtain ⟨path, q, hpath', hq, hplace⟩ := exists_path_of_run_mount hwell' hroot
      obtain rfl := Option.some.inj (hpath.symm.trans hpath')
      rw [← hbackend] at hq
      rw [placeOf?_of_resolve_eq hq, hplace] at hmounted
      exact Option.some.inj hmounted
    · intro hlocation
      rw [← hlocation] at ho ⊢
      obtain ⟨root, q, hroot, hq, hplace⟩ := run_mount_resolves hwell' hlength hpath ho hdirectory
      rw [← hbackend] at hq
      exact ⟨root, hroot, by rw [placeOf?_of_resolve_eq hq, hplace]⟩

/-- A mount of a directory below the exported one, named with a slash at the end. -/
theorem mounts_named_directory_iff_below_export :
    let config : ServerConfig := ⟨.known, ['/', 'd'], Bytes.zeros 8⟩
    let directory : Text := ['/', 'a', '/']
    let name := Utf8.encode (Text.trimEnd Export.isSlash config.exportName ++ directory)
    let m := Call.sentAt ⟨2⟩ ⟨7, .mount .mount, name⟩
    let store : Memory :=
      (Store.perform ⟨1⟩ (.makeDirectory (.ofText ['/', 'a']) 0o755) (Memory.empty ⟨0⟩ false 10)).2
    let s := start config ⟨store, .cached (.empty 4), []⟩
    (s.performed? m = some ⟨7, .mount .mount, name⟩ ∧
        (∃ o, s.backend.store.find? (Path.ofText directory).location = some o ∧
          o.isDirectory = true) ∧ ¬(Text.trim Export.isSlash directory).HasBlankEnd) ∧
      ∃ root, (s.take m).1 = .reply (replyTo 7 (.mount .mount) (.results (.ok root))) ∧
        (s.take m).2.placeOf? root.handle = some [.root, .name [0x61]] := by
  intro config directory name m store s
  have hcall : s.performed? m = some ⟨7, .mount .mount, name⟩ :=
    performed?_sentAt (by decide +kernel) (by decide +kernel) (by decide +kernel)
  obtain ⟨o, ho, hdirectory⟩ : ∃ o,
      s.backend.store.find? (Path.ofText directory).location = some o ∧
        o.isDirectory = true := by
    refine ⟨_, rfl, ?_⟩
    decide +kernel
  have hblank : ¬(Text.trim Export.isSlash directory).HasBlankEnd :=
    Text.trim_isBlank_eq_self_iff.1 (by decide)
  obtain ⟨-, hmounts⟩ := mounts_named_directory_iff config store (.inr ⟨4, .serials, rfl⟩) [] m
  obtain ⟨r, hreply, -, hresolves⟩ := hmounts 7 name hcall
  obtain ⟨root, rfl, hplace⟩ :=
    (hresolves directory o rfl rfl (by decide +kernel) ho hdirectory).2 hblank
  exact ⟨⟨hcall, ⟨o, ho, hdirectory⟩, hblank⟩, root, hreply, hplace⟩

/-- There are two directories whose names differ in a space at the end.  A client that mounts the
one with the space gets a handle of the other one. -/
theorem mount_of_trailing_space :
    let named := Path.ofText ['/', 'a', ' ']
    let other := Path.ofText ['/', 'a']
    let m := Call.sentAt ⟨3⟩ ⟨7, .mount .mount, named.text⟩
    let store : Memory := (Store.perform ⟨2⟩ (.makeDirectory other 0o755)
      (Store.perform ⟨1⟩ (.makeDirectory named 0o755) (Memory.empty ⟨0⟩ false 10)).2).2
    let s := start ⟨.known, ['/'], Bytes.zeros 8⟩ ⟨store, .cached (.empty 4), []⟩
    (s.backend.store.idAt named.location = some 2 ∧ s.backend.store.idAt other.location = some 3) ∧
      (s.take m).1 = .reply (replyTo 7 (.mount .mount) (.results (.ok ⟨.serial 1, flavors⟩))) ∧
      (s.take m).2.placeOf? (.serial 1) = some other.location ∧
      other.location ≠ named.location := by
  decide +kernel

end Server

end NfsServer
