import NfsServer.Mount.Procedure
import NfsServer.Proofs.Frame

/-!
# Mounting

The directory that is mounted has just been seen when its handle is issued, and nothing else about
handles or the store changes.
-/

namespace NfsServer.Mount

variable {now : Time} {b : Backend Memory}

theorem asks_checkDirectory (path : Path) : (checkDirectory path).Asks Request.IsQuery := by
  refine Program.Asks.bind ⟨by trivial, fun _ => trivial⟩ fun r => ?_
  cases r <;> exact Program.asks_pure _

/-- What is accepted as a directory is the one that was named, and it is there. -/
theorem run_checkDirectory {path root : Path}
    (h : ((checkDirectory path).run now b).1 = .ok root) :
    root = path ∧ ∃ m, b.store.stat path.location = .ok m ∧ m.isDirectory = true := by
  have hstat : ((Program.store (.stat path)).run now b).1 = b.store.stat path.location := rfl
  unfold checkDirectory at h
  rw [Program.run_bind, hstat] at h
  cases hm : b.store.stat path.location with
  | error e =>
    rw [hm] at h
    cases h
  | ok m =>
    rw [hm] at h
    by_cases hdirectory : m.isDirectory = true
    · dsimp only at h
      rw [if_pos hdirectory] at h
      exact ⟨(Except.ok.inj h).symm, m, rfl, hdirectory⟩
    · dsimp only at h
      rw [if_neg hdirectory] at h
      cases h

theorem run_checkDirectory_of_directory {path : Path} {o : Object}
    (ho : b.store.find? path.location = some o) (hdirectory : o.isDirectory = true) :
    ((checkDirectory path).run now b) = (.ok path, b) := by
  have hstat : (Program.store (.stat path)).run now b = (.ok o.metadata, b) :=
    Prod.ext (Memory.stat_eq_ok_iff.2 ⟨o, ho, rfl⟩) rfl
  have hmetadata : o.metadata.isDirectory = true := hdirectory
  unfold checkDirectory
  rw [Program.run_bind, hstat]
  dsimp only
  rw [if_pos hmetadata]
  rfl

/-- A directory that is there is mounted. -/
theorem run_mount_of_directory {exportName : Text} {name : Bytes} {path : Path} {o : Object}
    (hlength : name.length ≤ maxPathLength)
    (hpath : Export.relative? exportName (Utf8.lossy name) = some path)
    (ho : b.store.find? path.location = some o) (hdirectory : o.isDirectory = true) :
    (mount exportName name).run now b = (.ok ⟨(b.handles.issue path).1, flavors⟩,
      { b with handles := (b.handles.issue path).2, events := b.events ++ [.mounted] }) := by
  unfold mount
  rw [if_neg (Nat.not_lt.2 hlength), hpath]
  dsimp only
  rw [Program.run_bind, run_checkDirectory_of_directory ho hdirectory]
  rfl

/-- Only a directory that is there is mounted. -/
theorem exists_of_run_mount {exportName : Text} {name : Bytes} {root : MountedRoot}
    (h : ((mount exportName name).run now b).1 = .ok root) :
    name.length ≤ maxPathLength ∧
      ∃ path o, Export.relative? exportName (Utf8.lossy name) = some path ∧
        b.store.find? path.location = some o ∧ o.isDirectory = true := by
  unfold mount at h
  split at h
  · cases h
  · next hlength =>
    refine ⟨Nat.not_lt.1 hlength, ?_⟩
    split at h
    · cases h
    · next path hpath =>
      rw [Program.run_bind_of_asks_isQuery (asks_checkDirectory path)] at h
      cases hcheck : ((checkDirectory path).run now b).1 with
      | error e =>
        rw [hcheck] at h
        cases h
      | ok p =>
        obtain ⟨rfl, a, ha, hdirectory⟩ := run_checkDirectory hcheck
        obtain ⟨o, ho, rfl⟩ := Memory.stat_eq_ok_iff.1 ha
        exact ⟨p, o, hpath, ho, hdirectory⟩

theorem asks_mount (exportName : Text) (name : Bytes) :
    (mount exportName name).Asks Request.KeepsStore := by
  unfold mount
  split
  · exact Program.asks_pure _
  · split
    · exact Program.asks_pure _
    · next path _ =>
      refine ((asks_checkDirectory path).query Request.IsLook.keepsStore).bind fun root => ?_
      cases root with
      | error e => exact Program.asks_pure _
      | ok root =>
        refine (Program.asks_request trivial).bind fun handle => ?_
        exact (Program.asks_request trivial).bind fun _ => Program.asks_pure _

/-- A mount that fails leaves everything as it was, and otherwise the client gets a handle that has
been issued. -/
theorem ends_mount (hb : b.handles.WellFormed) (exportName : Text) (name : Bytes) :
    (mount exportName name).Ends now b fun r b' =>
      match r with
      | .ok root => b'.handles.HasIssued root.handle ∧ root.flavors = flavors
      | .failed _ => b' = b := by
  unfold mount
  split
  · exact Program.ends_pure rfl
  · split
    · exact Program.ends_pure rfl
    · next path _ =>
      refine Program.ends_query_then (asks_checkDirectory path) fun root _ => ?_
      cases root with
      | error e => exact Program.ends_pure rfl
      | ok root => exact Program.ends_issue_then hb fun _ _ _ hissued => ⟨hissued, rfl⟩

theorem spares_mount (hb : b.handles.WellFormed) (exportName : Text) (name : Bytes) :
    (mount exportName name).Spares (fun r => ∃ cause, r = .failed cause) now b := by
  refine (ends_mount hb exportName name).mono ?_
  rintro _ b' hends ⟨cause, rfl⟩
  obtain rfl : b' = b := hends
  exact .refl b'

theorem stable_mount (hb : b.Sound) (exportName : Text) (name : Bytes) :
    (mount exportName name).Stable now b fun _ _ => True := by
  unfold mount
  split
  · exact Program.stable_pure hb trivial
  · split
    · exact Program.stable_pure hb trivial
    · next path _ =>
      refine (Program.stable_of_asks_isQuery hb (asks_checkDirectory path)).bind hb
        fun root b' hb' hroot => ?_
      obtain ⟨rfl, hroot⟩ := hroot
      cases root with
      | error e => exact Program.stable_pure hb' trivial
      | ok root =>
        obtain ⟨rfl, m, hm, -⟩ := run_checkDirectory hroot.symm
        obtain ⟨f, hf⟩ := Memory.idAt_of_stat hm
        apply (Program.stable_issue hb' hf).bind hb'
        intro handle b'' hb'' _
        exact (Program.stable_announce hb'' .mounted).bind hb'' fun _ _ hb₃ _ =>
          Program.stable_pure hb₃ trivial

theorem stable_unmount (hb : b.Sound) : unmount.Stable now b fun _ _ => True :=
  Program.stable_announce hb .unmounted

end NfsServer.Mount
