import NfsServer.Proofs.Nfs.Data
import NfsServer.Proofs.Rpc.Call

/-!
# Writing

A write to a file either puts its data where it should be and changes nothing else, or it would make
the file too large and does nothing (`Server.write_puts_data`).  The end of the data is a natural
number here, so that no offset makes it wrap around.
-/

namespace NfsServer.Server

open Rpc

/-- Whatever messages a server has taken whose store takes changes and has room for its largest
files: a write to a live handle of a file succeeds exactly if its data ends within the limit of
files.  Then the file holds the data from the offset on and is otherwise what it was, but longer
where that is needed; its size and its times say so, and no other object has changed.  A write that
fails leaves everything as it was. -/
theorem write_puts_data (config : ServerConfig) (handles : HandleTable)
    (hhandles : handles.WellFormed) (store : Memory) (hstore : store.Built)
    (hwrite : store.isReadOnly = false) (hlimit : store.maxFileSize < Memory.allocationLimit)
    (before : List Incoming) (m : Incoming) :
    let s := (start config ⟨store, handles, []⟩).after before
    let s' := (s.take m).2
    let now := m.clock.performed
    ∀ xid args path o data, s.performed? m = some ⟨xid, .nfs .write, args⟩ →
      args.data.length = args.count.toNat → s.backend.StandsFor args.file path o →
      o.contents = .file data →
      let Replies (r : Nfs.Outcome Nfs.WriteResult Nfs.WccData) : Prop :=
        (s.take m).1 = .reply (replyTo xid (.nfs .write) (.results r))
      (args.offset.toNat + args.data.length ≤ store.maxFileSize → ∃ written,
        Memory.Overwrites data args.offset.toNat args.data written ∧
          let o' : Object := { o with
            contents := .file written, size := written.length, modified := now, changed := now }
          let a := o'.metadata.attributesAt path
          s.backend.store.Replaced path.location o' s'.backend.store ∧
            Replies (.ok ⟨⟨some o.metadata.toWcc, some a⟩, args.count, .fileSync,
              config.writeVerifier⟩) ∧
            a.size.toNat = written.length ∧ a.modified = now.toNfs ∧ a.changed = now.toNfs) ∧
      (store.maxFileSize < args.offset.toNat + args.data.length →
        Replies (.failed .tooBig (Nfs.unchangedWcc o path)) ∧ s.backend.Same s'.backend) := by
  intro s s' now xid args path o data hcall hcount hobject hdata Replies
  have hwell : s.backend.handles.WellFormed := (handles_after hhandles before).1
  have hbuilt : s.backend.store.Built := store_after Memory.kept_built hstore before
  have hstorable : s.backend.store.isReadOnly = false :=
    store_after (Memory.kept_isReadOnly false) hwrite before
  have hmax : s.backend.store.maxFileSize = store.maxFileSize :=
    store_after (Memory.kept_maxFileSize _) rfl before
  have hverifier : s.config.writeVerifier = config.writeVerifier :=
    congrArg ServerConfig.writeVerifier (config_after _ before)
  have hrun := Nfs.run_write now hobject hstorable hcount s.config.writeVerifier
  constructor
  · intro hsize
    rw [Memory.write_of_le hobject.find? hdata (by rwa [hmax]) (by rwa [hmax])] at hrun
    obtain ⟨hreply, hbackend⟩ := take_of_run hcall hrun
    have hnew := Memory.overwrites_overwrite data args.offset.toNat args.data
    have hbound : (Memory.overwrite data args.offset.toNat args.data).length < 2 ^ 64 := by
      have hold := (hbuilt.isConsistent hobject.find?).length_le data hdata
      have hlength := hnew.length_eq
      unfold Memory.allocationLimit at hlimit
      omega
    refine ⟨_, hnew, ?_, ?_, UInt64.toNat_ofNat_of_lt' hbound, rfl, rfl⟩
    · rw [show s'.backend = _ from hbackend]
      exact Memory.replaced_modify hobject.find? _
    · rw [← hverifier]
      exact hreply
  · intro hsize
    rw [Memory.write_of_lt (by rwa [hmax])] at hrun
    obtain ⟨hreply, hbackend⟩ := take_of_run hcall hrun
    refine ⟨hreply, ?_⟩
    rw [show s'.backend = _ from hbackend]
    exact Backend.same_resolved hwell args.file

/-- A file of one byte that may grow to ten: bytes put behind a gap, and a byte at an offset that no
file reaches. -/
theorem write_puts_data_gap :
    let config : ServerConfig := ⟨.known, ['/'], Bytes.zeros 8⟩
    let args (offset : UInt64) (count : UInt32) (data : Bytes) : Nfs.WriteArgs :=
      ⟨.serial 2, offset, count, .unstable, data⟩
    let before := [Call.sentAt ⟨5⟩ ⟨7, .mount .mount, [0x2F]⟩,
      Call.sentAt ⟨5⟩ ⟨8, .nfs .create, ⟨⟨.serial 1, [0x66]⟩, .unchecked .empty⟩⟩,
      Call.sentAt ⟨5⟩ ⟨9, .nfs .write, args 0 1 [1]⟩]
    let write (offset : UInt64) (count : UInt32) (data : Bytes) :=
      Call.sentAt ⟨5⟩ ⟨10, .nfs .write, args offset count data⟩
    let store := Memory.empty ⟨0⟩ false 10
    let s := (start config ⟨store, .cached (.empty 4), []⟩).after before
    let path : Path := ⟨[0x2F, 0x66]⟩
    let o : Object := ⟨.file [1], .file, 0o644, 1, ⟨5⟩, ⟨5⟩, ⟨5⟩, 2⟩
    (store.isReadOnly = false ∧ store.maxFileSize < Memory.allocationLimit ∧
        s.performed? (write 3 2 [7, 8]) = some ⟨10, .nfs .write, args 3 2 [7, 8]⟩ ∧
        s.performed? (write (-1) 1 [9]) = some ⟨10, .nfs .write, args (-1) 1 [9]⟩ ∧
        s.backend.StandsFor (.serial 2) path o) ∧
      (∃ written, Memory.Overwrites [1] 3 [7, 8] written ∧
        s.backend.store.Replaced path.location
          { o with
            contents := .file written, size := written.length, modified := ⟨5⟩, changed := ⟨5⟩ }
          (s.take (write 3 2 [7, 8])).2.backend.store) ∧
      (s.take (write (-1) 1 [9])).1 = .reply (replyTo 10 (.nfs .write)
        (.results (.failed .tooBig (Nfs.unchangedWcc o path)))) ∧
      s.backend.Same (s.take (write (-1) 1 [9])).2.backend := by
  intro config args before write store s path o
  have hperformed : s.performed? (write 3 2 [7, 8]) = some ⟨10, .nfs .write, args 3 2 [7, 8]⟩ :=
    performed?_sentAt (by decide +kernel) (by decide +kernel) (by decide +kernel)
  have hperformed' : s.performed? (write (-1) 1 [9]) = some ⟨10, .nfs .write, args (-1) 1 [9]⟩ :=
    performed?_sentAt (by decide +kernel) (by decide +kernel) (by decide +kernel)
  have hobject : s.backend.StandsFor (.serial 2) path o := ⟨by decide +kernel, by decide +kernel⟩
  have hall := write_puts_data config (.cached (.empty 4)) (HandleCache.wellFormed_empty 4 _) store
    (.empty _ _ _) rfl (by decide) before
  have hs : (start config ⟨store, .cached (.empty 4), []⟩).after before = s := rfl
  rw [hs] at hall
  obtain ⟨written, hwritten, hreplaced, -⟩ :=
    (hall (write 3 2 [7, 8]) 10 _ path o [1] hperformed rfl hobject rfl).1 (by decide)
  obtain ⟨hreply, hsame⟩ :=
    (hall (write (-1) 1 [9]) 10 _ path o [1] hperformed' rfl hobject rfl).2 (by decide)
  exact ⟨⟨rfl, by decide, hperformed, hperformed', hobject⟩, ⟨written, hwritten, hreplaced⟩, hreply,
    hsame⟩

end NfsServer.Server
