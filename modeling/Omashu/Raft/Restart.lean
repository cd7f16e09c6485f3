import Omashu.Lib.Run
import Omashu.Raft.Recovery

/-!
# The log on the disk and the log in memory

The memory storage and the replay of the write-ahead log cut the log in two different ways. A snapshot that is
newer replaces the whole log in memory. On the disk the entries above its index stay, and a restart replays
them behind the snapshot: they come back if the Ready with the snapshot does not overwrite them. And a restart
takes the newest committed snapshot in the order of the file names, first the term and then the index, while
the memory storage compares indices only.

A run is a sequence of Readys that `SaveState` has saved. After every one of them a restart gives back the log
that is in memory exactly if each of them clears the tail behind its snapshot, brings snapshots in the order of
their terms, and leaves the snapshot in memory committed (`DurableStorage.restart_sameLog_iff`).
-/

namespace Omashu

open Lib

variable {δ : Type}

/-! ## Runs of Readys -/

/-- A Ready as Raft delivers it: a snapshot comes with a hard state that commits it. -/
structure DeliveredReady (δ : Type) extends StorageReady δ where
  /-- The snapshot is committed. -/
  committed : 0 < snapshot.index → snapshot.index ≤ hardState.commit

/-- A Ready that leaves no old entries behind its snapshot: there are none on the disk, or it overwrites
them. -/
def StorageReady.ClearsTail (s : DurableStorage δ) (rd : StorageReady δ) : Prop :=
  s.snapshot.index < rd.snapshot.index →
    (∀ e ∈ loggedEntries s.wal.records, e.index ≤ rd.snapshot.index) ∨
      ∃ e ∈ rd.entries, e.index = rd.snapshot.index + 1

instance (s : DurableStorage δ) (rd : StorageReady δ) : Decidable (rd.ClearsTail s) :=
  inferInstanceAs (Decidable (_ → _ ∨ _))

/-- A Ready after which disk and memory have the same snapshot and the same log. -/
@[mk_iff]
structure StorageReady.Mirrors (s : DurableStorage δ) (rd : StorageReady δ) : Prop where
  /-- A snapshot that is newer than the one in memory has no lower term. -/
  newer : s.snapshot.index < rd.snapshot.index → s.snapshot.term ≤ rd.snapshot.term
  /-- One that is older has no higher term. -/
  older : 0 < rd.snapshot.index → rd.snapshot.index < s.snapshot.index → rd.snapshot.term ≤ s.snapshot.term
  /-- One at the same index is the same. -/
  same : 0 < rd.snapshot.index → rd.snapshot.index = s.snapshot.index →
    rd.snapshot.term = s.snapshot.term ∧ rd.snapshot.confState = s.snapshot.confState
  /-- The snapshot in memory stays committed. -/
  commit : rd.hardState ≠ HardState.empty → s.snapshot.index ≤ rd.hardState.commit
  /-- No old entries are left behind a snapshot. -/
  clearsTail : rd.ClearsTail s

instance (s : DurableStorage δ) (rd : StorageReady δ) : Decidable (rd.Mirrors s) :=
  decidable_of_iff _ (StorageReady.mirrors_iff s rd).symm

namespace DurableStorage

variable {s t : DurableStorage δ} {disk : DiskOp → Bool}

/-- A step of a run: `SaveState` saves a Ready. -/
def deliver (s : DurableStorage δ) (a : (DiskOp → Bool) × DeliveredReady δ) : Option (DurableStorage δ) :=
  s.saveStep (a.1, a.2.toStorageReady)

/-- Two storages with the same snapshot metadata, hard state and log, as far as Raft can see. -/
structure SameLog (s t : DurableStorage δ) : Prop where
  /-- The index of the snapshot is the same. -/
  snapshot_index : t.snapshot.index = s.snapshot.index
  /-- Its term is the same. -/
  snapshot_term : t.snapshot.term = s.snapshot.term
  /-- Its configuration is the same. -/
  snapshot_confState : t.snapshot.confState = s.snapshot.confState
  /-- The hard state is the same. -/
  hardState : t.hardState = s.hardState
  /-- The log begins at the same index. -/
  firstIndex : t.firstIndex = s.firstIndex
  /-- It ends at the same index. -/
  lastIndex : t.lastIndex = s.lastIndex
  /-- The terms are the same at every index. -/
  term : ∀ i, t.term i = s.term i
  /-- The entries are the same, however many are asked for. -/
  entries : ∀ size lo hi maxSize, t.entries size lo hi maxSize = s.entries size lo hi maxSize

/-- A restart succeeds and gives back what is in memory. -/
def Restarts [Inhabited δ] (s : DurableStorage δ) : Prop :=
  ∃ t, initializeStorage s.wal false = .ok t ∧ SameLog s t

/-! ## Disk and memory -/

variable [Inhabited δ] {rd : StorageReady δ}

/-- The disk has what is in memory, and no more: the snapshot in memory is the newest one, and the entries on
the disk make the log in memory. -/
structure Mirrored (d : DurableStorage δ) : Prop where
  /-- The log begins with the record of the empty snapshot. -/
  created : d.wal.HasRecord 0 0
  /-- No record is above the snapshot in memory, and none has its index and another term. -/
  records : ∀ i t, d.wal.HasRecord i t → i ≤ d.snapshot.index ∧ (i = d.snapshot.index → t = d.snapshot.term)
  /-- No file is for the empty snapshot or above the one in memory. -/
  files : ∀ f ∈ d.wal.snapFiles, 0 < f.index ∧ f.index ≤ d.snapshot.index
  /-- An older file comes before in the order of the terms. -/
  older : ∀ f ∈ d.wal.snapFiles, f.index < d.snapshot.index → f.term ≤ d.snapshot.term
  /-- A file at the index of the snapshot in memory is the same. -/
  same : ∀ f ∈ d.wal.snapFiles, f.index = d.snapshot.index →
    f.term = d.snapshot.term ∧ f.confState = d.snapshot.confState
  /-- The snapshot in memory can be loaded. -/
  snapshot : d.snapshot = MemoryStorage.emptySnapshot ∨ ∃ f, f.index = d.snapshot.index ∧ d.wal.Loadable f
  /-- The log in memory begins after it. -/
  offset_eq : d.memStorage.ents.offset = d.snapshot.index
  /-- The dummy entry has its term. -/
  offsetTerm_eq : d.memStorage.offsetTerm = d.snapshot.term
  /-- The hard state is the last one on the disk. -/
  hardState_eq : d.hardState = Wal.lastState d.wal.records
  /-- The entries above the snapshot are the log in memory. -/
  replayed : Suffix.putAll RaftEntry.index ⟨d.snapshot.index, []⟩ (loggedEntries d.wal.records) =
    some d.memStorage.ents

/-- No file has a higher term than the snapshot in memory. -/
theorem Mirrored.term_le {f : Snapshot δ} (h : Mirrored s) (hf : f ∈ s.wal.snapFiles) :
    f.term ≤ s.snapshot.term := by
  rcases Nat.lt_or_eq_of_le (h.files f hf).2 with hlt | heq
  · exact h.older f hf hlt
  · exact (h.same f hf heq).1.le

/-- Nothing is on the disk at the start. -/
theorem mirrored_fresh : Mirrored (fresh : DurableStorage δ) where
  created := ⟨_, List.mem_cons_self⟩
  records i t hi := by
    obtain ⟨c, hc⟩ := hi
    cases List.mem_singleton.mp hc
    exact ⟨le_rfl, fun _ => rfl⟩
  files _ hf := absurd hf List.not_mem_nil
  older _ hf := absurd hf List.not_mem_nil
  same _ hf := absurd hf List.not_mem_nil
  snapshot := .inl rfl
  offset_eq := rfl
  offsetTerm_eq := rfl
  hardState_eq := rfl
  replayed := rfl

/-- The snapshot that a restart loads has the metadata of the one in memory. -/
theorem Mirrored.loadLatestSnapshot (h : Mirrored s) :
    (s.snapshot = MemoryStorage.emptySnapshot ∧ s.wal.loadLatestSnapshot = none) ∨
      ∃ f, s.wal.loadLatestSnapshot = some f ∧ f.index = s.snapshot.index ∧ f.term = s.snapshot.term ∧
        f.confState = s.snapshot.confState := by
  rcases h.snapshot with hempty | ⟨g, hg, hload⟩
  · -- There are no files.
    refine .inl ⟨hempty, Option.eq_none_iff_forall_ne_some.mpr fun f hf => ?_⟩
    obtain ⟨hpos, hle⟩ := h.files f (Wal.loadable_of_loadLatestSnapshot hf).file
    rw [hempty] at hle
    exact absurd hpos (Nat.not_lt.mpr hle)
  · obtain ⟨f, hf, hbefore⟩ := hload.exists_loadLatestSnapshot
    have hfile := (Wal.loadable_of_loadLatestSnapshot hf).file
    have hindex : f.index = s.snapshot.index := by
      by_contra hne
      have hlt : f.index < s.snapshot.index := Nat.lt_of_le_of_ne (h.files f hfile).2 hne
      have hterm := h.term_le hfile
      have hgterm := (h.same g hload.file hg).1
      unfold Snapshot.Before at hbefore
      omega
    exact .inr ⟨f, hf, hindex, h.same f hfile hindex⟩

/-- A restart gives back what is in memory. -/
theorem Mirrored.restarts (h : Mirrored s) : Restarts s := by
  -- The snapshot that is loaded stands for the one in memory.
  have hindex : (s.wal.loadLatestSnapshot.map Snapshot.index).getD 0 = s.snapshot.index ∧
      (s.wal.loadLatestSnapshot.map Snapshot.term).getD 0 = s.snapshot.term := by
    rcases h.loadLatestSnapshot with ⟨hempty, hnone⟩ | ⟨f, hf, hi, ht, -⟩
    · rw [hnone, hempty]
      exact ⟨rfl, rfl⟩
    · rw [hf]
      exact ⟨hi, ht⟩
  obtain ⟨t, ht, -, hst, hsnap, hloaded, hoff, hents⟩ := exists_initializeStorage h.created rfl
    (fun τ hτ => by
      rw [hindex.1] at hτ
      rw [hindex.2]
      exact (h.records _ τ hτ).2 rfl)
    (by rw [hindex.1]; exact h.replayed)
  rw [hindex.1] at hsnap
  have hmeta : t.snapshot.term = s.snapshot.term ∧ t.snapshot.confState = s.snapshot.confState := by
    rcases h.loadLatestSnapshot with ⟨hempty, hnone⟩ | ⟨f, hf, hi, hterm, hconf⟩
    · rcases hloaded with hload | hload
      · rw [hload, hempty]
        exact ⟨rfl, rfl⟩
      · rw [hnone] at hload
        cases hload
    · rcases hloaded with hload | hload
      · -- A snapshot that is loaded is not the empty one.
        have hpos := (h.files f (Wal.loadable_of_loadLatestSnapshot hf).file).1
        rw [hi, ← hsnap, hload] at hpos
        exact absurd hpos (Nat.lt_irrefl 0)
      · obtain rfl : f = t.snapshot := Option.some.inj (hf.symm.trans hload)
        exact ⟨hterm, hconf⟩
  have hoff' : t.memStorage.offsetTerm = s.memStorage.offsetTerm := by
    rw [hoff, hmeta.1, h.offsetTerm_eq]
  refine ⟨t, ht, hsnap, hmeta.1, hmeta.2, hst.trans h.hardState_eq.symm, ?_, ?_, fun i => ?_,
    fun size lo hi maxSize => ?_⟩
  · unfold Storage.firstIndex MemoryStorage.firstIndex
    rw [hents]
  · unfold Storage.lastIndex MemoryStorage.lastIndex
    rw [hents]
  · unfold Storage.term MemoryStorage.term
    rw [hents, hoff']
  · unfold Storage.entries MemoryStorage.entries
    rw [hents]

/-! ## One Ready -/

/-- What `SaveState` makes of the snapshot, the commit index and the log, on the disk and in memory. -/
theorem Mirrored.saveState_spec (h : Mirrored s) (ht : saveState disk rd s = .ok () t) :
    t.wal = s.wal.applyAll rd.ops ∧ t.snapshot = (s.memStorage.install rd.snapshot).snapshot ∧
      t.hardState = Wal.lastState t.wal.records ∧
      (s.memStorage.install rd.snapshot).ents.putAll RaftEntry.index rd.entries = some t.memStorage.ents ∧
      t.memStorage.offsetTerm = (s.memStorage.install rd.snapshot).offsetTerm ∧
      t.wal.commit = (s.hardState.after rd.hardState).commit := by
  obtain ⟨hwal, hst, happend⟩ := saveState_ok ht
  obtain ⟨hsnap, hoffTerm, hents⟩ := MemoryStorage.append_ok happend
  have hlast : t.hardState = Wal.lastState t.wal.records := by
    rw [hwal, Wal.lastState_applyAll, StorageReady.foldl_ops, hst, h.hardState_eq]
  refine ⟨hwal, hsnap, hlast, hents, hoffTerm, ?_⟩
  unfold Wal.commit
  rw [← hlast, hst]

/-- The entries of a Ready replace what a snapshot leaves behind it on the disk. -/
theorem Mirrored.replayed_install (h : Mirrored s) (hclear : rd.ClearsTail s) {ents : Suffix RaftEntry}
    (hents : (s.memStorage.install rd.snapshot).ents.putAll RaftEntry.index rd.entries = some ents) :
    Suffix.putAll RaftEntry.index ⟨(s.memStorage.install rd.snapshot).snapshot.index, []⟩
      (loggedEntries s.wal.records ++ rd.entries) = some ents := by
  rw [Suffix.putAll_append]
  rcases Nat.lt_or_ge s.snapshot.index rd.snapshot.index with hlt | hge
  · obtain ⟨hsnap', -, hents'⟩ := MemoryStorage.install_of_lt (m := s.memStorage) hlt
    rw [hents'] at hents
    rw [hsnap']
    rcases hclear hlt with hold | ⟨e, he, hindex⟩
    · rw [Suffix.putAll_of_le hold]
      exact hents
    · -- What comes back is overwritten from its first index on.
      have hkept : Suffix.Kept ⟨s.snapshot.index, []⟩ (⟨rd.snapshot.index, []⟩ : Suffix RaftEntry) :=
        Suffix.Kept.nil hlt.le
      obtain ⟨tail, htail, -⟩ := hkept.putAll h.replayed
      have hoff : tail.offset = rd.snapshot.index := Suffix.offset_putAll htail
      have hcons : Suffix.Consecutive RaftEntry.index rd.entries := rd.batch.consecutive
      rw [htail, Option.bind_some, Suffix.putAll_of_first hcons he (hoff ▸ hindex), hoff]
      exact hents
  · rw [MemoryStorage.install_of_le hge] at hents ⊢
    exact (congrArg (Option.bind · _) h.replayed).trans hents

/-- A newer snapshot leaves disk and memory the same. -/
theorem Mirrored.saveState_newer (h : Mirrored s) (hmirrors : rd.Mirrors s)
    (hcommitted : 0 < rd.snapshot.index → rd.snapshot.index ≤ rd.hardState.commit)
    (ht : saveState disk rd s = .ok () t) (hlt : s.snapshot.index < rd.snapshot.index) : Mirrored t := by
  obtain ⟨hwal, hsnap, hst, hents, hoffTerm, hcommit⟩ := h.saveState_spec ht
  obtain ⟨hsnap', hterm', hents'⟩ := MemoryStorage.install_of_lt (m := s.memStorage) hlt
  have hpos : 0 < rd.snapshot.index := Nat.zero_lt_of_lt hlt
  have hreplayed := h.replayed_install hmirrors.clearsTail hents
  have hoff := Suffix.offset_putAll hents
  rw [hsnap'] at hsnap hreplayed
  rw [hents'] at hoff
  refine
    { created := hwal ▸ Wal.hasRecord_applyAll.mpr (.inl h.created)
      records := ?_
      files := ?_
      older := ?_
      same := ?_
      snapshot := ?_
      offset_eq := by rw [hoff, hsnap]
      offsetTerm_eq := by rw [hoffTerm, hterm', hsnap]
      hardState_eq := hst
      replayed := ?_ }
  · intro i τ hi
    rw [hwal] at hi
    rw [hsnap]
    rcases StorageReady.hasRecord_ops hi with hold | ⟨-, rfl, rfl⟩
    · have hle := (h.records i τ hold).1
      exact ⟨hle.trans hlt.le, fun heq => absurd hlt (Nat.not_lt.mpr (heq ▸ hle))⟩
    · exact ⟨le_rfl, fun _ => rfl⟩
  · intro f hf
    rw [hwal] at hf
    rw [hsnap]
    rcases StorageReady.mem_snapFiles_ops hf with hold | ⟨-, rfl⟩
    · exact ⟨(h.files f hold).1, (h.files f hold).2.trans hlt.le⟩
    · exact ⟨hpos, le_rfl⟩
  · intro f hf hindex
    rw [hwal] at hf
    rw [hsnap] at hindex ⊢
    rcases StorageReady.mem_snapFiles_ops hf with hold | ⟨-, rfl⟩
    · exact (h.term_le hold).trans (hmirrors.newer hlt)
    · exact absurd hindex (Nat.lt_irrefl _)
  · intro f hf hindex
    rw [hwal] at hf
    rw [hsnap] at hindex ⊢
    rcases StorageReady.mem_snapFiles_ops hf with hold | ⟨-, rfl⟩
    · exact absurd hlt (Nat.not_lt.mpr (hindex ▸ (h.files f hold).2))
    · exact ⟨rfl, rfl⟩
  · refine .inr ⟨rd.snapshot, by rw [hsnap], ?_⟩
    rw [hwal] at hcommit ⊢
    refine StorageReady.loadable_ops s.wal hpos ?_
    rw [hcommit, HardState.commit_after _ hpos (hcommitted hpos)]
    exact hcommitted hpos
  · rw [hsnap, hwal, Wal.loggedEntries_applyAll, StorageReady.loggedEntries_ops]
    exact hreplayed

/-- After a Ready without a newer snapshot, the one in memory can still be loaded, from its own file or from
the one of the Ready. -/
theorem Mirrored.exists_loadable_ops {f : Snapshot δ} (h : Mirrored s) (hmirrors : rd.Mirrors s)
    (hcommit : (s.wal.applyAll rd.ops).commit = (s.hardState.after rd.hardState).commit)
    (hindex : f.index = s.snapshot.index) (hload : s.wal.Loadable f) :
    ∃ g, g.index = s.snapshot.index ∧ (s.wal.applyAll rd.ops).Loadable g := by
  -- The snapshot in memory is still committed.
  have hcommitted : s.snapshot.index ≤ (s.wal.applyAll rd.ops).commit := by
    rw [hcommit]
    unfold HardState.after
    split_ifs with hempty
    · rw [h.hardState_eq, ← hindex]
      exact hload.committed
    · exact hmirrors.commit hempty
  by_cases hsame : 0 < rd.snapshot.index ∧ rd.snapshot.index = s.snapshot.index
  · exact ⟨rd.snapshot, hsame.2, StorageReady.loadable_ops s.wal hsame.1 (hsame.2 ▸ hcommitted)⟩
  · refine ⟨f, hindex, StorageReady.loadable_of_ne hload (fun hpos heq => ?_) (hindex ▸ hcommitted)⟩
    exact hsame ⟨hpos, heq.trans hindex⟩

/-- A Ready without a newer snapshot leaves disk and memory the same. -/
theorem Mirrored.saveState_not_newer (h : Mirrored s) (hmirrors : rd.Mirrors s)
    (ht : saveState disk rd s = .ok () t) (hge : rd.snapshot.index ≤ s.snapshot.index) : Mirrored t := by
  obtain ⟨hwal, hsnap, hst, hents, hoffTerm, hcommit⟩ := h.saveState_spec ht
  have hreplayed := h.replayed_install hmirrors.clearsTail hents
  have hoff := Suffix.offset_putAll hents
  rw [MemoryStorage.install_of_le hge] at hsnap hoff hoffTerm hreplayed
  have hsnap : t.snapshot = s.snapshot := hsnap
  refine
    { created := hwal ▸ Wal.hasRecord_applyAll.mpr (.inl h.created)
      records := ?_
      files := ?_
      older := ?_
      same := ?_
      snapshot := ?_
      offset_eq := by rw [hoff, h.offset_eq, hsnap]
      offsetTerm_eq := by rw [hoffTerm, h.offsetTerm_eq, hsnap]
      hardState_eq := hst
      replayed := ?_ }
  · intro i τ hi
    rw [hwal] at hi
    rw [hsnap]
    rcases StorageReady.hasRecord_ops hi with hold | ⟨hpos, rfl, rfl⟩
    · exact h.records i τ hold
    · exact ⟨hge, fun heq => (hmirrors.same hpos heq).1⟩
  · intro f hf
    rw [hwal] at hf
    rw [hsnap]
    rcases StorageReady.mem_snapFiles_ops hf with hold | ⟨hpos, rfl⟩
    · exact h.files f hold
    · exact ⟨hpos, hge⟩
  · intro f hf hindex
    rw [hwal] at hf
    rw [hsnap] at hindex ⊢
    rcases StorageReady.mem_snapFiles_ops hf with hold | ⟨hpos, rfl⟩
    · exact h.older f hold hindex
    · exact hmirrors.older hpos hindex
  · intro f hf hindex
    rw [hwal] at hf
    rw [hsnap] at hindex ⊢
    rcases StorageReady.mem_snapFiles_ops hf with hold | ⟨hpos, rfl⟩
    · exact h.same f hold hindex
    · exact hmirrors.same hpos hindex
  · rw [hsnap, hwal]
    exact h.snapshot.imp_right fun ⟨f, hindex, hload⟩ =>
      h.exists_loadable_ops hmirrors (hwal ▸ hcommit) hindex hload
  · rw [hsnap, hwal, Wal.loggedEntries_applyAll, StorageReady.loggedEntries_ops]
    exact hreplayed

/-! ## A Ready that makes a difference -/

/-- Where a restart gives back what is in memory, it has loaded the snapshot with the metadata of the one in
memory, and no record has its index and another term. -/
theorem Restarts.exists_loaded (h : Restarts t) (hcreated : t.wal.HasRecord 0 0)
    (hpos : 0 < t.snapshot.index) :
    ∃ f, t.wal.loadLatestSnapshot = some f ∧ f.index = t.snapshot.index ∧ f.term = t.snapshot.term ∧
      f.confState = t.snapshot.confState ∧
      ∀ τ, t.wal.HasRecord t.snapshot.index τ → τ = t.snapshot.term := by
  obtain ⟨u, hu, hsame⟩ := h
  obtain ⟨-, hloaded, hterm, -⟩ := initializeStorage_ok hcreated hu
  rcases hloaded with hempty | hload
  · rw [← hsame.snapshot_index, hempty] at hpos
    exact absurd hpos (Nat.lt_irrefl 0)
  · rw [hload] at hterm
    refine ⟨u.snapshot, hload, hsame.snapshot_index, hsame.snapshot_term, hsame.snapshot_confState, ?_⟩
    intro τ hτ
    rw [← hsame.snapshot_term]
    refine hterm τ ?_
    rw [Option.map_some, Option.getD_some, hsame.snapshot_index]
    exact hτ

/-- Where a restart gives back what is in memory, the entries on the disk end where those in memory do. -/
theorem Restarts.exists_replayed (h : Restarts t) (hcreated : t.wal.HasRecord 0 0) :
    ∃ ents, Suffix.putAll RaftEntry.index ⟨t.snapshot.index, []⟩ (loggedEntries t.wal.records) = some ents ∧
      ents.last = t.lastIndex := by
  obtain ⟨u, hu, hsame⟩ := h
  obtain ⟨hindex, -, -, hents⟩ := initializeStorage_ok hcreated hu
  rw [← hindex, hsame.snapshot_index] at hents
  exact ⟨_, hents, hsame.lastIndex⟩

/-- After a Ready that leaves old entries behind its snapshot, a restart does not give back the log. -/
theorem Mirrored.clearsTail_of_restarts (h : Mirrored s) (ht : saveState disk rd s = .ok () t)
    (hrestarts : Restarts t) : rd.ClearsTail s := by
  intro hlt
  obtain ⟨hwal, hsnap, -, hents, -⟩ := h.saveState_spec ht
  obtain ⟨hsnap', -, hents'⟩ := MemoryStorage.install_of_lt (m := s.memStorage) hlt
  rw [hsnap'] at hsnap
  rw [hents'] at hents
  obtain ⟨ents, hreplayed, hlast⟩ :=
    hrestarts.exists_replayed (hwal ▸ Wal.hasRecord_applyAll.mpr (.inl h.created))
  rw [hsnap, hwal, Wal.loggedEntries_applyAll, StorageReady.loggedEntries_ops] at hreplayed
  by_contra hnot
  obtain ⟨hold, hnew⟩ := not_or.mp hnot
  push Not at hold hnew
  obtain ⟨e, he, hindex⟩ := hold
  -- In memory nothing follows the snapshot, and on the disk something does.
  have hempty := Suffix.putAll_nil_of_ne hents hnew
  have hfull := Suffix.offset_lt_last_putAll hreplayed (.inr ⟨e, List.mem_append_left _ he, hindex⟩)
  have hlastIndex : t.lastIndex = rd.snapshot.index := by
    unfold Storage.lastIndex MemoryStorage.lastIndex
    rw [hempty]
    rfl
  rw [Suffix.offset_putAll hreplayed, hlast, hlastIndex] at hfull
  exact absurd hfull (Nat.lt_irrefl _)

/-- After a newer snapshot with a lower term, a restart loads the old one. -/
theorem Mirrored.newer_of_restarts (h : Mirrored s)
    (hcommitted : 0 < rd.snapshot.index → rd.snapshot.index ≤ rd.hardState.commit)
    (ht : saveState disk rd s = .ok () t) (hrestarts : Restarts t)
    (hlt : s.snapshot.index < rd.snapshot.index) : s.snapshot.term ≤ rd.snapshot.term := by
  obtain ⟨hwal, hsnap, -, -, -, hcommit⟩ := h.saveState_spec ht
  have hpos : 0 < rd.snapshot.index := Nat.zero_lt_of_lt hlt
  rw [(MemoryStorage.install_of_lt (m := s.memStorage) hlt).1] at hsnap
  rw [HardState.commit_after _ hpos (hcommitted hpos), hwal] at hcommit
  obtain ⟨f, hf, -, hterm, -⟩ := hrestarts.exists_loaded
    (hwal ▸ Wal.hasRecord_applyAll.mpr (.inl h.created)) (hsnap ▸ hpos)
  rw [hsnap] at hterm
  rw [hwal] at hf
  rcases h.snapshot with hempty | ⟨g, hg, hload⟩
  · rw [hempty]
    exact Nat.zero_le _
  · -- The old snapshot can still be loaded, so it does not come after the new one.
    have hne : 0 < rd.snapshot.index → rd.snapshot.index ≠ g.index := fun _ => hg ▸ hlt.ne'
    have hload' := StorageReady.loadable_of_ne hload hne
      (by rw [hcommit, hg]; exact hlt.le.trans (hcommitted hpos))
    have hbefore := Wal.not_before_of_loadLatestSnapshot hf hload'
    have hgterm := (h.same g hload.file hg).1
    unfold Snapshot.Before at hbefore
    omega

/-- After an older snapshot with a higher term, a restart loads that one. -/
theorem Mirrored.older_of_restarts (h : Mirrored s)
    (hcommitted : 0 < rd.snapshot.index → rd.snapshot.index ≤ rd.hardState.commit)
    (ht : saveState disk rd s = .ok () t) (hrestarts : Restarts t) (hpos : 0 < rd.snapshot.index)
    (hlt : rd.snapshot.index < s.snapshot.index) : rd.snapshot.term ≤ s.snapshot.term := by
  obtain ⟨hwal, hsnap, -, -, -, hcommit⟩ := h.saveState_spec ht
  rw [MemoryStorage.install_of_le hlt.le] at hsnap
  have hsnap : t.snapshot = s.snapshot := hsnap
  rw [HardState.commit_after _ hpos (hcommitted hpos), hwal] at hcommit
  obtain ⟨f, hf, -, hterm, -⟩ := hrestarts.exists_loaded
    (hwal ▸ Wal.hasRecord_applyAll.mpr (.inl h.created)) (hsnap ▸ Nat.zero_lt_of_lt hlt)
  rw [hsnap] at hterm
  rw [hwal] at hf
  have hload := StorageReady.loadable_ops s.wal hpos (by rw [hcommit]; exact hcommitted hpos)
  have hbefore := Wal.not_before_of_loadLatestSnapshot hf hload
  unfold Snapshot.Before at hbefore
  omega

/-- After a snapshot at the index of the one in memory with another term, a restart fails. With the same term and
another configuration it loads the new one. -/
theorem Mirrored.same_of_restarts (h : Mirrored s) (ht : saveState disk rd s = .ok () t)
    (hrestarts : Restarts t) (hpos : 0 < rd.snapshot.index) (heq : rd.snapshot.index = s.snapshot.index) :
    rd.snapshot.term = s.snapshot.term ∧ rd.snapshot.confState = s.snapshot.confState := by
  obtain ⟨hwal, hsnap, -⟩ := h.saveState_spec ht
  rw [MemoryStorage.install_of_le heq.le] at hsnap
  have hsnap : t.snapshot = s.snapshot := hsnap
  have hempty : rd.snapshot.isEmptySnap = false := decide_eq_false (Nat.ne_of_gt hpos)
  obtain ⟨f, hf, hindex, hterm, hconf, hrecords⟩ := hrestarts.exists_loaded
    (hwal ▸ Wal.hasRecord_applyAll.mpr (.inl h.created)) (by rw [hsnap, ← heq]; exact hpos)
  rw [hsnap] at hindex hterm hconf hrecords
  have hterm' : rd.snapshot.term = s.snapshot.term := by
    refine hrecords _ ?_
    rw [hwal, ← heq]
    exact Wal.hasRecord_applyAll.mpr
      (.inr ⟨_, StorageReady.snapshot_mem_ops.mpr ⟨hempty, rfl, rfl, rfl⟩⟩)
  -- The file of the Ready has replaced the other one.
  have hfile := (Wal.loadable_of_loadLatestSnapshot hf).file
  rw [hwal, StorageReady.snapFiles_ops hempty] at hfile
  refine ⟨hterm', ?_⟩
  rcases List.mem_cons.mp hfile with rfl | hother
  · exact hconf
  · have hname := of_decide_eq_true (List.mem_filter.mp hother).2
    exact absurd ⟨hterm.trans hterm'.symm, hindex.trans heq.symm⟩ hname

/-- After a hard state that does not commit the snapshot in memory, a restart does not load it. -/
theorem Mirrored.commit_of_restarts (h : Mirrored s) (ht : saveState disk rd s = .ok () t)
    (hrestarts : Restarts t) (hne : rd.hardState ≠ HardState.empty) :
    s.snapshot.index ≤ rd.hardState.commit := by
  obtain ⟨hwal, hsnap, -, -, -, hcommit⟩ := h.saveState_spec ht
  have hle : s.snapshot.index ≤ t.snapshot.index := by
    rw [hsnap]
    rcases Nat.lt_or_ge s.snapshot.index rd.snapshot.index with hlt | hge
    · rw [(MemoryStorage.install_of_lt (m := s.memStorage) hlt).1]
      exact hlt.le
    · rw [MemoryStorage.install_of_le hge]
      exact le_rfl
  rcases Nat.eq_zero_or_pos t.snapshot.index with hzero | hpos
  · rw [hzero] at hle
    exact hle.trans (Nat.zero_le _)
  · obtain ⟨f, hf, hindex, -⟩ :=
      hrestarts.exists_loaded (hwal ▸ Wal.hasRecord_applyAll.mpr (.inl h.created)) hpos
    have hfc := (Wal.loadable_of_loadLatestSnapshot hf).committed
    unfold HardState.after at hcommit
    rw [hindex, hcommit, if_neg hne] at hfc
    exact hle.trans hfc

/-- A Ready after which a restart gives back what is in memory leaves disk and memory the same. -/
theorem Mirrored.mirrors_of_restarts (h : Mirrored s)
    (hcommitted : 0 < rd.snapshot.index → rd.snapshot.index ≤ rd.hardState.commit)
    (ht : saveState disk rd s = .ok () t) (hrestarts : Restarts t) : rd.Mirrors s where
  newer := h.newer_of_restarts hcommitted ht hrestarts
  older := h.older_of_restarts hcommitted ht hrestarts
  same := h.same_of_restarts ht hrestarts
  commit := h.commit_of_restarts ht hrestarts
  clearsTail := h.clearsTail_of_restarts ht hrestarts

/-! ## Whole runs -/

/-- After every Ready of a run a restart succeeds and gives back the snapshot metadata, the hard state and the
log that are in memory, exactly if every Ready leaves disk and memory the same. -/
theorem restart_sameLog_iff {readys : List ((DiskOp → Bool) × DeliveredReady δ)}
    (h : run deliver fresh readys = some t) :
    (∀ u, Passes deliver fresh readys u → Restarts u) ↔
      Along deliver (fun s a => a.2.toStorageReady.Mirrors s) fresh readys := by
  rw [← forall_passes_iff_along (I := Mirrored) (B := fun u => ¬Restarts u) ?_ ?_ ?_ mirrored_fresh h]
  · simp only [not_not]
  · rintro s ⟨disk, rd⟩ t hs hmirrors ht
    have hsave := saveStep_eq_some ht
    rcases Nat.lt_or_ge s.snapshot.index rd.snapshot.index with hlt | hge
    · exact hs.saveState_newer hmirrors rd.committed hsave hlt
    · exact hs.saveState_not_newer hmirrors hsave hge
  · rintro s ⟨disk, rd⟩ t hs hnot ht hrestarts
    exact hnot (hs.mirrors_of_restarts rd.committed (saveStep_eq_some ht) hrestarts)
  · intro s hs hnot
    exact hnot hs.restarts

/-- Readys with an overwritten tail, a snapshot beyond the log, and one inside it whose entries replace those
above. -/
def mirroredReadys : List ((DiskOp → Bool) × DeliveredReady Unit) :=
  [(fun _ => true, ⟨.appendReady 1 3 1 1, nofun⟩), (fun _ => true, ⟨.appendReady 3 2 2 2, nofun⟩),
    (fun _ => true, ⟨.snapshotReady 6 2 3, fun _ => le_rfl⟩),
    (fun _ => true, ⟨.snapshotReady 8 3 1, fun _ => le_rfl⟩)]

/-- `SaveState` saves them. -/
theorem restart_sameLog_iff_mirroredReadys :
    ∃ t, run deliver fresh mirroredReadys = some t ∧
      ∀ u, Passes deliver fresh mirroredReadys u → Restarts u :=
  ⟨_, rfl, (restart_sameLog_iff rfl).mpr (by decide)⟩

/-- A snapshot inside a log of five entries: in memory the log ends with it, and after a restart the two
entries above it are back. -/
theorem restart_brings_back_tail :
    ∃ s t : DurableStorage Unit,
      run deliver fresh [(fun _ => true, ⟨.appendReady 1 5 1 0, nofun⟩),
        (fun _ => true, ⟨.snapshotReady 3 2 0, fun _ => le_rfl⟩)] = some s ∧
      initializeStorage s.wal false = .ok t ∧ s.lastIndex = 3 ∧ t.lastIndex = 5 ∧ t.term 5 = .ok 1 ∧
      ¬Restarts s := by
  refine ⟨_, _, rfl, rfl, rfl, rfl, rfl, fun ⟨u, hu, hsame⟩ => ?_⟩
  cases hu
  have hlast : 5 = 3 := hsame.lastIndex
  exact absurd hlast (by decide)

end DurableStorage

end Omashu
