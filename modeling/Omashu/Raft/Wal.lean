import Omashu.Store.Bytes

/-!
# The write-ahead log and the snapshot files

`Wal` (`wal.go`) keeps the snapshots of a node as files and everything else, hard states, entries and
the announcement of each snapshot, as records of the write-ahead log. `SaveSnap` writes the file first
and the record after it. A restart takes the newest file that has a record, and of the records it
believes only those that are not above the commit index of the last hard state
(`wal.ValidSnapshotEntries`, `Snapshotter.LoadNewestAvailable`).

The operations that can fail are computations on a state, which keep what they did before they failed.
Which operations of the disk fail is a parameter.
-/

namespace Omashu

/-- `raftpb.ConfState`, without joint configurations, which the node does not use. -/
structure ConfState where
  /-- The voting members. -/
  voters : List ℕ
  /-- The members without a vote. -/
  learners : List ℕ
  deriving DecidableEq

/-- `raftpb.Snapshot`, over a type of application states. -/
structure Snapshot (δ : Type) where
  /-- The index of the last entry that the snapshot contains. -/
  index : ℕ
  /-- The term of that entry. -/
  term : ℕ
  /-- The configuration at that entry. -/
  confState : ConfState
  /-- The application state. -/
  data : δ
  deriving DecidableEq

/-- `raftpb.HardState`. -/
structure HardState where
  /-- The current term. -/
  term : ℕ
  /-- The vote in that term. -/
  vote : ℕ
  /-- The commit index. -/
  commit : ℕ
  deriving DecidableEq

/-- The hard state of a node that has not started. -/
def HardState.empty : HardState := ⟨0, 0, 0⟩

/-- `raftpb.EntryType`. -/
inductive EntryType
  /-- A command of the application, or nothing. -/
  | normal
  /-- A change of the configuration. -/
  | confChange
  /-- A change of the configuration in the second format. -/
  | confChangeV2
  deriving DecidableEq

/-- `raftpb.Entry`. -/
structure RaftEntry where
  /-- The position in the log. -/
  index : ℕ
  /-- The term of the leader that appended it. -/
  term : ℕ
  /-- What kind of entry it is. -/
  type : EntryType
  /-- The payload. -/
  data : Bytes
  deriving DecidableEq

/-- A record of the write-ahead log. -/
inductive WalRecord
  | entry (e : RaftEntry)
  /-- A hard state. -/
  | state (st : HardState)
  /-- A snapshot, without its data. -/
  | snapshot (index term : ℕ) (confState : ConfState)
  deriving DecidableEq

/-- An operation of the disk that can fail. -/
inductive DiskOp
  /-- `Snapshotter.SaveSnap`. -/
  | saveSnap
  /-- `WAL.SaveSnapshot`. -/
  | saveSnapshot
  /-- `WAL.Save`. -/
  | save
  /-- `WAL.Sync`. -/
  | sync
  /-- `WAL.ReleaseLockTo`. -/
  | releaseLockTo
  deriving DecidableEq

/-- The errors of the storage. -/
inductive StorageErr
  /-- `raft.ErrCompacted`. -/
  | compacted
  /-- `raft.ErrUnavailable`. -/
  | unavailable
  /-- `raft.ErrSnapOutOfDate`. -/
  | snapOutOfDate
  /-- An operation of the disk has failed. -/
  | disk (op : DiskOp)
  /-- `failed to get term for index %d: %w`. -/
  | failedTerm (index : ℕ) (e : StorageErr)
  /-- `failed to apply snapshot to memory storage: %w`. -/
  | failedApply (e : StorageErr)
  /-- A panic. -/
  | panicked
  deriving DecidableEq

/-- The result of a computation and what follows it, where both succeed. -/
theorem bind_eq_ok_iff {ε σ α β : Type} {x : EStateM ε σ α} {f : α → EStateM ε σ β} {s t : σ} {b : β} :
    (x >>= f) s = .ok b t ↔ ∃ a u, x s = .ok a u ∧ f a u = .ok b t := by
  change EStateM.bind x f s = _ ↔ _
  unfold EStateM.bind
  cases x s with
  | ok | error => simp

namespace Snapshot

variable {δ : Type}

/-- `raft.IsEmptySnap`. -/
def isEmptySnap (snap : Snapshot δ) : Bool := snap.index == 0

/-- The order of the snapshot files: their names are the term and the index. -/
def Before (a b : Snapshot δ) : Prop := a.term < b.term ∨ a.term = b.term ∧ a.index < b.index

instance (a b : Snapshot δ) : Decidable (a.Before b) := inferInstanceAs (Decidable (_ ∨ _))

/-- The last snapshot in the order of the files. -/
def newest : List (Snapshot δ) → Option (Snapshot δ)
  | [] => none
  | a :: l =>
    match newest l with
    | none => some a
    | some b => if b.Before a then some a else some b

/-- The last snapshot is one of them. -/
theorem newest_mem {l : List (Snapshot δ)} {a : Snapshot δ} (h : newest l = some a) : a ∈ l := by
  induction l with
  | nil => simp [newest] at h
  | cons b l ih =>
    unfold newest at h
    split at h
    next => exact List.mem_cons.mpr (.inl (Option.some.inj h).symm)
    next c hc =>
      split_ifs at h
      · exact List.mem_cons.mpr (.inl (Option.some.inj h).symm)
      · exact List.mem_cons_of_mem b (ih (hc.trans h))

/-- The last of some snapshots exists. -/
theorem exists_newest {l : List (Snapshot δ)} {a : Snapshot δ} (h : a ∈ l) : ∃ b, newest l = some b := by
  cases l with
  | nil => exact absurd h List.not_mem_nil
  | cons c l =>
    unfold newest
    split
    next => exact ⟨c, rfl⟩
    next b _ =>
      split_ifs
      · exact ⟨c, rfl⟩
      · exact ⟨b, rfl⟩

/-- The order of the files is linear on their names. -/
theorem Before.trans_of_not {a b c : Snapshot δ} (hab : ¬a.Before b) (hbc : ¬b.Before c) : ¬a.Before c := by
  unfold Before at *
  omega

/-- No snapshot comes after the last one. -/
theorem not_before_of_newest {l : List (Snapshot δ)} {a b : Snapshot δ} (h : newest l = some a)
    (hb : b ∈ l) : ¬a.Before b := by
  induction l generalizing a with
  | nil => exact absurd hb List.not_mem_nil
  | cons c l ih =>
    have hself : ¬c.Before c := by
      unfold Before
      omega
    unfold newest at h
    split at h
    next hnone =>
      -- There is no other one.
      obtain rfl := Option.some.inj h
      rcases List.mem_cons.mp hb with rfl | hb
      · exact hself
      · obtain ⟨d, hd⟩ := exists_newest hb
        rw [hnone] at hd
        cases hd
    next d hd =>
      split_ifs at h with hbefore
      · obtain rfl := Option.some.inj h
        rcases List.mem_cons.mp hb with rfl | hb
        · exact hself
        · refine Before.trans_of_not ?_ (ih hd hb)
          unfold Before at *
          omega
      · obtain rfl := Option.some.inj h
        rcases List.mem_cons.mp hb with rfl | hb
        · exact hbefore
        · exact ih hd hb

end Snapshot

/-- What `Wal` has on the disk. -/
structure Wal (δ : Type) where
  /-- The snapshot files. -/
  snapFiles : List (Snapshot δ)
  /-- The records of the write-ahead log. -/
  records : List WalRecord
  deriving DecidableEq

namespace Wal

variable {δ : Type} {w : Wal δ}

/-- Nothing is on the disk. -/
def empty : Wal δ := ⟨[], []⟩

/-- The files without the one that has the name of the snapshot. -/
def otherFiles (w : Wal δ) (snap : Snapshot δ) : List (Snapshot δ) :=
  w.snapFiles.filter fun f => ¬(f.term = snap.term ∧ f.index = snap.index)

/-- Writes the file of a snapshot. -/
def writeFile (w : Wal δ) (snap : Snapshot δ) : Wal δ :=
  { w with snapFiles := snap :: w.otherFiles snap }

/-- Appends the record of a snapshot. -/
def writeRecord (w : Wal δ) (snap : Snapshot δ) : Wal δ :=
  { w with records := w.records ++ [.snapshot snap.index snap.term snap.confState] }

/-- Appends entries and a hard state, as `WAL.Save` does. An empty hard state is not written. -/
def write (w : Wal δ) (st : HardState) (entries : List RaftEntry) : Wal δ :=
  { w with records :=
      w.records ++ entries.map WalRecord.entry ++ if st = HardState.empty then [] else [.state st] }

/-- Fails if the operation of the disk does, and otherwise changes the disk. -/
def attempt (disk : DiskOp → Bool) (op : DiskOp) (f : Wal δ → Wal δ) :
    EStateM StorageErr (Wal δ) Unit :=
  if disk op then modify f else throw (.disk op)

/-- `Snapshotter.SaveSnap`. It does not write an empty snapshot, and removes the file that it could not
write. -/
def saveFile (disk : DiskOp → Bool) (snap : Snapshot δ) : EStateM StorageErr (Wal δ) Unit :=
  if snap.isEmptySnap then pure ()
  else if disk .saveSnap then modify (·.writeFile snap)
  else do
    modify fun w => { w with snapFiles := w.otherFiles snap }
    throw (.disk .saveSnap)

/-- `Wal.SaveSnap`: the file before the record. -/
def saveSnap (disk : DiskOp → Bool) (snap : Snapshot δ) : EStateM StorageErr (Wal δ) Unit := do
  -- A crash in between leaves a file without a record, which is not loaded.
  saveFile disk snap
  attempt disk .saveSnapshot (·.writeRecord snap)

/-- `Wal.Sync`. What has been written counts as durable, so it changes nothing here. -/
def sync (disk : DiskOp → Bool) : EStateM StorageErr (Wal δ) Unit := attempt disk .sync id

/-- `Wal.Release`, which unlocks files of the log. Their records stay. -/
def release (disk : DiskOp → Bool) (_index : ℕ) : EStateM StorageErr (Wal δ) Unit :=
  attempt disk .releaseLockTo id

/-- The last hard state among records. -/
def lastState (records : List WalRecord) : HardState :=
  records.foldl (fun st r => match r with | .state st' => st' | _ => st) HardState.empty

/-- The commit index of the last hard state on the disk. -/
def commit (w : Wal δ) : ℕ := (lastState w.records).commit

/-- Whether there is a record of a snapshot with the index and the term. -/
def HasRecord (w : Wal δ) (index term : ℕ) : Prop := ∃ c, WalRecord.snapshot index term c ∈ w.records

/-- `wal.ValidSnapshotEntries`: the indices and terms of the snapshots that have a record and are not
above the commit index. -/
def validSnapshotEntries (w : Wal δ) : List (ℕ × ℕ) :=
  (w.records.filterMap fun r => match r with | .snapshot i t _ => some (i, t) | _ => none).filter
    fun e => e.1 ≤ w.commit

/-- `Wal.loadLatestSnapshot`: the newest file that has a valid record. -/
def loadLatestSnapshot (w : Wal δ) : Option (Snapshot δ) :=
  Snapshot.newest (w.snapFiles.filter fun f => (f.index, f.term) ∈ w.validSnapshotEntries)

/-- The valid entries are the records of snapshots that are not above the commit index. -/
theorem mem_validSnapshotEntries {i t : ℕ} :
    (i, t) ∈ w.validSnapshotEntries ↔ w.HasRecord i t ∧ i ≤ w.commit := by
  unfold validSnapshotEntries HasRecord
  rw [List.mem_filter, List.mem_filterMap]
  refine and_congr ⟨?_, ?_⟩ ⟨of_decide_eq_true, decide_eq_true⟩
  · rintro ⟨r, hr, hr'⟩
    split at hr'
    next i t c =>
      obtain ⟨rfl, rfl⟩ := Prod.mk.inj (Option.some.inj hr')
      exact ⟨c, hr⟩
    next => exact absurd hr' (by simp)
  · rintro ⟨c, hc⟩
    exact ⟨_, hc, rfl⟩

/-- Whether a restart may load the file of a snapshot: it has a record, and is not above the commit index. -/
structure Loadable (w : Wal δ) (snap : Snapshot δ) : Prop where
  /-- The file is there. -/
  file : snap ∈ w.snapFiles
  record : w.HasRecord snap.index snap.term
  committed : snap.index ≤ w.commit

/-- The files that a restart chooses from. -/
theorem mem_filter_valid {snap : Snapshot δ} :
    snap ∈ w.snapFiles.filter (fun f => (f.index, f.term) ∈ w.validSnapshotEntries) ↔ w.Loadable snap := by
  rw [List.mem_filter, decide_eq_true_iff, mem_validSnapshotEntries]
  exact ⟨fun ⟨h₁, h₂, h₃⟩ => ⟨h₁, h₂, h₃⟩, fun h => ⟨h.file, h.record, h.committed⟩⟩

/-- The snapshot that a restart loads may be loaded. -/
theorem loadable_of_loadLatestSnapshot {snap : Snapshot δ} (h : w.loadLatestSnapshot = some snap) :
    w.Loadable snap :=
  mem_filter_valid.mp (Snapshot.newest_mem h)

/-- The snapshot that a restart loads has a record, and is not above the commit index. -/
theorem loadLatestSnapshot_spec {snap : Snapshot δ} (h : w.loadLatestSnapshot = some snap) :
    w.HasRecord snap.index snap.term ∧ snap.index ≤ w.commit :=
  ⟨(loadable_of_loadLatestSnapshot h).record, (loadable_of_loadLatestSnapshot h).committed⟩

/-- A snapshot that may be loaded does not come after the one that a restart loads. -/
theorem not_before_of_loadLatestSnapshot {f snap : Snapshot δ} (hf : w.loadLatestSnapshot = some f)
    (h : w.Loadable snap) : ¬f.Before snap :=
  Snapshot.not_before_of_newest hf (mem_filter_valid.mpr h)

/-- A restart that may load a snapshot loads one. -/
theorem Loadable.exists_loadLatestSnapshot {snap : Snapshot δ} (h : w.Loadable snap) :
    ∃ f, w.loadLatestSnapshot = some f ∧ ¬f.Before snap := by
  obtain ⟨f, hf⟩ := Snapshot.exists_newest (mem_filter_valid.mpr h)
  exact ⟨f, hf, not_before_of_loadLatestSnapshot hf h⟩

/-- The records of snapshots after one is written. -/
theorem hasRecord_writeRecord (snap : Snapshot δ) (i t : ℕ) :
    (w.writeRecord snap).HasRecord i t ↔ w.HasRecord i t ∨ i = snap.index ∧ t = snap.term := by
  unfold HasRecord writeRecord
  constructor
  · rintro ⟨c, hc⟩
    rcases List.mem_append.mp hc with hc | hc
    · exact .inl ⟨c, hc⟩
    · obtain ⟨hi, ht, -⟩ := WalRecord.snapshot.inj (List.mem_singleton.mp hc)
      exact .inr ⟨hi, ht⟩
  · rintro (⟨c, hc⟩ | ⟨rfl, rfl⟩)
    · exact ⟨c, List.mem_append_left _ hc⟩
    · exact ⟨snap.confState, List.mem_append_right _ (List.mem_singleton.mpr rfl)⟩

/-- Saving entries and a hard state writes no record of a snapshot. -/
theorem hasRecord_write (st : HardState) (entries : List RaftEntry) (i t : ℕ) :
    (w.write st entries).HasRecord i t ↔ w.HasRecord i t := by
  unfold HasRecord write
  constructor
  · rintro ⟨c, hc⟩
    rcases List.mem_append.mp hc with hc | hc
    · rcases List.mem_append.mp hc with hc | hc
      · exact ⟨c, hc⟩
      · obtain ⟨e, -, he⟩ := List.mem_map.mp hc
        cases he
    · split_ifs at hc
      · exact absurd hc List.not_mem_nil
      · cases List.mem_singleton.mp hc
  · rintro ⟨c, hc⟩
    exact ⟨c, List.mem_append_left _ (List.mem_append_left _ hc)⟩

/-- The commit index after a snapshot is announced is that before. -/
theorem commit_writeRecord (snap : Snapshot δ) : (w.writeRecord snap).commit = w.commit := by
  unfold commit lastState writeRecord
  rw [List.foldl_append]
  rfl

/-- Entries leave the last hard state. -/
theorem lastState_append_entries (records : List WalRecord) (entries : List RaftEntry) :
    lastState (records ++ entries.map WalRecord.entry) = lastState records := by
  induction entries generalizing records with
  | nil => rw [List.map_nil, List.append_nil]
  | cons e entries ih =>
    rw [List.map_cons, List.append_cons, ih]
    unfold lastState
    rw [List.foldl_append]
    rfl

/-- The commit index after a hard state is saved. -/
theorem commit_write (st : HardState) (entries : List RaftEntry) :
    (w.write st entries).commit = if st = HardState.empty then w.commit else st.commit := by
  unfold commit write
  split_ifs with h
  · rw [List.append_nil, lastState_append_entries]
  · unfold lastState
    rw [List.foldl_append]
    rfl

end Wal

end Omashu
