import Omashu.Lib.Run
import Omashu.Raft.Wal
import Mathlib.Order.Interval.Finset.Nat

/-!
# The Ready loop of a node

The Ready loop of a node (`readyHandler`, `processReady`) saves each Ready to the write-ahead log,
restores a snapshot it has received into Badger, and applies the committed entries. The applied index
is in memory only. After a crash `Storage.Initialize` and `readyHandler` set it to the index of the
newest valid snapshot on the disk, and Badger has what was written to it before the crash.

Every operation that changes the disk is a step of its own, so that a crash can come before and after
each of them. The calls of `takeSnapshotIfNeeded`, which save snapshots of the node itself, run beside
the loop. They may take a snapshot at any time here, which allows more runs than their threshold does.

The model keeps of Badger the set of the indices of the entries whose effect it contains. The entries
are those of the log that the cluster commits, which is a parameter.
-/

namespace Omashu

open Lib

/-- The log that the cluster commits. -/
structure CommittedLog where
  /-- The entry at an index. -/
  entry : ℕ → RaftEntry
  index_entry : ∀ j, (entry j).index = j

/-- An entry that `applyEntries` passes to the store. -/
def RaftEntry.HasEffect (e : RaftEntry) : Prop := e.type = .normal ∧ e.data ≠ []

instance (e : RaftEntry) : Decidable e.HasEffect := inferInstanceAs (Decidable (_ ∧ _))

/-- A store contains the effect of every entry up to an index. -/
def Covers (log : CommittedLog) (store : Finset ℕ) (i : ℕ) : Prop :=
  ∀ j ∈ Finset.Icc 1 i, (log.entry j).HasEffect → j ∈ store

instance (log : CommittedLog) (store : Finset ℕ) (i : ℕ) : Decidable (Covers log store i) :=
  inferInstanceAs (Decidable (∀ j ∈ Finset.Icc 1 i, _))

section Covers

variable {log : CommittedLog} {store store' : Finset ℕ} {i i' : ℕ}

/-- There is no entry at zero. -/
theorem covers_zero : Covers log store 0 := fun j hj => by simp at hj

/-- A store covers what lies below. -/
theorem Covers.of_le (h : Covers log store i) (hi : i' ≤ i) : Covers log store i' :=
  fun j hj => h j (Finset.Icc_subset_Icc_right hi hj)

/-- A larger store covers as much. -/
theorem Covers.of_subset (h : Covers log store i) (hs : store ⊆ store') : Covers log store' i :=
  fun j hj he => hs (h j hj he)

end Covers

/-- `getEntriesToApply`: the committed entries above the applied index, and `none` for the panic on a gap
between the two. -/
def getEntriesToApply (appliedIndex : ℕ) : List RaftEntry → Option (List RaftEntry)
  | [] => some []
  | e :: es =>
    if appliedIndex + 1 < e.index then none
    -- The difference does not wrap here, as the first index is not above `appliedIndex + 1`.
    else if appliedIndex + 1 - e.index < (e :: es).length then
      some ((e :: es).drop (appliedIndex + 1 - e.index))
    else some []

/-- The entries are consecutive entries of the committed log. -/
def Consecutive (log : CommittedLog) (es : List RaftEntry) : Prop :=
  es = (List.range' ((es.head?.map RaftEntry.index).getD 0) es.length).map log.entry

instance (log : CommittedLog) (es : List RaftEntry) : Decidable (Consecutive log es) :=
  inferInstanceAs (Decidable (es = (List.range' _ es.length).map log.entry))

section Entries

variable {log : CommittedLog} {a j : ℕ} {e : RaftEntry} {es es' : List RaftEntry}

/-- The entries to apply are committed entries. -/
theorem mem_of_mem_getEntriesToApply (h : getEntriesToApply a es = some es') (he : e ∈ es') :
    e ∈ es := by
  unfold getEntriesToApply at h
  split at h
  · cases h
    exact he
  · split_ifs at h
    · cases h
      exact List.mem_of_mem_drop he
    · cases h
      exact absurd he List.not_mem_nil

/-- Every entry above the applied index up to one of the entries to apply is one of them. -/
theorem entry_mem_getEntriesToApply (hes : Consecutive log es) (h : getEntriesToApply a es = some es')
    (he : e ∈ es') (ha : a < j) (hj : j ≤ e.index) : log.entry j ∈ es' := by
  unfold getEntriesToApply at h
  split at h
  · cases h
    exact absurd he List.not_mem_nil
  next f fs =>
    split_ifs at h with hgap hlt
    · -- The entries are those from `a + 1` on.
      have hfirst : f.index + (a + 1 - f.index) = a + 1 := by omega
      have hdrop : es' =
          (List.range' (a + 1) ((f :: fs).length - (a + 1 - f.index))).map log.entry := by
        have hes : f :: fs = (List.range' f.index (f :: fs).length).map log.entry := hes
        have hrange : (List.range' f.index (f :: fs).length).drop (a + 1 - f.index) =
            List.range' (a + 1) ((f :: fs).length - (a + 1 - f.index)) := by
          rw [List.drop_range', Nat.mul_one, hfirst]
        rw [← Option.some.inj h, ← hrange, List.map_drop, ← hes]
      rw [hdrop] at he ⊢
      obtain ⟨k, hk, rfl⟩ := List.mem_map.mp he
      rw [log.index_entry] at hj
      have hk := List.mem_range'_1.mp hk
      exact List.mem_map_of_mem (List.mem_range'_1.mpr ⟨ha, by omega⟩)
    · cases h
      exact absurd he List.not_mem_nil

end Entries

/-- `raft.Ready`, as far as the storage and the store are concerned. The data of a snapshot is the set of
the entries whose effect it contains. -/
structure Ready where
  /-- A snapshot from the leader, or the empty one. -/
  snapshot : Snapshot (Finset ℕ)
  /-- The hard state to save, or the empty one. -/
  hardState : HardState
  /-- The entries to save. -/
  entries : List RaftEntry
  /-- The entries to apply. -/
  committedEntries : List RaftEntry
  deriving DecidableEq

/-- The commit index on the disk after a Ready is saved. -/
def Ready.commitAfter (rd : Ready) (commit : ℕ) : ℕ :=
  if rd.hardState = HardState.empty then commit else rd.hardState.commit

/-- What Raft guarantees of a Ready, when the commit index on the disk is the given one. -/
structure Ready.Delivered (log : CommittedLog) (commit : ℕ) (rd : Ready) : Prop where
  /-- The commit index does not decrease. -/
  commit_le : commit ≤ rd.commitAfter commit
  /-- A snapshot is above what is committed, and is committed with it. -/
  snapshot : rd.snapshot.isEmptySnap = false →
    commit < rd.snapshot.index ∧ rd.snapshot.index ≤ rd.commitAfter commit ∧
      Covers log rd.snapshot.data rd.snapshot.index
  /-- The entries to apply are from the committed log. -/
  consecutive : Consecutive log rd.committedEntries
  /-- The entries to apply are committed. -/
  committed : ∀ e ∈ rd.committedEntries, e.index ≤ rd.commitAfter commit

instance (log : CommittedLog) (commit : ℕ) (rd : Ready) : Decidable (rd.Delivered log commit) :=
  decidable_of_iff
    (commit ≤ rd.commitAfter commit ∧
      (rd.snapshot.isEmptySnap = false →
        commit < rd.snapshot.index ∧ rd.snapshot.index ≤ rd.commitAfter commit ∧
          Covers log rd.snapshot.data rd.snapshot.index) ∧
      Consecutive log rd.committedEntries ∧
      ∀ e ∈ rd.committedEntries, e.index ≤ rd.commitAfter commit)
    ⟨fun ⟨h₁, h₂, h₃, h₄⟩ => ⟨h₁, h₂, h₃, h₄⟩, fun ⟨h₁, h₂, h₃, h₄⟩ => ⟨h₁, h₂, h₃, h₄⟩⟩

/-- Where the Ready loop is. -/
inductive LoopPhase
  /-- In the `select` of `readyHandler`. -/
  | idle
  /-- In `processReady`, before `SaveState`. -/
  | saving (rd : Ready)
  /-- The file of the snapshot is written. -/
  | fileSaved (rd : Ready)
  /-- The record of the snapshot is written. -/
  | recordSaved (rd : Ready)
  /-- `SaveState` is through. -/
  | saved (rd : Ready)
  /-- `Restore` has dropped the data of Badger, and loads that of the snapshot. -/
  | dropped (rd : Ready)
  /-- `Restore` is through. -/
  | loaded (rd : Ready)
  /-- `applySnapshotToFSM` is through. -/
  | installed (rd : Ready)
  /-- In `applyEntries`, with the entries that are left and the index of the last one. -/
  | applying (es : List RaftEntry) (last : ℕ)
  deriving DecidableEq

/-- A call of `takeSnapshotIfNeeded`, which runs beside the Ready loop. -/
inductive OwnSnapshot
  /-- It has read the applied index and the configuration. -/
  | read (index : ℕ) (confState : ConfState)
  /-- It has the backup of Badger. -/
  | captured (snap : Snapshot (Finset ℕ))
  /-- It has written the file. -/
  | filed (snap : Snapshot (Finset ℕ))
  deriving DecidableEq

/-- The index of the snapshot. -/
def OwnSnapshot.index : OwnSnapshot → ℕ
  | .read index _ => index
  | .captured snap => snap.index
  | .filed snap => snap.index

/-- A node, with its disk. -/
structure Node where
  /-- The write-ahead log and the snapshot files. -/
  wal : Wal (Finset ℕ)
  /-- The entries whose effect is in Badger. -/
  store : Finset ℕ
  appliedIndex : ℕ
  /-- The Ready loop. -/
  phase : LoopPhase
  /-- The calls of `takeSnapshotIfNeeded`. -/
  pending : List OwnSnapshot
  /-- The Ready loop has returned after an error. -/
  stopped : Bool
  /-- The process runs. -/
  running : Bool

/-- A step of the Ready loop. -/
inductive LoopAction
  /-- Raft delivers a Ready. -/
  | ready (rd : Ready)
  /-- `SaveSnap` writes the file of the snapshot. -/
  | saveFile
  /-- `SaveSnap` writes its record. -/
  | saveRecord
  /-- `SaveState` writes the entries and the hard state. -/
  | saveState
  /-- `Restore` drops all data. -/
  | dropAll
  /-- `Restore` loads some of the data of the snapshot. -/
  | load (part : Finset ℕ)
  /-- `Restore` has loaded all of it. -/
  | loadDone
  /-- `applySnapshotToFSM` sets the applied index. -/
  | setAppliedIndex
  /-- `getEntriesToApply`. -/
  | apply
  /-- `applyEntries` takes the next entry. -/
  | applyEntry
  /-- `applyEntries` sets the applied index. -/
  | finish
  /-- An operation fails, and `readyHandler` returns. -/
  | fail

/-- A step of a call of `takeSnapshotIfNeeded`. -/
inductive OwnAction
  /-- It reads the applied index. -/
  | begin (confState : ConfState)
  /-- `TakeSnapshot` makes a backup of Badger. -/
  | backup (k : ℕ)
  /-- `SaveSnap` writes the file. -/
  | saveFile (k : ℕ)
  /-- `SaveSnap` writes the record. -/
  | saveRecord (k : ℕ)
  /-- It does not need a snapshot, or fails. -/
  | abandon (k : ℕ)

/-- A step of a node. -/
inductive NodeAction
  /-- The Ready loop. -/
  | loop (a : LoopAction)
  /-- A call of `takeSnapshotIfNeeded`. -/
  | own (a : OwnAction)
  /-- The process terminates. -/
  | crash
  /-- The process starts again. -/
  | restart

namespace Node

variable {log : CommittedLog} {s t : Node}

/-- A node before its first start. -/
def fresh : Node := ⟨Wal.empty, ∅, 0, .idle, [], false, true⟩

/-- The disk is what is left of a node. -/
def crash (s : Node) : Node :=
  { s with phase := .idle, pending := [], stopped := false, running := false }

/-- `Storage.Initialize` and `readyHandler`: the applied index is that of the newest valid snapshot. -/
def restart (s : Node) : Node :=
  { s with
    appliedIndex := (s.wal.loadLatestSnapshot.map Snapshot.index).getD 0
    phase := .idle
    running := true }

/-- `SaveState` after the snapshot. -/
def saveState (s : Node) (rd : Ready) : Node :=
  { s with wal := s.wal.write rd.hardState rd.entries, phase := .saved rd }

/-- `processReady` comes to the committed entries. -/
def startApply (s : Node) (rd : Ready) : Node :=
  match getEntriesToApply s.appliedIndex rd.committedEntries with
  | none => s.crash
  | some es =>
    match es.getLast? with
    | none => { s with phase := .idle }
    | some e => { s with phase := .applying es e.index }

/-- `applyEntries` at one entry. -/
def applyEntry (s : Node) (e : RaftEntry) (es : List RaftEntry) (last : ℕ) : Node :=
  match e.type with
  | .normal =>
    -- `applyNormalEntry` skips an entry that is not above the applied index.
    if e.data = [] ∨ e.index ≤ s.appliedIndex then { s with phase := .applying es last }
    else { s with store := insert e.index s.store, phase := .applying es last }
  | .confChange => { s with phase := .applying es last }
  | .confChangeV2 => { s with stopped := true }

/-- A step of the Ready loop. -/
def loopStep (log : CommittedLog) (s : Node) (a : LoopAction) : Option Node :=
  match a, s.phase with
  | .ready rd, .idle =>
    if rd.Delivered log s.wal.commit then some { s with phase := .saving rd } else none
  | .saveFile, .saving rd =>
    if rd.snapshot.isEmptySnap then none
    else some { s with wal := s.wal.writeFile rd.snapshot, phase := .fileSaved rd }
  | .saveRecord, .fileSaved rd =>
    some { s with wal := s.wal.writeRecord rd.snapshot, phase := .recordSaved rd }
  | .saveState, .saving rd => if rd.snapshot.isEmptySnap then some (s.saveState rd) else none
  | .saveState, .recordSaved rd => some (s.saveState rd)
  | .dropAll, .saved rd =>
    if rd.snapshot.isEmptySnap then none
    -- `applySnapshotToFSM` returns an error for a snapshot that is not above the applied index.
    else if rd.snapshot.index ≤ s.appliedIndex then some { s with stopped := true }
    else some { s with store := ∅, phase := .dropped rd }
  | .load part, .dropped rd => some { s with store := s.store ∪ part ∩ rd.snapshot.data }
  | .loadDone, .dropped rd => some { s with store := s.store ∪ rd.snapshot.data, phase := .loaded rd }
  | .setAppliedIndex, .loaded rd =>
    some { s with appliedIndex := rd.snapshot.index, phase := .installed rd }
  | .apply, .saved rd => if rd.snapshot.isEmptySnap then some (s.startApply rd) else none
  | .apply, .installed rd => some (s.startApply rd)
  | .applyEntry, .applying (e :: es) last => some (s.applyEntry e es last)
  | .finish, .applying [] last => some { s with appliedIndex := last, phase := .idle }
  | .fail, _ => some { s with stopped := true }
  | _, _ => none

/-- A step of a call of `takeSnapshotIfNeeded`. -/
def ownStep (log : CommittedLog) (s : Node) : OwnAction → Option Node
  | .begin c => some { s with pending := s.pending ++ [.read s.appliedIndex c] }
  | .backup k =>
    match s.pending[k]? with
    | some (.read i c) =>
      -- The backup is of the store as it is now, which may have more than the index says.
      some { s with pending := s.pending.set k (.captured ⟨i, (log.entry i).term, c, s.store⟩) }
    | _ => none
  | .saveFile k =>
    match s.pending[k]? with
    | some (.captured snap) =>
      some { s with wal := s.wal.writeFile snap, pending := s.pending.set k (.filed snap) }
    | _ => none
  | .saveRecord k =>
    match s.pending[k]? with
    | some (.filed snap) =>
      some { s with wal := s.wal.writeRecord snap, pending := s.pending.eraseIdx k }
    | _ => none
  | .abandon k => some { s with pending := s.pending.eraseIdx k }

/-- A step of a node. -/
def step (log : CommittedLog) (s : Node) : NodeAction → Option Node
  | .loop a => if s.running ∧ ¬s.stopped then s.loopStep log a else none
  | .own a => if s.running then s.ownStep log a else none
  | .crash => if s.running then some s.crash else none
  | .restart => if s.running then none else some s.restart

/-- The store contains the effect of every entry up to the applied index. -/
def Contains (log : CommittedLog) (s : Node) : Prop := Covers log s.store s.appliedIndex

instance : Decidable (s.Contains log) := inferInstanceAs (Decidable (Covers log s.store s.appliedIndex))

end Node

end Omashu
