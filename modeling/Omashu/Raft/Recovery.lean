import Omashu.Lib.Lift
import Omashu.Raft.SaveState

/-!
# Reading the state back

`Initialize` (`storage.go`) reads the disk after a restart. It loads the newest snapshot that has a valid
record, and replays the records of the write-ahead log above its index (`WAL.ReadAll`): an entry replaces what
there is from its index on, one at or below the index is passed over, and one that leaves a gap is an error. A
last record that is not complete is an error as well.

Where the terms of the snapshots on the disk increase with their indices, one of them can be loaded and the
entries above it leave no gap, a restart succeeds, and what it reads is told by the records
(`DurableStorage.exists_restarted`). The log is one file here: `WAL.cut`, which begins a new one after 64 MB,
is left out.
-/

namespace Omashu

open Lib

variable {δ : Type}

/-! ## Replaying the log -/

/-- The errors of `WAL.ReadAll`. -/
inductive WalErr
  /-- `wal.ErrSliceOutOfRange`. -/
  | sliceOutOfRange
  /-- `wal.ErrSnapshotMismatch`. -/
  | snapshotMismatch
  /-- `io.ErrUnexpectedEOF`. -/
  | unexpectedEOF
  deriving DecidableEq

/-- What `WAL.ReadAll` has read. -/
structure Replay where
  /-- The last hard state. -/
  state : HardState
  /-- The entries above the index of the snapshot. -/
  ents : Suffix RaftEntry
  /-- An entry has the index of its position. -/
  index_ents : ents.Numbered RaftEntry.index

namespace Replay

/-- Nothing has been read, and the log begins after an index. -/
def start (index : ℕ) : Replay where
  state := HardState.empty
  ents := ⟨index, []⟩
  index_ents := by
    intro j e h
    simp [Suffix.get?] at h

/-- Reads one record, for a snapshot with a term. -/
def read (term : ℕ) (r : Replay) : WalRecord → Except WalErr Replay
  | .entry e =>
    if hi : e.index ≤ r.ents.offset then .ok r
    else if hl : r.ents.last + 1 < e.index then .error .sliceOutOfRange
    else .ok
      { r with
        ents := r.ents.splice e.index [e]
        index_ents := r.index_ents.splice (Nat.lt_of_not_le hi) (Nat.le_of_not_lt hl) (by
          intro k a ha
          obtain ⟨rfl, rfl⟩ : k = 0 ∧ e = a := by
            rcases k with _ | k
            · simpa using ha
            · simp at ha
          rfl) }
  | .state st => .ok { r with state := st }
  -- Whether the snapshot is found at all does not matter: `ErrSnapshotNotFound` is overwritten.
  | .snapshot i t _ => if i = r.ents.offset ∧ t ≠ term then .error .snapshotMismatch else .ok r

/-- Reads records one after the other. -/
def readAll (term : ℕ) (r : Replay) : List WalRecord → Except WalErr Replay
  | [] => .ok r
  | x :: xs => do
    let r ← r.read term x
    readAll term r xs

/-- The entries as they are appended to the memory storage. -/
def batch (r : Replay) : EntryBatch := ⟨r.ents.items, r.index_ents.consecutive⟩

variable {term : ℕ} {r : Replay}

/-- An entry that leaves no gap is read. -/
theorem exists_read_entry (term : ℕ) {e : RaftEntry} {ents : Suffix RaftEntry}
    (h : r.ents.put e.index e = some ents) :
    ∃ r', r.read term (.entry e) = .ok r' ∧ r'.ents = ents ∧ r'.state = r.state := by
  unfold read
  dsimp only
  rcases Suffix.put_eq_some_iff.mp h with ⟨hi, rfl⟩ | ⟨hi, hl, rfl⟩
  · exact ⟨r, dif_pos hi, rfl, rfl⟩
  · rw [dif_neg (Nat.not_le.mpr hi), dif_neg (Nat.not_lt.mpr hl)]
    exact ⟨_, rfl, rfl, rfl⟩

/-- Records are read if the entries leave no gap and the snapshot has no record with another term. The entries
are written one after the other, and the last hard state counts. -/
theorem exists_readAll {records : List WalRecord} {ents : Suffix RaftEntry}
    (hterm : ∀ t c, WalRecord.snapshot r.ents.offset t c ∈ records → t = term)
    (h : r.ents.putAll RaftEntry.index (loggedEntries records) = some ents) :
    ∃ r', r.readAll term records = .ok r' ∧ r'.ents = ents ∧
      r'.state = records.foldl WalRecord.stateAfter r.state := by
  induction records generalizing r with
  | nil => exact ⟨r, rfl, Option.some.inj h, rfl⟩
  | cons x xs ih =>
    have htail : ∀ t c, WalRecord.snapshot r.ents.offset t c ∈ xs → t = term :=
      fun t c hc => hterm t c (List.mem_cons_of_mem x hc)
    cases x with
    | entry e =>
      obtain ⟨ents₁, hput, h'⟩ := Option.bind_eq_some_iff.mp h
      obtain ⟨r₁, hr₁, rfl, hst⟩ := exists_read_entry term hput
      rw [← Suffix.offset_put hput] at htail
      obtain ⟨r', hr', hents, hst'⟩ := ih htail h'
      refine ⟨r', ?_, hents, ?_⟩
      · rw [readAll, hr₁]
        exact hr'
      · rw [hst', hst]
        rfl
    | state st =>
      have h' : Suffix.putAll RaftEntry.index r.ents (loggedEntries xs) = some ents := h
      obtain ⟨r', hr', hents, hst⟩ := ih (r := { r with state := st }) htail h'
      exact ⟨r', hr', hents, hst⟩
    | snapshot i t c =>
      have h' : Suffix.putAll RaftEntry.index r.ents (loggedEntries xs) = some ents := h
      obtain ⟨r', hr', hents, hst⟩ := ih htail h'
      have hread : r.read term (.snapshot i t c) = .ok r := by
        refine if_neg ?_
        rintro ⟨rfl, hne⟩
        exact hne (hterm t c List.mem_cons_self)
      refine ⟨r', ?_, hents, hst⟩
      rw [readAll, hread]
      exact hr'

/-- An entry that is read leaves no gap. -/
theorem read_entry_ok {e : RaftEntry} {r' : Replay} (h : r.read term (.entry e) = .ok r') :
    r.ents.put e.index e = some r'.ents := by
  unfold read at h
  dsimp only at h
  split_ifs at h with hi hl
  · obtain rfl := Except.ok.inj h
    exact Suffix.put_of_le hi
  · obtain rfl := Except.ok.inj h
    exact Suffix.put_of_lt (Nat.lt_of_not_le hi) (Nat.le_of_not_lt hl)

/-- Records that are read leave no gap, and the snapshot has no record with another term. -/
theorem readAll_ok {records : List WalRecord} {r' : Replay} (h : r.readAll term records = .ok r') :
    (∀ t c, WalRecord.snapshot r.ents.offset t c ∈ records → t = term) ∧
      r.ents.putAll RaftEntry.index (loggedEntries records) = some r'.ents := by
  induction records generalizing r with
  | nil =>
    obtain rfl := Except.ok.inj h
    exact ⟨fun _ _ hc => absurd hc List.not_mem_nil, rfl⟩
  | cons x xs ih =>
    obtain ⟨r₁, hr₁, hr'⟩ := bind_eq_ok h
    obtain ⟨hterm, hents⟩ := ih hr'
    cases x with
    | entry e =>
      have hput := read_entry_ok hr₁
      rw [Suffix.offset_put hput] at hterm
      refine ⟨fun t c hc => hterm t c ((List.mem_cons.mp hc).resolve_left (by simp)), ?_⟩
      change (r.ents.put e.index e).bind _ = _
      rw [hput]
      exact hents
    | state st =>
      obtain rfl := Except.ok.inj hr₁
      exact ⟨fun t c hc => hterm t c ((List.mem_cons.mp hc).resolve_left (by simp)), hents⟩
    | snapshot i t c =>
      unfold read at hr₁
      dsimp only at hr₁
      split_ifs at hr₁ with hmismatch
      obtain rfl := Except.ok.inj hr₁
      refine ⟨fun t' c' hc => ?_, hents⟩
      rcases List.mem_cons.mp hc with heq | hc
      · obtain ⟨hi, rfl, -⟩ := WalRecord.snapshot.inj heq
        by_contra hne
        exact hmismatch ⟨hi.symm, hne⟩
      · exact hterm t' c' hc

end Replay

namespace Wal

variable {w : Wal δ}

/-- The log that `openWAL` opens: one that does not exist is created first, with a record of the empty
snapshot. -/
def openWAL (w : Wal δ) : Wal δ := if w.records = [] then w.appendRecord (.snapshot 0 0 ⟨[], []⟩) else w

/-- A log that exists is opened as it is. -/
theorem openWAL_eq (hcreated : w.HasRecord 0 0) : w.openWAL = w := by
  obtain ⟨c, hc⟩ := hcreated
  exact if_neg (List.ne_nil_of_mem hc)

/-- `Wal.Open`: the newest snapshot, and what is replayed above it. After the records that are complete the
log may have one that is not. -/
def openReadAll (w : Wal δ) (torn : Bool) : Except WalErr (Option (Snapshot δ) × Replay) := do
  let snapshot := w.loadLatestSnapshot
  let index := (snapshot.map Snapshot.index).getD 0
  let term := (snapshot.map Snapshot.term).getD 0
  let r ← Replay.readAll term (Replay.start index) w.openWAL.records
  if torn then .error .unexpectedEOF else .ok (snapshot, r)

end Wal

/-! ## `Initialize` -/

/-- The errors of `Storage.Initialize`. -/
inductive InitErr
  /-- The log cannot be read. -/
  | wal (e : WalErr)
  /-- The memory storage refuses what has been read. -/
  | storage (e : StorageErr)
  deriving DecidableEq

namespace DurableStorage

/-- The memory storage with the snapshot that has been loaded. -/
def loadSnapshot [Inhabited δ] : Option (Snapshot δ) → Except StorageErr (MemoryStorage δ)
  | none => .ok MemoryStorage.newMemoryStorage
  | some snap =>
    if snap.isEmptySnap then .ok MemoryStorage.newMemoryStorage
    else MemoryStorage.newMemoryStorage.applySnapshot snap

/-- `Storage.Initialize`, on what is on the disk. -/
def initializeStorage [Inhabited δ] (w : Wal δ) (torn : Bool) : Except InitErr (DurableStorage δ) := do
  let (latestSnap, r) ← (w.openReadAll torn).mapError .wal
  let m ← (loadSnapshot latestSnap).mapError .storage
  let m ← (m.append r.batch).mapError .storage
  -- An empty hard state is not set, and is what the memory storage begins with.
  return { wal := w.openWAL, memStorage := m, hardState := r.state }

end DurableStorage

/-! ## What a restart does -/

/-- What a restart needs to come at least to an index: the log exists, the terms of the snapshots on it
increase with their indices, the snapshot at the index can be loaded, and the entries above it leave no
gap. -/
structure Wal.Restartable (w : Wal δ) (index : ℕ) : Prop where
  /-- The log begins with the record of the empty snapshot. -/
  created : w.HasRecord 0 0
  /-- The terms of the snapshots increase with their indices. -/
  ordered : ∀ i t i' t', w.HasRecord i t → w.HasRecord i' t' → i ≤ i' → t ≤ t'
  /-- The snapshot can be loaded. -/
  snapshot : index = 0 ∨ ∃ snap, snap.index = index ∧ w.Loadable snap
  /-- The entries above leave no gap. -/
  replayed : ∃ ents, Suffix.putAll RaftEntry.index ⟨index, []⟩ (loggedEntries w.records) = some ents

namespace DurableStorage

variable [Inhabited δ] {w : Wal δ} {index : ℕ}

/-- What a restart makes of the disk. -/
structure Restarted (w : Wal δ) (index : ℕ) (d : DurableStorage δ) : Prop where
  /-- The disk is as it was. -/
  wal_eq : d.wal = w
  /-- The hard state is the last one on the disk. -/
  hardState_eq : d.hardState = Wal.lastState w.records
  /-- The snapshot is not below the index. -/
  index_le : index ≤ d.snapshot.index
  /-- It is the empty one, or has been loaded. -/
  loaded : d.snapshot = MemoryStorage.emptySnapshot ∨ w.Loadable d.snapshot
  /-- The log begins with it. -/
  offsetTerm_eq : d.memStorage.offsetTerm = d.snapshot.term
  /-- The log has the entries of the disk above the snapshot. -/
  replayed : Suffix.putAll RaftEntry.index ⟨d.snapshot.index, []⟩ (loggedEntries w.records) =
    some d.memStorage.ents

/-- The memory storage with a snapshot has no entries. -/
theorem exists_loadSnapshot (snapshot : Option (Snapshot δ)) :
    ∃ m, loadSnapshot snapshot = .ok m ∧ m.ents = ⟨(snapshot.map Snapshot.index).getD 0, []⟩ ∧
      m.snapshot.index = (snapshot.map Snapshot.index).getD 0 ∧ m.offsetTerm = m.snapshot.term ∧
      (m.snapshot = MemoryStorage.emptySnapshot ∨ snapshot = some m.snapshot) := by
  cases snapshot with
  | none => exact ⟨_, rfl, rfl, rfl, rfl, .inl rfl⟩
  | some snap =>
    unfold loadSnapshot
    dsimp only
    by_cases hsnap : snap.isEmptySnap = true
    · have hindex : snap.index = 0 := of_decide_eq_true hsnap
      rw [if_pos hsnap]
      refine ⟨_, rfl, ?_, ?_, rfl, .inl rfl⟩
      · rw [Option.map_some, Option.getD_some, hindex]
        rfl
      · rw [Option.map_some, Option.getD_some, hindex]
        rfl
    · have hindex : ¬snap.index ≤ (MemoryStorage.newMemoryStorage : MemoryStorage δ).snapshot.index :=
        fun hle => hsnap (decide_eq_true (Nat.le_zero.mp hle))
      rw [if_neg hsnap]
      unfold MemoryStorage.applySnapshot
      rw [if_neg hindex]
      exact ⟨_, rfl, rfl, rfl, rfl, .inr rfl⟩

/-- A restart succeeds where the snapshot that is loaded has no record with another term, and the entries above
it leave no gap. -/
theorem exists_initializeStorage {snapshot : Option (Snapshot δ)} {ents : Suffix RaftEntry}
    (hcreated : w.HasRecord 0 0) (hload : w.loadLatestSnapshot = snapshot)
    (hterm : ∀ t, w.HasRecord ((snapshot.map Snapshot.index).getD 0) t →
      t = (snapshot.map Snapshot.term).getD 0)
    (hents : Suffix.putAll RaftEntry.index ⟨(snapshot.map Snapshot.index).getD 0, []⟩
      (loggedEntries w.records) = some ents) :
    ∃ d, initializeStorage w false = .ok d ∧ d.wal = w ∧ d.hardState = Wal.lastState w.records ∧
      d.snapshot.index = (snapshot.map Snapshot.index).getD 0 ∧
      (d.snapshot = MemoryStorage.emptySnapshot ∨ snapshot = some d.snapshot) ∧
      d.memStorage.offsetTerm = d.snapshot.term ∧ d.memStorage.ents = ents := by
  have hopen := Wal.openWAL_eq hcreated
  obtain ⟨r, hr, hrents, hst⟩ := Replay.exists_readAll
    (r := Replay.start ((snapshot.map Snapshot.index).getD 0)) (fun t c hc => hterm t ⟨c, hc⟩) hents
  obtain ⟨m, hm, hments, hindex, hoff, hsnap⟩ := exists_loadSnapshot snapshot
  -- The entries that were read begin right after the snapshot.
  have hitems : Suffix.putAll RaftEntry.index m.ents r.batch.entries = some r.ents := by
    have hoffset : r.ents.offset = (snapshot.map Snapshot.index).getD 0 := by
      rw [hrents, Suffix.offset_putAll hents]
    rw [hments, ← hoffset]
    exact r.index_ents.putAll_items
  obtain ⟨m', hm'⟩ := MemoryStorage.exists_append hitems
  obtain ⟨hsnap', hoff', hents'⟩ := MemoryStorage.append_ok hm'
  have hread : w.openReadAll false = .ok (snapshot, r) := by
    unfold Wal.openReadAll
    rw [hopen, hload]
    dsimp only
    rw [hr]
    rfl
  refine ⟨⟨⟨w, m'⟩, r.state⟩, ?_, rfl, hst, ?_, ?_, ?_, ?_⟩
  · unfold initializeStorage
    rw [hread, hopen]
    change ((loadSnapshot snapshot).mapError InitErr.storage >>= _) = _
    rw [hm]
    change ((m.append r.batch).mapError InitErr.storage >>= _) = _
    rw [hm']
    rfl
  · exact (congrArg Snapshot.index hsnap').trans hindex
  · change m'.snapshot = _ ∨ _ = some m'.snapshot
    rw [hsnap']
    exact hsnap
  · change m'.offsetTerm = m'.snapshot.term
    rw [hoff', hsnap', hoff]
  · change m'.ents = ents
    rw [hents'] at hitems
    rw [Option.some.inj hitems, hrents]

/-- What a restart that succeeds has read: the snapshot that is loaded has no record with another term, and the
log in memory has the entries above it. -/
theorem initializeStorage_ok {d : DurableStorage δ} (hcreated : w.HasRecord 0 0)
    (h : initializeStorage w false = .ok d) :
    d.snapshot.index = (w.loadLatestSnapshot.map Snapshot.index).getD 0 ∧
      (d.snapshot = MemoryStorage.emptySnapshot ∨ w.loadLatestSnapshot = some d.snapshot) ∧
      (∀ t, w.HasRecord ((w.loadLatestSnapshot.map Snapshot.index).getD 0) t →
        t = (w.loadLatestSnapshot.map Snapshot.term).getD 0) ∧
      Suffix.putAll RaftEntry.index ⟨(w.loadLatestSnapshot.map Snapshot.index).getD 0, []⟩
        (loggedEntries w.records) = some d.memStorage.ents := by
  -- The records have been read, so the restart has gone as it does wherever they can be.
  obtain ⟨⟨snapshot, r⟩, hopen, -⟩ := bind_eq_ok h
  obtain ⟨r', hr', -⟩ := bind_eq_ok (mapError_eq_ok hopen)
  rw [Wal.openWAL_eq hcreated] at hr'
  obtain ⟨hterm, hents⟩ := Replay.readAll_ok hr'
  have hterm : ∀ t, w.HasRecord ((w.loadLatestSnapshot.map Snapshot.index).getD 0) t →
      t = (w.loadLatestSnapshot.map Snapshot.term).getD 0 := by
    rintro t ⟨c, hc⟩
    exact hterm t c hc
  obtain ⟨d', hd', -, -, hsnap, hloaded, -, hdents⟩ :=
    exists_initializeStorage hcreated rfl hterm hents
  obtain rfl : d' = d := Except.ok.inj (hd'.symm.trans h)
  exact ⟨hsnap, hloaded, hterm, hdents ▸ hents⟩

/-- A restart from a disk that has what it needs. -/
theorem exists_restarted (h : w.Restartable index) :
    ∃ d, initializeStorage w false = .ok d ∧ Restarted w index d := by
  obtain ⟨ents, hents⟩ := h.replayed
  -- The snapshot that is loaded is not below the index, and its index has no record with another term.
  have hindex : index ≤ (w.loadLatestSnapshot.map Snapshot.index).getD 0 := by
    rcases h.snapshot with rfl | ⟨snap, rfl, hsnap⟩
    · exact Nat.zero_le _
    · obtain ⟨f, hf, hbefore⟩ := hsnap.exists_loadLatestSnapshot
      have hload := Wal.loadable_of_loadLatestSnapshot hf
      rw [hf]
      by_contra hlt
      have hlt : f.index < snap.index := Nat.lt_of_not_le hlt
      have hterm := h.ordered _ _ _ _ hload.record hsnap.record hlt.le
      unfold Snapshot.Before at hbefore
      omega
  have hterm : ∀ t, w.HasRecord ((w.loadLatestSnapshot.map Snapshot.index).getD 0) t →
      t = (w.loadLatestSnapshot.map Snapshot.term).getD 0 := by
    have hrecord : w.HasRecord ((w.loadLatestSnapshot.map Snapshot.index).getD 0)
        ((w.loadLatestSnapshot.map Snapshot.term).getD 0) := by
      cases hf : w.loadLatestSnapshot with
      | none => exact h.created
      | some f => exact (Wal.loadable_of_loadLatestSnapshot hf).record
    intro t ht
    exact Nat.le_antisymm (h.ordered _ _ _ _ ht hrecord le_rfl) (h.ordered _ _ _ _ hrecord ht le_rfl)
  -- What leaves no gap above the index leaves none above the snapshot.
  have hkept : Suffix.Kept ⟨index, []⟩
      (⟨(w.loadLatestSnapshot.map Snapshot.index).getD 0, []⟩ : Suffix RaftEntry) :=
    Suffix.Kept.nil hindex
  obtain ⟨ents', hents', -⟩ := hkept.putAll hents
  obtain ⟨d, hd, hwal, hst, hsnap, hloaded, hoff, hdents⟩ :=
    exists_initializeStorage h.created rfl hterm hents'
  refine ⟨d, hd, hwal, hst, hsnap ▸ hindex, ?_, hoff, ?_⟩
  · exact hloaded.imp_right fun hf => Wal.loadable_of_loadLatestSnapshot hf
  · rw [hsnap, hdents, hents']

/-- The storage after its first `Initialize`. -/
def fresh : DurableStorage δ where
  wal := ⟨[], [.snapshot 0 0 ⟨[], []⟩]⟩
  memStorage := MemoryStorage.newMemoryStorage
  hardState := HardState.empty

/-- The first `Initialize` creates the log. -/
theorem initializeStorage_empty : initializeStorage (Wal.empty : Wal δ) false = .ok fresh := rfl

end DurableStorage

end Omashu
