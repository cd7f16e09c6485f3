import Omashu.Raft.Storage

/-!
# Saving a Ready

`SaveState` (`storage.go`) writes a Ready to the disk and to the memory storage. On the disk it writes the file
of a snapshot, its record, the entries and the hard state, in this order, and in memory it installs the
snapshot if that is newer, sets the hard state and appends the entries (`DurableStorage.saveState_ok`).

The operations on files are listed here one by one (`StorageReady.ops`), with what a part of them leaves on the
disk.
-/

namespace Omashu

open Lib

variable {δ : Type}

/-! ## Entries in memory -/

/-- Entries without a gap between them. -/
structure EntryBatch where
  entries : List RaftEntry
  /-- Each one has the index after that of the one before. -/
  consecutive : Suffix.Consecutive RaftEntry.index entries

namespace MemoryStorage

variable {m m' : MemoryStorage δ}

/-- The snapshot that is none. -/
def emptySnapshot [Inhabited δ] : Snapshot δ := ⟨0, 0, ⟨[], []⟩, default⟩

/-- `raft.NewMemoryStorage`. -/
def newMemoryStorage [Inhabited δ] : MemoryStorage δ where
  snapshot := emptySnapshot
  offsetTerm := 0
  ents := ⟨0, []⟩
  index_ents := by simp [Suffix.get?]

/-- What a snapshot makes of the memory storage: one that is out of date changes nothing. -/
def install (m : MemoryStorage δ) (snap : Snapshot δ) : MemoryStorage δ :=
  (m.applySnapshot snap).toOption.getD m

/-- The indices of entries that are appended from the first index of the log on, or above it. -/
theorem index_drop {e : RaftEntry} {es : List RaftEntry} {first : ℕ}
    (h : Suffix.Consecutive RaftEntry.index (e :: es)) (k : ℕ) (a : RaftEntry)
    (ha : ((e :: es).drop (first - e.index))[k]? = some a) : a.index = max e.index first + k := by
  rw [List.getElem?_drop] at ha
  rw [h.num_eq ha]
  omega

/-- `Append`. The entries that are compacted are cut off, and the others replace those from the first index
on. A gap is a panic. -/
def append (m : MemoryStorage δ) : EntryBatch → Except StorageErr (MemoryStorage δ)
  | ⟨[], _⟩ => .ok m
  | ⟨e :: es, h⟩ =>
    if e.index + es.length < m.firstIndex then .ok m
    -- The first entry that is left has the larger of the two indices.
    else if hgap : m.ents.last + 1 < max e.index m.firstIndex then .error .panicked
    else .ok
      { m with
        ents := m.ents.splice (max e.index m.firstIndex) ((e :: es).drop (m.firstIndex - e.index))
        index_ents := Suffix.Numbered.splice m.index_ents (lt_max_of_lt_right (Nat.lt_succ_self _))
          (Nat.le_of_not_lt hgap) (index_drop h) }

/-- Appending writes the entries one after the other. -/
theorem append_ok {b : EntryBatch} (h : m.append b = .ok m') :
    m'.snapshot = m.snapshot ∧ m'.offsetTerm = m.offsetTerm ∧
      m.ents.putAll RaftEntry.index b.entries = some m'.ents := by
  obtain ⟨_ | ⟨e, es⟩, hb⟩ := b
  · obtain rfl := Except.ok.inj h
    exact ⟨rfl, rfl, rfl⟩
  · unfold append at h
    dsimp only at h
    split_ifs at h with hold hgap
    · -- All of them are compacted.
      obtain rfl := Except.ok.inj h
      refine ⟨rfl, rfl, Suffix.putAll_of_le fun a ha => ?_⟩
      obtain ⟨k, hk⟩ := List.mem_iff_getElem?.mp ha
      have hlen := (List.getElem?_eq_some_iff.mp hk).1
      unfold firstIndex at hold
      rw [hb.num_eq hk]
      rw [List.length_cons] at hlen
      omega
    · obtain rfl := Except.ok.inj h
      refine ⟨rfl, rfl, ?_⟩
      exact m.ents.putAll_drop hb (Nat.le_of_not_lt hold) (Nat.le_of_not_lt hgap)

/-- Entries that can be written one after the other are appended. -/
theorem exists_append {b : EntryBatch} {ents : Suffix RaftEntry}
    (h : m.ents.putAll RaftEntry.index b.entries = some ents) : ∃ m', m.append b = .ok m' := by
  obtain ⟨_ | ⟨e, es⟩, hb⟩ := b
  · exact ⟨m, rfl⟩
  · obtain ⟨ents₁, hput, -⟩ := Option.bind_eq_some_iff.mp h
    have hoff : m.ents.offset ≤ m.ents.last := Nat.le_add_right _ _
    have hgap : ¬m.ents.last + 1 < max e.index m.firstIndex := by
      unfold firstIndex
      rcases Suffix.put_eq_some_iff.mp hput with ⟨hi, -⟩ | ⟨-, hl, -⟩
      · omega
      · omega
    unfold append
    dsimp only
    rw [dif_neg hgap]
    split_ifs
    · exact ⟨_, rfl⟩
    · exact ⟨_, rfl⟩

end MemoryStorage

/-! ## Operations on files -/

/-- An operation on a file. -/
inductive FileOp (δ : Type)
  /-- The file of a snapshot is written. -/
  | file (snap : Snapshot δ)
  /-- A record is appended to the write-ahead log. -/
  | record (r : WalRecord)

namespace Wal

/-- Appends a record. -/
def appendRecord (w : Wal δ) (r : WalRecord) : Wal δ := { w with records := w.records ++ [r] }

/-- What an operation on a file does. -/
def apply (w : Wal δ) : FileOp δ → Wal δ
  | .file snap => w.writeFile snap
  | .record r => w.appendRecord r

/-- What operations on files do. -/
def applyAll (w : Wal δ) (ops : List (FileOp δ)) : Wal δ := ops.foldl apply w

/-- `Wal.SaveState`. -/
def saveState (disk : DiskOp → Bool) (st : HardState) (entries : List RaftEntry) :
    EStateM StorageErr (Wal δ) Unit :=
  attempt disk .save (·.write st entries)

end Wal

/-- The entry of a record. -/
def WalRecord.entry? : WalRecord → Option RaftEntry
  | .entry e => some e
  | _ => none

/-- The entries of records. -/
def loggedEntries (records : List WalRecord) : List RaftEntry := records.filterMap WalRecord.entry?

/-- The hard state after a record. -/
def WalRecord.stateAfter (st : HardState) : WalRecord → HardState
  | .state st' => st'
  | _ => st

/-- The last hard state is what the records make of the empty one. -/
theorem Wal.lastState_eq (records : List WalRecord) :
    Wal.lastState records = records.foldl WalRecord.stateAfter HardState.empty := rfl

/-! ## `SaveState` -/

/-- `raft.Ready`, as far as `SaveState` reads it. -/
structure StorageReady (δ : Type) where
  /-- A snapshot from the leader, or the empty one. -/
  snapshot : Snapshot δ
  /-- The hard state to save, or the empty one. -/
  hardState : HardState
  /-- The entries to save. -/
  batch : EntryBatch

/-- The entries to save. -/
def StorageReady.entries (rd : StorageReady δ) : List RaftEntry := rd.batch.entries

/-- `Storage` with the hard state that its memory storage keeps. -/
structure DurableStorage (δ : Type) extends Storage δ where
  /-- The hard state in memory. -/
  hardState : HardState

namespace Storage

/-- `Storage.saveStateToWal`. -/
def saveStateToWal (disk : DiskOp → Bool) (rd : StorageReady δ) : EStateM StorageErr (Wal δ) Unit := do
  (if rd.snapshot.isEmptySnap then pure () else Wal.saveSnap disk rd.snapshot)
  Wal.saveState disk rd.hardState rd.entries
  Wal.sync disk
  Wal.release disk rd.snapshot.index

/-- `MemoryStorage.Append` in the storage. -/
def append (b : EntryBatch) : EStateM StorageErr (Storage δ) Unit := fun s =>
  match s.memStorage.append b with
  | .ok m => .ok () { s with memStorage := m }
  | .error e => .error e s

end Storage

namespace DurableStorage

/-- An operation of the storage that leaves the hard state in memory. -/
def onStorage (x : EStateM StorageErr (Storage δ) Unit) : EStateM StorageErr (DurableStorage δ) Unit :=
  fun s =>
    match x s.toStorage with
    | .ok _ t => .ok () { s with toStorage := t }
    | .error e t => .error e { s with toStorage := t }

/-- `Storage.SaveState`. -/
def saveState (disk : DiskOp → Bool) (rd : StorageReady δ) :
    EStateM StorageErr (DurableStorage δ) Unit := do
  onStorage (Storage.onWal (Storage.saveStateToWal disk rd))
  (if rd.snapshot.isEmptySnap then pure ()
    else onStorage (Storage.onMem (·.applySnapshot rd.snapshot) .snapOutOfDate id))
  (if rd.hardState = HardState.empty then pure ()
    else modify fun s => { s with hardState := rd.hardState })
  onStorage (Storage.append rd.batch)

end DurableStorage

/-! ## What saving does -/

/-- The operations that save a snapshot: the file and the record. No file is written for the empty one. -/
def Snapshot.ops (snap : Snapshot δ) : List (FileOp δ) :=
  (if snap.isEmptySnap then [] else [.file snap]) ++
    [.record (.snapshot snap.index snap.term snap.confState)]

/-- The operations are the file, unless the snapshot is empty, and the record. -/
theorem Snapshot.mem_ops {snap : Snapshot δ} {op : FileOp δ} : op ∈ snap.ops ↔
    snap.isEmptySnap = false ∧ op = .file snap ∨
      op = .record (.snapshot snap.index snap.term snap.confState) := by
  unfold ops
  cases snap.isEmptySnap with
  | true | false => simp

/-- The hard state after one is saved. An empty one is not saved. -/
def HardState.after (st st' : HardState) : HardState := if st' = HardState.empty then st else st'

/-- A hard state that commits a snapshot is saved. -/
theorem HardState.commit_after (st : HardState) {st' : HardState} {i : ℕ} (hpos : 0 < i)
    (hcommit : i ≤ st'.commit) : (st.after st').commit = st'.commit := by
  unfold HardState.after
  split_ifs with hempty
  · rw [hempty] at hcommit
    exact absurd hpos (Nat.not_lt.mpr hcommit)
  · rfl

/-- The records of a Ready after that of its snapshot. -/
def StorageReady.records (rd : StorageReady δ) : List WalRecord :=
  rd.entries.map WalRecord.entry ++ if rd.hardState = HardState.empty then [] else [.state rd.hardState]

/-- The operations that save the snapshot of a Ready, if it has one. -/
def StorageReady.snapshotOps (rd : StorageReady δ) : List (FileOp δ) :=
  if rd.snapshot.isEmptySnap then [] else rd.snapshot.ops

/-- The operations of `SaveState` on files, in their order. -/
def StorageReady.ops (rd : StorageReady δ) : List (FileOp δ) :=
  rd.snapshotOps ++ rd.records.map FileOp.record

namespace Wal

variable {w w' : Wal δ} {disk : DiskOp → Bool}

/-- Operations in two parts. -/
theorem applyAll_append (w : Wal δ) (ops ops' : List (FileOp δ)) :
    w.applyAll (ops ++ ops') = (w.applyAll ops).applyAll ops' :=
  List.foldl_append

/-- Records are appended one after the other. -/
theorem applyAll_records (w : Wal δ) (rs : List WalRecord) :
    w.applyAll (rs.map FileOp.record) = { w with records := w.records ++ rs } := by
  induction rs generalizing w with
  | nil => simp [applyAll]
  | cons r rs ih =>
    change (w.appendRecord r).applyAll (rs.map FileOp.record) = _
    rw [ih]
    simp [appendRecord]

/-- An operation that has succeeded has changed the disk. -/
theorem attempt_ok {op : DiskOp} {f : Wal δ → Wal δ} (h : attempt disk op f w = .ok () w') : w' = f w := by
  unfold attempt at h
  split_ifs at h
  · cases h
    rfl
  · cases h

/-- A snapshot that has been saved has its file and its record. -/
theorem saveSnap_ok {snap : Snapshot δ} (h : saveSnap disk snap w = .ok () w') :
    w' = w.applyAll snap.ops := by
  obtain ⟨⟨⟩, u, hfile, hrecord⟩ := bind_eq_ok_iff.mp h
  obtain rfl := attempt_ok hrecord
  unfold saveFile at hfile
  unfold Snapshot.ops
  split_ifs at hfile with hempty
  · cases hfile
    rw [if_pos hempty]
    rfl
  · cases hfile
    rw [if_neg hempty]
    rfl
  · cases hfile

end Wal

namespace Storage

variable {s t : Storage δ} {disk : DiskOp → Bool}

/-- `saveStateToWal` has done its operations. -/
theorem saveStateToWal_ok {rd : StorageReady δ} {w w' : Wal δ} (h : saveStateToWal disk rd w = .ok () w') :
    w' = w.applyAll rd.ops := by
  obtain ⟨⟨⟩, u₁, hsnap, h⟩ := bind_eq_ok_iff.mp h
  obtain ⟨⟨⟩, u₂, hsave, h⟩ := bind_eq_ok_iff.mp h
  obtain ⟨⟨⟩, u₃, hsync, hrelease⟩ := bind_eq_ok_iff.mp h
  obtain rfl := Wal.attempt_ok hsave
  obtain rfl := Wal.attempt_ok hsync
  obtain rfl := Wal.attempt_ok hrelease
  have hu₁ : u₁ = w.applyAll rd.snapshotOps := by
    unfold StorageReady.snapshotOps
    split_ifs at hsnap ⊢
    · cases hsnap
      rfl
    · exact Wal.saveSnap_ok hsnap
  unfold StorageReady.ops
  rw [Wal.applyAll_append, ← hu₁, Wal.applyAll_records]
  unfold Wal.write StorageReady.records
  simp only [id_eq, List.append_assoc]

/-- An operation of the write-ahead log. -/
theorem onWal_ok {x : EStateM StorageErr (Wal δ) Unit} (h : onWal x s = .ok () t) :
    x s.wal = .ok () t.wal := by
  unfold onWal at h
  split at h
  next heq =>
    cases h
    exact heq
  next => cases h

/-- An operation of the memory storage does not change the disk. -/
theorem wal_onMem {f : MemoryStorage δ → Except StorageErr (MemoryStorage δ)} {e : StorageErr}
    {wrap : StorageErr → StorageErr} (h : onMem f e wrap s = .ok () t) : t.wal = s.wal := by
  unfold onMem at h
  split at h
  next =>
    cases h
    rfl
  next =>
    split_ifs at h
    cases h
    rfl

/-- Entries are appended to the memory storage, and the disk does not change. -/
theorem append_ok {b : EntryBatch} (h : append b s = .ok () t) :
    s.memStorage.append b = .ok t.memStorage ∧ t.wal = s.wal := by
  unfold append at h
  split at h
  next heq =>
    cases h
    exact ⟨heq, rfl⟩
  next => cases h

/-- `CreateSnapshot` saves the snapshot with the term of its entry. -/
theorem wal_createSnapshot {i : ℕ} {c : ConfState} {d : δ} {τ : ℕ}
    (h : createSnapshot disk i c d s = .ok () t) (hτ : s.memStorage.term i = .ok τ) :
    t.wal = s.wal.applyAll (Snapshot.ops ⟨i, τ, c, d⟩) := by
  obtain ⟨τ', u₀, hterm, h⟩ := bind_eq_ok_iff.mp h
  obtain ⟨⟨⟩, u₁, hsave, h⟩ := bind_eq_ok_iff.mp h
  obtain ⟨⟨⟩, u₂, happly, h⟩ := bind_eq_ok_iff.mp h
  obtain ⟨⟨⟩, u₃, hsync, h⟩ := bind_eq_ok_iff.mp h
  obtain ⟨⟨⟩, u₄, hrelease, hcompact⟩ := bind_eq_ok_iff.mp h
  obtain ⟨hτ', rfl⟩ := snapshotTerm_ok hterm
  obtain rfl : τ' = τ := Except.ok.inj (hτ'.symm.trans hτ)
  rw [wal_onMem hcompact, Wal.attempt_ok (onWal_ok hrelease), Wal.attempt_ok (onWal_ok hsync),
    wal_onMem happly]
  exact Wal.saveSnap_ok (onWal_ok hsave)

end Storage

namespace MemoryStorage

variable {m m' : MemoryStorage δ} {snap : Snapshot δ}

/-- A snapshot that is not newer changes nothing. -/
theorem install_of_le (h : snap.index ≤ m.snapshot.index) : m.install snap = m := by
  unfold install applySnapshot
  rw [if_pos h]
  rfl

/-- A snapshot that is newer replaces the log. -/
theorem install_of_lt (h : m.snapshot.index < snap.index) :
    (m.install snap).snapshot = snap ∧ (m.install snap).offsetTerm = snap.term ∧
      (m.install snap).ents = ⟨snap.index, []⟩ := by
  unfold install applySnapshot
  rw [if_neg (Nat.not_le.mpr h)]
  exact ⟨rfl, rfl, rfl⟩

/-- What comes of `ApplySnapshot` where a snapshot that is out of date does not count as an error. -/
theorem eq_install (h : m.applySnapshot snap = .ok m' ∨
    m.applySnapshot snap = .error .snapOutOfDate ∧ m' = m) : m' = m.install snap := by
  unfold install
  rcases h with h | ⟨h, rfl⟩
  · rw [h]
    rfl
  · rw [h]
    rfl

end MemoryStorage

namespace DurableStorage

variable {s t : DurableStorage δ} {disk : DiskOp → Bool}

/-- An operation of the storage has succeeded. -/
theorem onStorage_ok {x : EStateM StorageErr (Storage δ) Unit} (h : onStorage x s = .ok () t) :
    x s.toStorage = .ok () t.toStorage ∧ t.hardState = s.hardState := by
  unfold onStorage at h
  split at h
  next heq =>
    cases h
    exact ⟨heq, rfl⟩
  next => cases h

/-- `SaveState` has written the Ready to the disk, installed its snapshot if it is newer, and set and appended
the rest. -/
theorem saveState_ok {rd : StorageReady δ} (h : saveState disk rd s = .ok () t) :
    t.wal = s.wal.applyAll rd.ops ∧ t.hardState = s.hardState.after rd.hardState ∧
      (s.memStorage.install rd.snapshot).append rd.batch = .ok t.memStorage := by
  obtain ⟨⟨⟩, u₁, hwal, h⟩ := bind_eq_ok_iff.mp h
  obtain ⟨⟨⟩, u₂, hsnap, h⟩ := bind_eq_ok_iff.mp h
  obtain ⟨⟨⟩, u₃, hstate, hents⟩ := bind_eq_ok_iff.mp h
  obtain ⟨hwal, hst₁⟩ := onStorage_ok hwal
  obtain ⟨hents, hst₄⟩ := onStorage_ok hents
  obtain ⟨happend, hw₄⟩ := Storage.append_ok hents
  have hw₁ : u₁.wal = s.wal.applyAll rd.ops := Storage.saveStateToWal_ok (Storage.onWal_ok hwal)
  have hm₁ : u₁.memStorage = s.memStorage := Storage.memStorage_onWal hwal
  have h₂ : u₂.wal = u₁.wal ∧ u₂.memStorage = u₁.memStorage.install rd.snapshot ∧
      u₂.hardState = u₁.hardState := by
    split_ifs at hsnap with hempty
    · cases hsnap
      have hindex : rd.snapshot.index = 0 := of_decide_eq_true hempty
      exact ⟨rfl, (MemoryStorage.install_of_le (hindex ▸ Nat.zero_le _)).symm, rfl⟩
    · obtain ⟨hsnap, hst₂⟩ := onStorage_ok hsnap
      exact ⟨Storage.wal_onMem hsnap, MemoryStorage.eq_install (Storage.onMem_ok hsnap), hst₂⟩
  have h₃ : u₃.toStorage = u₂.toStorage ∧ u₃.hardState = u₂.hardState.after rd.hardState := by
    unfold HardState.after
    split_ifs at hstate ⊢
    · cases hstate
      exact ⟨rfl, rfl⟩
    · cases hstate
      exact ⟨rfl, rfl⟩
  refine ⟨?_, ?_, ?_⟩
  · rw [hw₄, h₃.1, h₂.1, hw₁]
  · rw [hst₄, h₃.2, h₂.2.2, hst₁]
  · rw [← happend, h₃.1, h₂.2.1, hm₁]

/-- A Ready that `SaveState` saves with the disk as it is. -/
def saveStep (s : DurableStorage δ) (a : (DiskOp → Bool) × StorageReady δ) : Option (DurableStorage δ) :=
  match saveState a.1 a.2 s with
  | .ok _ t => some t
  | .error _ _ => none

/-- A step is a `SaveState` that has returned without an error. -/
theorem saveStep_eq_some (h : saveStep s (disk, rd) = some t) : saveState disk rd s = .ok () t := by
  unfold saveStep at h
  split at h
  next heq =>
    obtain rfl := Option.some.inj h
    exact heq
  next => cases h

end DurableStorage

/-! ## What operations on files leave -/

/-- The record that an operation appends. -/
def FileOp.record? : FileOp δ → Option WalRecord
  | .file _ => none
  | .record r => some r

/-- The records that operations append. -/
def appendedRecords (ops : List (FileOp δ)) : List WalRecord := ops.filterMap FileOp.record?

/-- What operations append are their records. -/
theorem mem_appendedRecords {ops : List (FileOp δ)} {r : WalRecord} :
    r ∈ appendedRecords ops ↔ FileOp.record r ∈ ops := by
  unfold appendedRecords
  rw [List.mem_filterMap]
  constructor
  · rintro ⟨op, hop, hr⟩
    cases op with
    | file snap => cases hr
    | record r' =>
      obtain rfl : r' = r := Option.some.inj hr
      exact hop
  · exact fun h => ⟨_, h, rfl⟩

/-- Entries of records. -/
theorem mem_loggedEntries {records : List WalRecord} {e : RaftEntry} :
    e ∈ loggedEntries records ↔ WalRecord.entry e ∈ records := by
  unfold loggedEntries
  rw [List.mem_filterMap]
  constructor
  · rintro ⟨r, hr, he⟩
    cases r with
    | entry e' =>
      obtain rfl : e' = e := Option.some.inj he
      exact hr
    | state | snapshot => cases he
  · exact fun h => ⟨_, h, rfl⟩

/-- The last hard state is the one before, or is among the records. -/
theorem state_mem_of_foldl (st : HardState) (records : List WalRecord) :
    records.foldl WalRecord.stateAfter st = st ∨
      WalRecord.state (records.foldl WalRecord.stateAfter st) ∈ records := by
  induction records generalizing st with
  | nil => exact .inl rfl
  | cons r records ih =>
    rw [List.foldl_cons]
    rcases ih (r.stateAfter st) with heq | hmem
    · cases r with
      | state st' => exact .inr (heq.symm ▸ List.mem_cons_self)
      | entry e => exact .inl heq
      | snapshot i t c => exact .inl heq
    · exact .inr (List.mem_cons_of_mem r hmem)

namespace Wal

variable {w : Wal δ} {ops : List (FileOp δ)} {f : Snapshot δ}

/-- The records after operations. -/
theorem records_applyAll (w : Wal δ) (ops : List (FileOp δ)) :
    (w.applyAll ops).records = w.records ++ appendedRecords ops := by
  induction ops generalizing w with
  | nil => exact (List.append_nil _).symm
  | cons op ops ih =>
    change ((w.apply op).applyAll ops).records = _
    rw [ih]
    cases op with
    | file snap => rfl
    | record r =>
      change w.records ++ [r] ++ appendedRecords ops = w.records ++ r :: appendedRecords ops
      rw [List.append_assoc]
      rfl

/-- The records of snapshots after operations. -/
theorem hasRecord_applyAll {i t : ℕ} :
    (w.applyAll ops).HasRecord i t ↔
      w.HasRecord i t ∨ ∃ c, FileOp.record (.snapshot i t c) ∈ ops := by
  unfold HasRecord
  rw [records_applyAll]
  simp only [List.mem_append, mem_appendedRecords, exists_or]

/-- The last hard state after operations. -/
theorem lastState_applyAll (w : Wal δ) (ops : List (FileOp δ)) :
    lastState (w.applyAll ops).records =
      (appendedRecords ops).foldl WalRecord.stateAfter (lastState w.records) := by
  rw [records_applyAll, lastState_eq, List.foldl_append, ← lastState_eq]

/-- The entries on the disk after operations. -/
theorem loggedEntries_applyAll (w : Wal δ) (ops : List (FileOp δ)) :
    loggedEntries (w.applyAll ops).records =
      loggedEntries w.records ++ loggedEntries (appendedRecords ops) := by
  rw [records_applyAll]
  exact List.filterMap_append

/-- A file with another name than those that are written stays. -/
theorem mem_snapFiles_applyAll_of_ne (hf : f ∈ w.snapFiles)
    (hops : ∀ g, FileOp.file g ∈ ops → g.index ≠ f.index) : f ∈ (w.applyAll ops).snapFiles := by
  induction ops generalizing w with
  | nil => exact hf
  | cons op ops ih =>
    refine ih ?_ fun g hg => hops g (List.mem_cons_of_mem op hg)
    cases op with
    | record r => exact hf
    | file g =>
      have hne := hops g List.mem_cons_self
      refine List.mem_cons_of_mem g (List.mem_filter.mpr ⟨hf, decide_eq_true ?_⟩)
      exact fun hname => hne hname.2.symm

/-- The file of the only snapshot that is saved is there. -/
theorem mem_snapFiles_applyAll (hf : f ∈ w.snapFiles ∨ FileOp.file f ∈ ops)
    (hops : ∀ g, FileOp.file g ∈ ops → g = f) : f ∈ (w.applyAll ops).snapFiles := by
  induction ops generalizing w with
  | nil => exact hf.resolve_right List.not_mem_nil
  | cons op ops ih =>
    refine ih ?_ fun g hg => hops g (List.mem_cons_of_mem op hg)
    cases op with
    | record r => exact hf.imp_right fun hf => (List.mem_cons.mp hf).resolve_left (by simp)
    | file g =>
      obtain rfl := hops g List.mem_cons_self
      exact .inl List.mem_cons_self

/-- The only snapshot that is saved can be loaded if it is committed. -/
theorem loadable_applyAll (hfile : FileOp.file f ∈ ops)
    (hrecord : ∃ c, FileOp.record (.snapshot f.index f.term c) ∈ ops)
    (hunique : ∀ g, FileOp.file g ∈ ops → g = f) (hcommit : f.index ≤ (w.applyAll ops).commit) :
    (w.applyAll ops).Loadable f :=
  ⟨mem_snapFiles_applyAll (.inr hfile) hunique, hasRecord_applyAll.mpr (.inr hrecord), hcommit⟩

/-- A file is one from before or has been written. -/
theorem mem_of_mem_snapFiles_applyAll (hf : f ∈ (w.applyAll ops).snapFiles) :
    f ∈ w.snapFiles ∨ FileOp.file f ∈ ops := by
  induction ops generalizing w with
  | nil => exact .inl hf
  | cons op ops ih =>
    rcases ih hf with hf | hf
    · cases op with
      | record r => exact .inl hf
      | file g =>
        rcases List.mem_cons.mp hf with rfl | hf
        · exact .inr List.mem_cons_self
        · exact .inl (List.mem_filter.mp hf).1
    · exact .inr (List.mem_cons_of_mem op hf)

end Wal

namespace StorageReady

variable {rd : StorageReady δ}

/-- Nothing is saved for the empty snapshot. -/
theorem snapshotOps_of_empty (h : rd.snapshot.isEmptySnap = true) : rd.snapshotOps = [] := if_pos h

/-- A snapshot is saved with its file and its record. -/
theorem snapshotOps_of_not_empty (h : rd.snapshot.isEmptySnap = false) :
    rd.snapshotOps = [.file rd.snapshot,
      .record (.snapshot rd.snapshot.index rd.snapshot.term rd.snapshot.confState)] := by
  unfold snapshotOps Snapshot.ops
  rw [h]
  rfl

/-- The records are those of the entries and that of a hard state which is not empty. -/
theorem mem_records {r : WalRecord} : r ∈ rd.records ↔
    (∃ e ∈ rd.entries, WalRecord.entry e = r) ∨ rd.hardState ≠ HardState.empty ∧ r = .state rd.hardState := by
  unfold records
  rw [List.mem_append, List.mem_map]
  split_ifs with hempty
  · simp [hempty]
  · simp [hempty]

/-- The operations on files. -/
theorem mem_ops {op : FileOp δ} : op ∈ rd.ops ↔
    rd.snapshot.isEmptySnap = false ∧ (op = .file rd.snapshot ∨
      op = .record (.snapshot rd.snapshot.index rd.snapshot.term rd.snapshot.confState)) ∨
    ∃ r ∈ rd.records, FileOp.record r = op := by
  unfold ops
  rw [List.mem_append, List.mem_map]
  cases hempty : rd.snapshot.isEmptySnap with
  | true => simp [snapshotOps_of_empty hempty]
  | false => simp [snapshotOps_of_not_empty hempty]

/-- The file that `SaveState` writes is that of a snapshot which is not empty. -/
theorem file_mem_ops {snap : Snapshot δ} :
    FileOp.file snap ∈ rd.ops ↔ rd.snapshot.isEmptySnap = false ∧ snap = rd.snapshot := by
  simp [mem_ops]

/-- The record of a snapshot that `SaveState` writes. -/
theorem snapshot_mem_ops {i t : ℕ} {c : ConfState} :
    FileOp.record (.snapshot i t c) ∈ rd.ops ↔ rd.snapshot.isEmptySnap = false ∧
      i = rd.snapshot.index ∧ t = rd.snapshot.term ∧ c = rd.snapshot.confState := by
  simp [mem_ops, mem_records]

/-- The record of a hard state that `SaveState` writes. -/
theorem state_mem_ops {st : HardState} :
    FileOp.record (.state st) ∈ rd.ops ↔ rd.hardState ≠ HardState.empty ∧ st = rd.hardState := by
  simp [mem_ops, mem_records]

/-- The snapshot adds no entries to the log. -/
theorem loggedEntries_snapshotOps (rd : StorageReady δ) :
    loggedEntries (appendedRecords rd.snapshotOps) = [] := by
  cases hempty : rd.snapshot.isEmptySnap with
  | true => rw [snapshotOps_of_empty hempty]; rfl
  | false => rw [snapshotOps_of_not_empty hempty]; rfl

/-- Records are what is appended for them. -/
theorem appendedRecords_map (rs : List WalRecord) :
    appendedRecords (rs.map (FileOp.record : WalRecord → FileOp δ)) = rs := by
  induction rs with
  | nil => rfl
  | cons r rs ih => exact congrArg (r :: ·) ih

/-- Entries are what is logged for them. -/
theorem loggedEntries_map (es : List RaftEntry) : loggedEntries (es.map WalRecord.entry) = es := by
  induction es with
  | nil => rfl
  | cons e es ih => exact congrArg (e :: ·) ih

/-- The entries that are logged while the records are written are the first ones of the Ready. -/
theorem loggedEntries_take (rd : StorageReady δ) (k : ℕ) :
    loggedEntries (rd.records.take k) = rd.entries.take k := by
  unfold records
  rw [List.take_append, ← List.map_take]
  have hstate : ∀ n, loggedEntries
      ((if rd.hardState = HardState.empty then [] else [WalRecord.state rd.hardState]).take n) = [] := by
    intro n
    split_ifs
    · rw [List.take_nil]
      rfl
    · rcases n with _ | n
      · rfl
      · rw [List.take_succ_cons, List.take_nil]
        rfl
  rw [loggedEntries, List.filterMap_append, ← loggedEntries, ← loggedEntries, loggedEntries_map, hstate,
    List.append_nil]

/-- The entries that are logged by the first operations. -/
theorem loggedEntries_take_ops (rd : StorageReady δ) (k : ℕ) :
    loggedEntries (appendedRecords (rd.ops.take k)) = rd.entries.take (k - rd.snapshotOps.length) := by
  have hsnap : loggedEntries (appendedRecords (rd.snapshotOps.take k)) = [] := by
    refine List.eq_nil_iff_forall_not_mem.mpr fun e he => ?_
    have hop := List.mem_of_mem_take (mem_appendedRecords.mp (mem_loggedEntries.mp he))
    have hmem := mem_loggedEntries.mpr (mem_appendedRecords.mpr hop)
    rw [loggedEntries_snapshotOps] at hmem
    exact absurd hmem List.not_mem_nil
  unfold ops
  rw [List.take_append, ← List.map_take, appendedRecords, List.filterMap_append, loggedEntries,
    List.filterMap_append]
  change loggedEntries (appendedRecords (rd.snapshotOps.take k)) ++
    loggedEntries (appendedRecords ((rd.records.take _).map FileOp.record)) = _
  rw [hsnap, appendedRecords_map, loggedEntries_take, List.nil_append]

/-- The entries that `SaveState` writes. -/
theorem loggedEntries_ops (rd : StorageReady δ) : loggedEntries (appendedRecords rd.ops) = rd.entries := by
  have hlen : rd.entries.length ≤ rd.ops.length - rd.snapshotOps.length := by
    unfold ops records
    simp only [List.length_append, List.length_map]
    omega
  have htake := loggedEntries_take_ops rd rd.ops.length
  rwa [List.take_length, List.take_of_length_le hlen] at htake

/-- The files after `SaveState` has saved a snapshot. -/
theorem snapFiles_ops (h : rd.snapshot.isEmptySnap = false) (w : Wal δ) :
    (w.applyAll rd.ops).snapFiles = rd.snapshot :: w.otherFiles rd.snapshot := by
  unfold ops
  rw [Wal.applyAll_append, Wal.applyAll_records, snapshotOps_of_not_empty h]
  rfl

/-- The hard state that `SaveState` leaves on the disk. -/
theorem foldl_ops (rd : StorageReady δ) (st : HardState) :
    (appendedRecords rd.ops).foldl WalRecord.stateAfter st = st.after rd.hardState := by
  have hsnap : (appendedRecords rd.snapshotOps).foldl WalRecord.stateAfter st = st := by
    cases hempty : rd.snapshot.isEmptySnap with
    | true => rw [snapshotOps_of_empty hempty]; rfl
    | false => rw [snapshotOps_of_not_empty hempty]; rfl
  have hents : (rd.entries.map WalRecord.entry).foldl WalRecord.stateAfter st = st := by
    rw [List.foldl_map]
    exact List.foldl_fixed rd.entries
  unfold ops
  rw [appendedRecords, List.filterMap_append, ← appendedRecords, ← appendedRecords, appendedRecords_map,
    List.foldl_append, hsnap]
  unfold records HardState.after
  rw [List.foldl_append, hents]
  split_ifs
  · rfl
  · rfl

/-- A snapshot that is saved can be loaded if it is committed. -/
theorem loadable_ops (w : Wal δ) (hpos : 0 < rd.snapshot.index)
    (hcommit : rd.snapshot.index ≤ (w.applyAll rd.ops).commit) : (w.applyAll rd.ops).Loadable rd.snapshot := by
  have hempty : rd.snapshot.isEmptySnap = false := decide_eq_false (Nat.ne_of_gt hpos)
  exact Wal.loadable_applyAll (file_mem_ops.mpr ⟨hempty, rfl⟩)
    ⟨_, snapshot_mem_ops.mpr ⟨hempty, rfl, rfl, rfl⟩⟩ (fun f hf => (file_mem_ops.mp hf).2) hcommit

/-- A snapshot from before can still be loaded if it is not overwritten and committed. -/
theorem loadable_of_ne {w : Wal δ} {f : Snapshot δ} (h : w.Loadable f)
    (hne : 0 < rd.snapshot.index → rd.snapshot.index ≠ f.index)
    (hcommit : f.index ≤ (w.applyAll rd.ops).commit) : (w.applyAll rd.ops).Loadable f := by
  refine ⟨Wal.mem_snapFiles_applyAll_of_ne h.file fun g hg => ?_, ?_, hcommit⟩
  · obtain ⟨hempty, rfl⟩ := file_mem_ops.mp hg
    exact hne (Nat.pos_of_ne_zero (of_decide_eq_false hempty))
  · exact Wal.hasRecord_applyAll.mpr (.inl h.record)

/-- The records of snapshots after `SaveState`. -/
theorem hasRecord_ops {w : Wal δ} {i t : ℕ} (h : (w.applyAll rd.ops).HasRecord i t) :
    w.HasRecord i t ∨ 0 < rd.snapshot.index ∧ i = rd.snapshot.index ∧ t = rd.snapshot.term := by
  rcases Wal.hasRecord_applyAll.mp h with hold | ⟨c, hc⟩
  · exact .inl hold
  · obtain ⟨hempty, hi, ht, -⟩ := snapshot_mem_ops.mp hc
    exact .inr ⟨Nat.pos_of_ne_zero (of_decide_eq_false hempty), hi, ht⟩

/-- The files after `SaveState`. -/
theorem mem_snapFiles_ops {w : Wal δ} {f : Snapshot δ} (h : f ∈ (w.applyAll rd.ops).snapFiles) :
    f ∈ w.snapFiles ∨ 0 < rd.snapshot.index ∧ f = rd.snapshot := by
  rcases Wal.mem_of_mem_snapFiles_applyAll h with hold | hnew
  · exact .inl hold
  · obtain ⟨hempty, rfl⟩ := file_mem_ops.mp hnew
    exact .inr ⟨Nat.pos_of_ne_zero (of_decide_eq_false hempty), rfl⟩

end StorageReady

/-! ## Readys for the runs on fixed inputs -/

namespace StorageReady

/-- Entries of one term from an index on. -/
def entriesFrom (i n term : ℕ) : List RaftEntry :=
  (List.range' i n).map fun j => ⟨j, term, .normal, [1]⟩

/-- They have no gap between them. -/
theorem consecutive_entriesFrom (i n term : ℕ) :
    Suffix.Consecutive RaftEntry.index (entriesFrom i n term) := by
  unfold Suffix.Consecutive entriesFrom
  rw [List.isChain_map]
  exact List.isChain_range' i n 1

/-- A Ready with entries of one term and without a snapshot. -/
def appendReady (i n term commit : ℕ) : StorageReady Unit :=
  ⟨⟨0, 0, ⟨[], []⟩, ()⟩, ⟨term, 0, commit⟩, ⟨entriesFrom i n term, consecutive_entriesFrom i n term⟩⟩

/-- A Ready with a snapshot that its hard state commits, and entries after it. -/
def snapshotReady (i term n : ℕ) : StorageReady Unit :=
  ⟨⟨i, term, ⟨[1], []⟩, ()⟩, ⟨term, 0, i⟩,
    ⟨entriesFrom (i + 1) n term, consecutive_entriesFrom (i + 1) n term⟩⟩

end StorageReady

end Omashu
