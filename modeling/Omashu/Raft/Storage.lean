import Omashu.Lib.Suffix
import Omashu.Raft.Wal

/-!
# The Raft storage and its snapshots

`Storage` (`storage.go`) pairs the write-ahead log with a `raft.MemoryStorage`, which holds the last
snapshot and the log above an offset. `CreateSnapshot` saves a snapshot of the application at an index,
installs it in the memory storage with `ApplySnapshot`, and compacts the memory storage up to the
index.

`ApplySnapshot` is made for a snapshot from another node: it replaces the whole log by a dummy entry
at the index of the snapshot. Where the snapshot is newer than the one in memory, the entries above its
index are lost with it, before `Compact` gets to keep them. So a successful `CreateSnapshot` keeps the
log exactly if its index is the last one, or the snapshot is not newer than the one in memory
(`createSnapshot_keepsLog_iff`).
-/

namespace Omashu

open Lib

variable {δ : Type}

/-- `limitSize`: as many entries as fit into a size, and at least one. -/
def limitSize (size : RaftEntry → ℕ) (maxSize : ℕ) : List RaftEntry → List RaftEntry
  | [] => []
  | e :: es => e :: go (size e) es
where
  /-- The entries that still fit after the size that is used. -/
  go (used : ℕ) : List RaftEntry → List RaftEntry
    | [] => []
    | e :: es => if maxSize < used + size e then [] else e :: go (used + size e) es

/-- `raft.MemoryStorage`. The log is kept above an offset, where it has a dummy entry with a term. -/
structure MemoryStorage (δ : Type) where
  /-- The last snapshot. -/
  snapshot : Snapshot δ
  /-- The term of the dummy entry. -/
  offsetTerm : ℕ
  /-- The entries above the dummy entry. -/
  ents : Suffix RaftEntry
  /-- An entry has the index of its position. -/
  index_ents : ∀ j e, ents.get? j = some e → e.index = j

namespace MemoryStorage

variable {m m' : MemoryStorage δ} {i : ℕ}

/-- `FirstIndex`. -/
def firstIndex (m : MemoryStorage δ) : ℕ := m.ents.offset + 1

/-- `LastIndex`. -/
def lastIndex (m : MemoryStorage δ) : ℕ := m.ents.last

/-- `Term`. -/
def term (m : MemoryStorage δ) (i : ℕ) : Except StorageErr ℕ :=
  if i < m.ents.offset then .error .compacted
  else if m.ents.last < i then .error .unavailable
  else .ok (((m.ents.get? i).map RaftEntry.term).getD m.offsetTerm)

/-- `Entries`. -/
def entries (m : MemoryStorage δ) (size : RaftEntry → ℕ) (lo hi maxSize : ℕ) :
    Except StorageErr (List RaftEntry) :=
  if lo ≤ m.ents.offset then .error .compacted
  else if m.ents.last + 1 < hi ∨ hi < lo then .error .panicked
  else if m.ents.items = [] then .error .unavailable
  else .ok (limitSize size maxSize (m.ents.slice lo hi))

/-- `ApplySnapshot`. -/
def applySnapshot (m : MemoryStorage δ) (snap : Snapshot δ) : Except StorageErr (MemoryStorage δ) :=
  if snap.index ≤ m.snapshot.index then .error .snapOutOfDate
  else .ok
    { snapshot := snap
      offsetTerm := snap.term
      ents := ⟨snap.index, []⟩
      index_ents := by simp [Suffix.get?] }

/-- `Compact`. The entry at the index becomes the dummy entry. -/
def compact (m : MemoryStorage δ) (i : ℕ) : Except StorageErr (MemoryStorage δ) :=
  if h : i ≤ m.ents.offset then .error .compacted
  else if m.ents.last < i then .error .panicked
  else .ok
    { snapshot := m.snapshot
      offsetTerm := ((m.ents.get? i).map RaftEntry.term).getD m.offsetTerm
      ents := m.ents.dropTo i
      index_ents := fun j e he => m.index_ents j e (Suffix.get?_of_dropTo (Nat.le_of_not_le h) he) }

/-- An index that has a term is one of the log, or that of the dummy entry. -/
theorem bounds_of_term {t : ℕ} (h : m.term i = .ok t) : m.ents.offset ≤ i ∧ i ≤ m.lastIndex := by
  unfold term at h
  split_ifs at h with hlo hhi
  exact ⟨Nat.le_of_not_lt hlo, Nat.le_of_not_lt hhi⟩

/-- A snapshot that is not out of date leaves nothing of the log. -/
theorem applySnapshot_ok {snap : Snapshot δ} (h : m.applySnapshot snap = .ok m') :
    m.snapshot.index < snap.index ∧ m'.snapshot = snap ∧ m'.ents = ⟨snap.index, []⟩ := by
  unfold applySnapshot at h
  split_ifs at h with hle
  obtain rfl := Except.ok.inj h
  exact ⟨Nat.lt_of_not_le hle, rfl, rfl⟩

/-- A snapshot is out of date exactly if it is not newer. -/
theorem applySnapshot_error {snap : Snapshot δ} {e : StorageErr} (h : m.applySnapshot snap = .error e) :
    snap.index ≤ m.snapshot.index := by
  unfold applySnapshot at h
  split_ifs at h with hle
  exact hle

/-- Compaction drops the entries up to its index. -/
theorem compact_ok (h : m.compact i = .ok m') :
    m.ents.offset < i ∧ i ≤ m.lastIndex ∧ m'.snapshot = m.snapshot ∧ m'.ents = m.ents.dropTo i := by
  unfold compact at h
  split_ifs at h with hle hlt
  obtain rfl := Except.ok.inj h
  exact ⟨Nat.lt_of_not_le hle, Nat.le_of_not_lt hlt, rfl, rfl⟩

/-- The log is compacted already exactly if the offset is not below. -/
theorem compact_compacted (h : m.compact i = .error .compacted) : i ≤ m.ents.offset := by
  unfold compact at h
  split_ifs at h with hle hlt
  · exact hle
  · cases h

end MemoryStorage

/-- `Storage`. -/
structure Storage (δ : Type) where
  /-- The write-ahead log and the snapshot files. -/
  wal : Wal δ
  /-- The log and the last snapshot in memory. -/
  memStorage : MemoryStorage δ

namespace Storage

variable {s t : Storage δ} {i : ℕ}

/-- `Storage.FirstIndex`. -/
def firstIndex (s : Storage δ) : ℕ := s.memStorage.firstIndex

/-- `Storage.LastIndex`. -/
def lastIndex (s : Storage δ) : ℕ := s.memStorage.lastIndex

/-- `Storage.Term`. -/
def term (s : Storage δ) (i : ℕ) : Except StorageErr ℕ := s.memStorage.term i

/-- `Storage.Entries`. -/
def entries (s : Storage δ) (size : RaftEntry → ℕ) (lo hi maxSize : ℕ) :
    Except StorageErr (List RaftEntry) :=
  s.memStorage.entries size lo hi maxSize

/-- `Storage.Snapshot`. -/
def snapshot (s : Storage δ) : Snapshot δ := s.memStorage.snapshot

/-- An operation of the write-ahead log. -/
def onWal {α : Type} (x : EStateM StorageErr (Wal δ) α) : EStateM StorageErr (Storage δ) α := fun s =>
  match x s.wal with
  | .ok a w => .ok a { s with wal := w }
  | .error e w => .error e { s with wal := w }

/-- An operation of the memory storage in which one error does not count, and the others are
wrapped. -/
def onMem (f : MemoryStorage δ → Except StorageErr (MemoryStorage δ)) (ignored : StorageErr)
    (wrap : StorageErr → StorageErr) : EStateM StorageErr (Storage δ) Unit := fun s =>
  match f s.memStorage with
  | .ok m => .ok () { s with memStorage := m }
  | .error e => if e = ignored then .ok () s else .error (wrap e) s

/-- `Storage.compact`. -/
def compact (index : ℕ) : EStateM StorageErr (Storage δ) Unit :=
  onMem (·.compact index) .compacted id

/-- The term of the entry at an index, for a snapshot there. -/
def snapshotTerm (index : ℕ) : EStateM StorageErr (Storage δ) ℕ := fun s =>
  match s.memStorage.term index with
  | .ok term => .ok term s
  | .error e => .error (.failedTerm index e) s

/-- `Storage.CreateSnapshot`. -/
def createSnapshot (disk : DiskOp → Bool) (index : ℕ) (confState : ConfState) (data : δ) :
    EStateM StorageErr (Storage δ) Unit := do
  let term ← snapshotTerm index
  let snapshot : Snapshot δ := { index, term, confState, data }
  onWal (Wal.saveSnap disk snapshot)
  -- A snapshot that is not newer than the one in memory does not count as an error.
  onMem (·.applySnapshot snapshot) .snapOutOfDate .failedApply
  onWal (Wal.sync disk)
  onWal (Wal.release disk snapshot.index)
  compact index

/-! ## What the operations do to the memory storage -/

/-- The write-ahead log does not change the memory storage. -/
theorem memStorage_onWal {α : Type} {x : EStateM StorageErr (Wal δ) α} {a : α}
    (h : onWal x s = .ok a t) : t.memStorage = s.memStorage := by
  unfold onWal at h
  split at h
  · cases h
    rfl
  · cases h

/-- An operation of the memory storage has succeeded, or failed with the error that does not
count. -/
theorem onMem_ok {f : MemoryStorage δ → Except StorageErr (MemoryStorage δ)} {e : StorageErr}
    {wrap : StorageErr → StorageErr} (h : onMem f e wrap s = .ok () t) :
    f s.memStorage = .ok t.memStorage ∨ f s.memStorage = .error e ∧ t.memStorage = s.memStorage := by
  unfold onMem at h
  split at h
  next m hm =>
    cases h
    exact .inl hm
  next e' he =>
    split_ifs at h with heq
    cases h
    exact .inr ⟨heq ▸ he, rfl⟩

/-- The term of a snapshot is that of its entry. -/
theorem snapshotTerm_ok {τ : ℕ} (h : snapshotTerm i s = .ok τ t) :
    s.memStorage.term i = .ok τ ∧ t = s := by
  unfold snapshotTerm at h
  split at h
  next τ' hτ =>
    cases h
    exact ⟨hτ, rfl⟩
  next => cases h

/-- The steps of a successful `CreateSnapshot` in the memory storage: the index has a term, the
snapshot is installed or out of date, and the log is compacted or was so already. -/
theorem createSnapshot_ok {disk : DiskOp → Bool} {c : ConfState} {d : δ}
    (h : createSnapshot disk i c d s = .ok () t) :
    ∃ τ m, s.memStorage.term i = .ok τ ∧
      (s.memStorage.applySnapshot ⟨i, τ, c, d⟩ = .ok m ∨
        s.memStorage.applySnapshot ⟨i, τ, c, d⟩ = .error .snapOutOfDate ∧ m = s.memStorage) ∧
      (m.compact i = .ok t.memStorage ∨
        m.compact i = .error .compacted ∧ t.memStorage = m) := by
  obtain ⟨τ, u₀, hterm, h⟩ := bind_eq_ok_iff.mp h
  obtain ⟨⟨⟩, u₁, hsave, h⟩ := bind_eq_ok_iff.mp h
  obtain ⟨⟨⟩, u₂, happly, h⟩ := bind_eq_ok_iff.mp h
  obtain ⟨⟨⟩, u₃, hsync, h⟩ := bind_eq_ok_iff.mp h
  obtain ⟨⟨⟩, u₄, hrelease, hcompact⟩ := bind_eq_ok_iff.mp h
  obtain ⟨hτ, rfl⟩ := snapshotTerm_ok hterm
  have happly := onMem_ok happly
  have hcompact := onMem_ok hcompact
  rw [memStorage_onWal hsave] at happly
  rw [memStorage_onWal hrelease, memStorage_onWal hsync] at hcompact
  exact ⟨τ, u₂.memStorage, hτ, happly, hcompact⟩

/-! ## What is left of the log -/

/-- The log above an index is as it was: its last index, its entries and their terms, however many
entries are asked for at once. The log begins no later than after the index, and the snapshot in memory
is not older. -/
structure KeepsLog (size : RaftEntry → ℕ) (s t : Storage δ) (i : ℕ) : Prop where
  /-- The log reaches as far. -/
  lastIndex : t.lastIndex = s.lastIndex
  /-- Its entries are the same. -/
  entries : ∀ lo hi maxSize, i < lo → lo < hi → hi ≤ s.lastIndex + 1 →
    t.entries size lo hi maxSize = s.entries size lo hi maxSize
  /-- Their terms are the same. -/
  term : ∀ j, i < j → j ≤ s.lastIndex → t.term j = s.term j
  /-- No entry above the index is compacted. -/
  firstIndex : t.firstIndex ≤ i + 1
  /-- The snapshot is that of the index, or newer. -/
  snapshot : i ≤ t.snapshot.index

/-- Dropping the entries up to an index keeps the log above it. -/
theorem keepsLog_of_dropTo {size : RaftEntry → ℕ}
    (hents : t.memStorage.ents = s.memStorage.ents.dropTo i) (hlo : s.memStorage.ents.offset ≤ i)
    (hhi : i ≤ s.lastIndex) (hsnap : i ≤ t.snapshot.index) : KeepsLog size s t i := by
  have hlast : t.memStorage.ents.last = s.memStorage.ents.last := by
    rw [hents]
    exact Suffix.last_dropTo hlo hhi
  have hoff : t.memStorage.ents.offset = i := by
    rw [hents]
    rfl
  refine ⟨hlast, ?_, ?_, ?_, hsnap⟩
  · intro lo hi maxSize hi_lo hlt hle
    have hslice : t.memStorage.ents.slice lo hi = s.memStorage.ents.slice lo hi := by
      rw [hents]
      exact Suffix.slice_dropTo hlo hi_lo
    have hreach : i < s.memStorage.ents.last := by
      have : hi ≤ s.memStorage.ents.last + 1 := hle
      omega
    -- There is an entry above the index, so neither log is empty.
    have hne : ¬s.memStorage.ents.items = [] :=
      Suffix.items_ne_nil (Nat.lt_of_le_of_lt hlo hreach)
    have hne' : ¬t.memStorage.ents.items = [] :=
      Suffix.items_ne_nil (by rw [hoff, hlast]; exact hreach)
    unfold Storage.entries MemoryStorage.entries
    rw [hslice, hlast, hoff, if_neg hne, if_neg hne', if_neg (Nat.not_le.mpr hi_lo),
      if_neg (Nat.not_le.mpr (Nat.lt_of_le_of_lt hlo hi_lo))]
  · intro j hj hle
    have hget : t.memStorage.ents.get? j = s.memStorage.ents.get? j := by
      rw [hents]
      exact Suffix.get?_dropTo hlo hj
    obtain ⟨e, he⟩ : ∃ e, s.memStorage.ents.get? j = some e :=
      Suffix.exists_get? (Nat.lt_of_le_of_lt hlo hj) hle
    unfold Storage.term MemoryStorage.term
    rw [hget, hlast, hoff, he, if_neg (Nat.not_lt.mpr hj.le),
      if_neg (Nat.not_lt.mpr (hlo.trans hj.le))]
    rfl
  · unfold Storage.firstIndex MemoryStorage.firstIndex
    rw [hoff]

/-- A successful `CreateSnapshot` keeps the log above its index exactly if the index is the last one, or
the snapshot in memory is not older. -/
theorem createSnapshot_keepsLog_iff (size : RaftEntry → ℕ) (disk : DiskOp → Bool) (c : ConfState)
    (d : δ) (h : createSnapshot disk i c d s = .ok () t) :
    KeepsLog size s t i ↔ i = s.lastIndex ∨ i ≤ s.snapshot.index := by
  obtain ⟨τ, m, hτ, happly, hcompact⟩ := createSnapshot_ok h
  obtain ⟨hlo, hhi⟩ := MemoryStorage.bounds_of_term hτ
  rcases happly with happly | ⟨happly, rfl⟩
  · -- The snapshot is installed: the log is empty above its index, and there is nothing to compact.
    obtain ⟨hnew, hsnap, hents⟩ := MemoryStorage.applySnapshot_ok happly
    have hm : t.memStorage = m := by
      rcases hcompact with hcompact | ⟨-, hm⟩
      · obtain ⟨hlt, -⟩ := MemoryStorage.compact_ok hcompact
        rw [hents] at hlt
        exact absurd hlt (Nat.lt_irrefl i)
      · exact hm
    constructor
    · intro hkeeps
      have hlast := hkeeps.lastIndex
      unfold Storage.lastIndex MemoryStorage.lastIndex at hlast
      rw [hm, hents] at hlast
      exact .inl hlast
    · rintro (hi | hi)
      · refine keepsLog_of_dropTo ?_ hlo hhi ?_
        · rw [hm, hents, hi]
          exact (Suffix.dropTo_last _).symm
        · unfold Storage.snapshot
          rw [hm, hsnap]
      · exact absurd hnew (Nat.not_lt.mpr hi)
  · -- The snapshot is out of date: only the compaction changes the log.
    have hold := MemoryStorage.applySnapshot_error happly
    refine iff_of_true ?_ (.inr hold)
    rcases hcompact with hcompact | ⟨hcompact, hm⟩
    · obtain ⟨-, -, hsnap, hents⟩ := MemoryStorage.compact_ok hcompact
      refine keepsLog_of_dropTo hents hlo hhi ?_
      unfold Storage.snapshot
      rw [hsnap]
      exact hold
    · -- The index is that of the dummy entry.
      have hoff : i = s.memStorage.ents.offset :=
        le_antisymm (MemoryStorage.compact_compacted hcompact) hlo
      refine keepsLog_of_dropTo ?_ hlo hhi ?_
      · rw [hm, hoff]
        exact (Suffix.dropTo_offset _).symm
      · unfold Storage.snapshot
        rw [hm]
        exact hold

/-- A storage with a log of three entries, and no snapshot. -/
def threeEntries : Storage Unit where
  wal := Wal.empty
  memStorage :=
    { snapshot := ⟨0, 0, ⟨[], []⟩, ()⟩
      offsetTerm := 0
      ents := ⟨0, [⟨1, 1, .normal, [1]⟩, ⟨2, 1, .normal, [2]⟩, ⟨3, 1, .normal, [3]⟩]⟩
      index_ents := by
        intro j e h
        rcases j with _ | _ | _ | _ | j <;> simp [Suffix.get?] at h <;> rw [← h] }

/-- A snapshot at the last entry keeps the log. -/
theorem createSnapshot_keepsLog_iff_last :
    ∃ t, createSnapshot (fun _ => true) 3 ⟨[1], []⟩ () threeEntries = .ok () t ∧
      KeepsLog (fun e => e.data.length) threeEntries t 3 :=
  ⟨_, rfl, (createSnapshot_keepsLog_iff (fun e => e.data.length) (fun _ => true) ⟨[1], []⟩ () rfl).mpr
    (.inl rfl)⟩

/-- A snapshot at the second of three entries loses the third. -/
theorem createSnapshot_loses_entry :
    ∃ t, createSnapshot (fun _ => true) 2 ⟨[1], []⟩ () threeEntries = .ok () t ∧
      threeEntries.lastIndex = 3 ∧ t.lastIndex = 2 ∧
      ¬KeepsLog (fun e => e.data.length) threeEntries t 2 := by
  refine ⟨_, rfl, rfl, rfl, fun hkeeps => ?_⟩
  have hlast : 2 = 3 := hkeeps.lastIndex
  exact absurd hlast (by decide)

end Storage

end Omashu
