import Omashu.Raft.Recovery

/-!
# What is always on the disk

A call writes its operations one by one. Where none of them overwrites the snapshot in memory, the terms of the
snapshots stay in the order of their indices and the snapshot in memory stays committed (`FitOps`), the disk
keeps that snapshot after any part of them, and has the new one when the call is through
(`DurableStorage.Saved`).
-/

namespace Omashu

open Lib

variable {δ : Type}

/-! ## Snapshots and Readys that keep the disk in order -/

/-- Whether a record leaves the terms of the snapshots in the order of their indices, when one is added. -/
def WalRecord.InOrder (snap : Snapshot δ) : WalRecord → Prop
  | .snapshot i t _ => (i ≤ snap.index → t ≤ snap.term) ∧ (snap.index ≤ i → snap.term ≤ t)
  | _ => True

instance WalRecord.decidableInOrder (snap : Snapshot δ) (r : WalRecord) : Decidable (r.InOrder snap) :=
  match r with
  | .snapshot _ _ _ => inferInstanceAs (Decidable (_ ∧ _))
  | .entry _ => isTrue trivial
  | .state _ => isTrue trivial

/-- A snapshot that can be saved: it is not at the index of the one in memory, and is in order with those on the
disk. -/
structure Snapshot.Fits (s : DurableStorage δ) (snap : Snapshot δ) : Prop where
  /-- It does not overwrite the snapshot in memory. -/
  index_ne : snap.index ≠ s.snapshot.index
  /-- It is in order with the records. -/
  inOrder : ∀ r ∈ s.wal.records, r.InOrder snap

instance Snapshot.decidableFits (s : DurableStorage δ) (snap : Snapshot δ) : Decidable (snap.Fits s) :=
  decidable_of_iff (snap.index ≠ s.snapshot.index ∧ ∀ r ∈ s.wal.records, r.InOrder snap)
    ⟨fun ⟨h₁, h₂⟩ => ⟨h₁, h₂⟩, fun ⟨h₁, h₂⟩ => ⟨h₁, h₂⟩⟩

/-- A Ready whose snapshot can be saved, and is committed with the snapshot in memory. -/
structure StorageReady.Fits (s : DurableStorage δ) (rd : StorageReady δ) : Prop where
  /-- A snapshot fits. -/
  snapshot : rd.snapshot.isEmptySnap = false → rd.snapshot.Fits s
  /-- A snapshot is committed by the hard state. -/
  committed : rd.snapshot.isEmptySnap = false → rd.snapshot.index ≤ rd.hardState.commit
  /-- The snapshot in memory stays committed. -/
  commit : rd.hardState ≠ HardState.empty → s.snapshot.index ≤ rd.hardState.commit

instance StorageReady.decidableFits (s : DurableStorage δ) (rd : StorageReady δ) : Decidable (rd.Fits s) :=
  decidable_of_iff
    ((rd.snapshot.isEmptySnap = false → rd.snapshot.Fits s) ∧
      (rd.snapshot.isEmptySnap = false → rd.snapshot.index ≤ rd.hardState.commit) ∧
      (rd.hardState ≠ HardState.empty → s.snapshot.index ≤ rd.hardState.commit))
    ⟨fun ⟨h₁, h₂, h₃⟩ => ⟨h₁, h₂, h₃⟩, fun ⟨h₁, h₂, h₃⟩ => ⟨h₁, h₂, h₃⟩⟩

namespace DurableStorage

variable {s t : DurableStorage δ} {disk : DiskOp → Bool} {rd : StorageReady δ} {ops : List (FileOp δ)}

/-! ## Operations that keep the disk in order -/

/-- Operations that do not overwrite the snapshot in memory, keep the terms of the snapshots in order, and keep
the snapshot in memory committed. -/
structure FitOps (s : DurableStorage δ) (ops : List (FileOp δ)) : Prop where
  /-- No file has the name of the snapshot in memory. -/
  file : ∀ f, FileOp.file f ∈ ops → f.index ≠ s.snapshot.index
  /-- The snapshots are in order with those on the disk. -/
  inOrder : ∀ i t c, FileOp.record (.snapshot i t c) ∈ ops → ∀ i' t', s.wal.HasRecord i' t' →
    (i' ≤ i → t' ≤ t) ∧ (i ≤ i' → t ≤ t')
  /-- There is one snapshot at most. -/
  unique : ∀ i t c i' t' c', FileOp.record (.snapshot i t c) ∈ ops →
    FileOp.record (.snapshot i' t' c') ∈ ops → t = t'
  /-- The snapshot in memory stays committed. -/
  commit : ∀ st, FileOp.record (.state st) ∈ ops → s.snapshot.index ≤ st.commit

/-- A part of the operations fits as well. -/
theorem FitOps.mono {ops' : List (FileOp δ)} (h : FitOps s ops) (hsub : ∀ op ∈ ops', op ∈ ops) :
    FitOps s ops' where
  file f hf := h.file f (hsub _ hf)
  inOrder i t c hc := h.inOrder i t c (hsub _ hc)
  unique i t c i' t' c' hc hc' := h.unique i t c i' t' c' (hsub _ hc) (hsub _ hc')
  commit st hst := h.commit st (hsub _ hst)

/-- A snapshot that fits is in order with the records on the disk. -/
theorem inOrder_of_fits {snap : Snapshot δ} (h : snap.Fits s) (i t : ℕ) (hi : s.wal.HasRecord i t) :
    (i ≤ snap.index → t ≤ snap.term) ∧ (snap.index ≤ i → snap.term ≤ t) := by
  obtain ⟨c, hc⟩ := hi
  exact h.inOrder _ hc

/-- The operations of a Ready that fits. -/
theorem fitOps_of_ready (h : rd.Fits s) : FitOps s rd.ops where
  file f hf := by
    obtain ⟨hempty, rfl⟩ := StorageReady.file_mem_ops.mp hf
    exact (h.snapshot hempty).index_ne
  inOrder i t c hc := by
    obtain ⟨hempty, rfl, rfl, -⟩ := StorageReady.snapshot_mem_ops.mp hc
    exact inOrder_of_fits (h.snapshot hempty)
  unique i t c i' t' c' hc hc' := by
    obtain ⟨-, -, rfl, -⟩ := StorageReady.snapshot_mem_ops.mp hc
    obtain ⟨-, -, rfl, -⟩ := StorageReady.snapshot_mem_ops.mp hc'
    rfl
  commit st hst := by
    obtain ⟨hne, rfl⟩ := StorageReady.state_mem_ops.mp hst
    exact h.commit hne

/-! ## What is always on the disk -/

section Saved

variable [Inhabited δ]

/-- The disk has the snapshot and the hard state that are in memory. -/
structure Saved (d : DurableStorage δ) : Prop where
  /-- The log begins with the record of the empty snapshot. -/
  created : d.wal.HasRecord 0 0
  /-- The terms of the snapshots increase with their indices. -/
  ordered : ∀ i t i' t', d.wal.HasRecord i t → d.wal.HasRecord i' t' → i ≤ i' → t ≤ t'
  /-- The snapshot in memory can be loaded. -/
  snapshot : d.snapshot = MemoryStorage.emptySnapshot ∨ d.wal.Loadable d.snapshot
  /-- The log in memory begins after it. -/
  offset_eq : d.memStorage.ents.offset = d.snapshot.index
  /-- The dummy entry has its term. -/
  offsetTerm_eq : d.memStorage.offsetTerm = d.snapshot.term
  /-- The hard state is the last one on the disk. -/
  hardState_eq : d.hardState = Wal.lastState d.wal.records

/-- The log still exists after operations. -/
theorem Saved.created_applyAll (h : Saved s) (ops : List (FileOp δ)) : (s.wal.applyAll ops).HasRecord 0 0 :=
  Wal.hasRecord_applyAll.mpr (.inl h.created)

/-- Operations that fit keep the terms in order. -/
theorem Saved.ordered_applyAll (h : Saved s) (hops : FitOps s ops) (i t i' t' : ℕ)
    (hi : (s.wal.applyAll ops).HasRecord i t) (hi' : (s.wal.applyAll ops).HasRecord i' t') (hle : i ≤ i') :
    t ≤ t' := by
  rcases Wal.hasRecord_applyAll.mp hi with hi | ⟨c, hc⟩
  · rcases Wal.hasRecord_applyAll.mp hi' with hi' | ⟨c', hc'⟩
    · exact h.ordered i t i' t' hi hi' hle
    · exact (hops.inOrder i' t' c' hc' i t hi).1 hle
  · rcases Wal.hasRecord_applyAll.mp hi' with hi' | ⟨c', hc'⟩
    · exact (hops.inOrder i t c hc i' t' hi').2 hle
    · exact (hops.unique i t c i' t' c' hc hc').le

/-- The snapshot in memory stays committed. -/
theorem Saved.index_le_commit (h : Saved s) (hops : FitOps s ops) :
    s.snapshot.index ≤ (s.wal.applyAll ops).commit := by
  unfold Wal.commit
  rw [Wal.lastState_applyAll]
  rcases state_mem_of_foldl (Wal.lastState s.wal.records) (appendedRecords ops) with heq | hmem
  · rw [heq]
    rcases h.snapshot with hempty | hload
    · rw [hempty]
      exact Nat.zero_le _
    · exact hload.committed
  · exact hops.commit _ (mem_appendedRecords.mp hmem)

/-- The snapshot in memory can still be loaded after operations that fit. -/
theorem Saved.snapshot_applyAll (h : Saved s) (hops : FitOps s ops) :
    s.snapshot = MemoryStorage.emptySnapshot ∨ (s.wal.applyAll ops).Loadable s.snapshot := by
  refine h.snapshot.imp_right fun hload => ⟨?_, ?_, h.index_le_commit hops⟩
  · exact Wal.mem_snapFiles_applyAll_of_ne hload.file hops.file
  · exact Wal.hasRecord_applyAll.mpr (.inl hload.record)

/-- After operations that fit, the disk has the snapshot and the hard state again, if a snapshot that is
installed can be loaded. -/
theorem Saved.of_install (h : Saved s) {snap : Snapshot δ} (hops : FitOps s ops)
    (hwal : t.wal = s.wal.applyAll ops) (hst : t.hardState = Wal.lastState t.wal.records)
    (hsnap : t.snapshot = (s.memStorage.install snap).snapshot)
    (hoff : t.memStorage.ents.offset = (s.memStorage.install snap).ents.offset)
    (hterm : t.memStorage.offsetTerm = (s.memStorage.install snap).offsetTerm)
    (hload : s.snapshot.index < snap.index → t.wal.Loadable snap) : Saved t := by
  have hcreated : t.wal.HasRecord 0 0 := hwal ▸ h.created_applyAll ops
  have hordered : ∀ i τ i' τ', t.wal.HasRecord i τ → t.wal.HasRecord i' τ' → i ≤ i' → τ ≤ τ' :=
    hwal ▸ h.ordered_applyAll hops
  rcases Nat.lt_or_ge s.snapshot.index snap.index with hlt | hge
  · obtain ⟨hsnap', hterm', hents'⟩ := MemoryStorage.install_of_lt (m := s.memStorage) hlt
    have hsnap : t.snapshot = snap := hsnap.trans hsnap'
    refine ⟨hcreated, hordered, .inr (hsnap ▸ hload hlt), ?_, ?_, hst⟩
    · rw [hoff, hents', hsnap]
    · rw [hterm, hterm', hsnap]
  · rw [MemoryStorage.install_of_le hge] at hsnap hoff hterm
    have hsnap : t.snapshot = s.snapshot := hsnap
    refine ⟨hcreated, hordered, ?_, ?_, ?_, hst⟩
    · rw [hsnap, hwal]
      exact h.snapshot_applyAll hops
    · rw [hoff, h.offset_eq, hsnap]
    · rw [hterm, h.offsetTerm_eq, hsnap]

/-- After a Ready that fits, the disk has the snapshot and the hard state again. -/
theorem Saved.saveState (h : Saved s) (hfits : rd.Fits s) (ht : saveState disk rd s = .ok () t) : Saved t := by
  obtain ⟨hwal, hst, happend⟩ := saveState_ok ht
  obtain ⟨hsnap, hoffTerm, hents⟩ := MemoryStorage.append_ok happend
  have hlast : t.hardState = Wal.lastState t.wal.records := by
    rw [hwal, Wal.lastState_applyAll, StorageReady.foldl_ops, hst, h.hardState_eq]
  refine h.of_install (fitOps_of_ready hfits) hwal hlast hsnap (Suffix.offset_putAll hents) hoffTerm ?_
  intro hlt
  have hpos : 0 < rd.snapshot.index := Nat.zero_lt_of_lt hlt
  have hcommit := hfits.committed (decide_eq_false (Nat.ne_of_gt hpos))
  rw [hwal]
  refine StorageReady.loadable_ops s.wal hpos ?_
  unfold Wal.commit
  rw [← hwal, ← hlast, hst, HardState.commit_after _ hpos hcommit]
  exact hcommit

/-- The storage has them from the start. -/
theorem saved_fresh : Saved (fresh : DurableStorage δ) where
  created := ⟨_, List.mem_cons_self⟩
  ordered i t i' t' hi hi' _ := by
    have hzero : ∀ {i t}, (fresh : DurableStorage δ).wal.HasRecord i t → t = 0 := by
      rintro i t ⟨c, hc⟩
      cases List.mem_singleton.mp hc
      rfl
    rw [hzero hi, hzero hi']
  snapshot := .inl rfl
  offset_eq := rfl
  offsetTerm_eq := rfl
  hardState_eq := rfl

end Saved

end DurableStorage

end Omashu
