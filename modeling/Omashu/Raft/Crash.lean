import Omashu.Lib.Run
import Omashu.Raft.Saved

/-!
# Crashes while the state is saved

`SaveState` and `CreateSnapshot` write files one after the other, and a crash can come between two of them or
in the middle of one. `SaveSnap` writes the file of a snapshot before its record, so that a snapshot with a
record has a file. Two things are not covered by this order. A record that is only partly written makes
`ReadAll` fail with `io.ErrUnexpectedEOF`, and nothing repairs the log. And the entries of a Ready are written
before its hard state: while the hard state does not commit the snapshot, the snapshot is not loaded, and the
entries behind it leave a gap in the log.

A run is a sequence of calls that complete, and of crashes with a restart after each. Where the calls keep the
disk in order and the crashes are none of those two kinds, every crash can be recovered from
(`Persistence.crash_recovered`): what completed calls have saved is there, and nothing else than what was
passed to the calls.
-/

namespace Omashu

open Lib

variable {δ : Type}

/-! ## Calls and crashes -/

/-- A call of the storage that writes to the disk. -/
inductive StorageCall (δ : Type)
  /-- `Storage.SaveState`. -/
  | saveState (rd : StorageReady δ)
  /-- `Storage.CreateSnapshot`. -/
  | createSnapshot (index : ℕ) (confState : ConfState) (data : δ)

namespace StorageCall

/-- The snapshot that is passed to a call, or made by it. -/
def snapshot? (s : DurableStorage δ) : StorageCall δ → Option (Snapshot δ)
  | saveState rd => some rd.snapshot
  | createSnapshot index confState data =>
    (s.memStorage.term index).toOption.map fun term => ⟨index, term, confState, data⟩

/-- The entries that are passed to a call. -/
def entries : StorageCall δ → List RaftEntry
  | saveState rd => rd.entries
  | createSnapshot _ _ _ => []

/-- The hard state that is passed to a call. -/
def hardState? : StorageCall δ → Option HardState
  | saveState rd => some rd.hardState
  | createSnapshot _ _ _ => none

/-- The operations of a call on files, in their order. `CreateSnapshot` writes nothing if the index has no
term. -/
def ops (s : DurableStorage δ) : StorageCall δ → List (FileOp δ)
  | saveState rd => rd.ops
  | c@(createSnapshot _ _ _) => (c.snapshot? s).elim [] Snapshot.ops

/-- The storage after a call that has returned without an error. -/
def complete (disk : DiskOp → Bool) (s : DurableStorage δ) : StorageCall δ → Option (DurableStorage δ)
  | saveState rd => s.saveStep (disk, rd)
  | createSnapshot index confState data =>
    match Storage.createSnapshot disk index confState data s.toStorage with
    | .ok _ t => some { s with toStorage := t }
    | .error _ _ => none

end StorageCall

/-- The disk without the file of a snapshot that is only partly written. A restart skips it. -/
def Wal.loseFile (w : Wal δ) (snap : Snapshot δ) : Wal δ := { w with snapFiles := w.otherFiles snap }

/-- The disk after some operations, and perhaps a part of the next one. -/
def Wal.cutOff (w : Wal δ) (ops : List (FileOp δ)) (k : ℕ) (partly : Bool) : Wal δ :=
  match partly, ops[k]? with
  | true, some (.file snap) => (w.applyAll (ops.take k)).loseFile snap
  | _, _ => w.applyAll (ops.take k)

/-- Whether the log ends with a record that is only partly written. -/
def tornRecord (ops : List (FileOp δ)) (k : ℕ) (partly : Bool) : Bool :=
  match partly, ops[k]? with
  | true, some (.record _) => true
  | _, _ => false

/-- A storage, with what has been passed to its calls. -/
structure Persistence (δ : Type) where
  storage : DurableStorage δ
  /-- The entries that have been saved, in the order they were passed in. -/
  entries : List RaftEntry
  /-- The snapshots that have been passed to calls, or made by them. -/
  snapshots : List (Snapshot δ)

/-- A step of a run. -/
inductive PersistAction (δ : Type)
  /-- A call completes. -/
  | complete (disk : DiskOp → Bool) (c : StorageCall δ)
  /-- The process crashes in a call, after some operations on files and perhaps a part of the next one, and
  restarts. -/
  | crash (c : StorageCall δ) (k : ℕ) (partly : Bool)

namespace Persistence

section Step

variable [Inhabited δ]

/-- The restart after a crash in a call. -/
def recover (p : Persistence δ) (c : StorageCall δ) (k : ℕ) (partly : Bool) :
    Except InitErr (DurableStorage δ) :=
  DurableStorage.initializeStorage (p.storage.wal.cutOff (c.ops p.storage) k partly)
    (tornRecord (c.ops p.storage) k partly)

/-- What has been passed, with a call of which some operations are done. -/
def pass (p : Persistence δ) (c : StorageCall δ) (k : ℕ) (d : DurableStorage δ) : Persistence δ where
  storage := d
  entries := p.entries ++ loggedEntries (appendedRecords ((c.ops p.storage).take k))
  snapshots := p.snapshots ++ (c.snapshot? p.storage).toList

/-- A step. -/
def step (p : Persistence δ) : PersistAction δ → Option (Persistence δ)
  | .complete disk c => (c.complete disk p.storage).map (p.pass c (c.ops p.storage).length)
  | .crash c k partly => (p.recover c k partly).toOption.map (p.pass c k)

/-- The storage after its first `Initialize`. -/
def init : Persistence δ := ⟨DurableStorage.fresh, [], []⟩

end Step

end Persistence

/-! ## What is asked of calls and crashes -/

/-- A Ready whose entries leave no gap in memory. -/
def StorageReady.GapFree (s : DurableStorage δ) (rd : StorageReady δ) : Prop :=
  ∀ e ∈ rd.entries.head?, e.index ≤ (s.memStorage.install rd.snapshot).lastIndex + 1

instance StorageReady.decidableGapFree (s : DurableStorage δ) (rd : StorageReady δ) :
    Decidable (rd.GapFree s) := inferInstanceAs (Decidable (∀ e ∈ rd.entries.head?, _))

/-- The operations after which a crash leaves a gap: some entries are written and the hard state is not, and
the snapshot before them is neither committed nor inside the log. -/
def StorageReady.Exposed (s : DurableStorage δ) (rd : StorageReady δ) (k : ℕ) : Prop :=
  s.hardState.commit < rd.snapshot.index ∧ s.lastIndex < rd.snapshot.index ∧
    rd.snapshotOps.length < k ∧ k < rd.ops.length

instance StorageReady.decidableExposed (s : DurableStorage δ) (rd : StorageReady δ) (k : ℕ) :
    Decidable (rd.Exposed s k) := inferInstanceAs (Decidable (_ ∧ _ ∧ _ ∧ _))

namespace StorageCall

/-- A call that keeps the disk in order: its snapshot fits and is committed, its hard state keeps the snapshot in
memory committed, and its entries leave no gap. -/
def Fits (s : DurableStorage δ) : StorageCall δ → Prop
  | saveState rd => rd.Fits s ∧ rd.GapFree s
  | c@(createSnapshot _ _ _) => ∀ snap ∈ c.snapshot? s, snap.Fits s ∧ snap.index ≤ s.hardState.commit

instance decidableFits (s : DurableStorage δ) (c : StorageCall δ) : Decidable (c.Fits s) :=
  match c with
  | saveState rd => inferInstanceAs (Decidable (rd.Fits s ∧ rd.GapFree s))
  | createSnapshot i c d => inferInstanceAs (Decidable (∀ snap ∈ (createSnapshot i c d).snapshot? s, _))

/-- A crash that is not in the middle of a record, and does not leave entries behind a snapshot that is not
committed. -/
def SafeCut (s : DurableStorage δ) (c : StorageCall δ) (k : ℕ) (partly : Bool) : Prop :=
  tornRecord (c.ops s) k partly = false ∧
    match c with
    | saveState rd => ¬rd.Exposed s k
    | createSnapshot _ _ _ => True

instance decidableSafeCut (s : DurableStorage δ) (c : StorageCall δ) (k : ℕ) (partly : Bool) :
    Decidable (c.SafeCut s k partly) :=
  match c with
  | saveState _ | createSnapshot _ _ _ => inferInstanceAs (Decidable (_ ∧ _))

end StorageCall

/-- The steps that a run may take. -/
def PersistAction.Allowed (p : Persistence δ) : PersistAction δ → Prop
  | complete _ c => c.Fits p.storage
  | crash c k partly => c.Fits p.storage ∧ c.SafeCut p.storage k partly

instance PersistAction.decidableAllowed (p : Persistence δ) (a : PersistAction δ) : Decidable (a.Allowed p) :=
  match a with
  | .complete _ c => inferInstanceAs (Decidable (c.Fits p.storage))
  | .crash _ _ _ => inferInstanceAs (Decidable (_ ∧ _))

/-! ## What the disk keeps -/

/-- No two snapshot files have the same name, and none is that of the empty snapshot. -/
structure Wal.Tidy (w : Wal δ) : Prop where
  /-- A name belongs to one file. -/
  named : ∀ f ∈ w.snapFiles, ∀ g ∈ w.snapFiles, f.term = g.term → f.index = g.index → f = g
  /-- No file is written for the empty snapshot. -/
  pos : ∀ f ∈ w.snapFiles, 0 < f.index

/-- The log on the disk keeps what is in memory, and may go on after it. -/
def Wal.Keeps (w : Wal δ) (m : MemoryStorage δ) : Prop :=
  ∃ ents, Suffix.putAll RaftEntry.index ⟨m.snapshot.index, []⟩ (loggedEntries w.records) = some ents ∧
    m.ents.Kept ents

namespace Wal

variable {w w' : Wal δ} {m m' : MemoryStorage δ} {ops : List (FileOp δ)} {snap : Snapshot δ}

/-- Operations leave the files tidy. -/
theorem Tidy.applyAll (h : w.Tidy) (hops : ∀ f, FileOp.file f ∈ ops → 0 < f.index) :
    (w.applyAll ops).Tidy := by
  induction ops generalizing w with
  | nil => exact h
  | cons op ops ih =>
    refine ih ?_ fun f hf => hops f (List.mem_cons_of_mem op hf)
    cases op with
    | record r => exact ⟨h.named, h.pos⟩
    | file g =>
      -- The other files have other names.
      have hother : ∀ f ∈ w.otherFiles g, f ∈ w.snapFiles ∧ ¬(f.term = g.term ∧ f.index = g.index) :=
        fun f hf => ⟨(List.mem_filter.mp hf).1, of_decide_eq_true (List.mem_filter.mp hf).2⟩
      refine ⟨fun f hf f' hf' hterm hindex => ?_, fun f hf => ?_⟩
      · rcases List.mem_cons.mp hf with rfl | hf
        · rcases List.mem_cons.mp hf' with rfl | hf'
          · rfl
          · exact absurd ⟨hterm.symm, hindex.symm⟩ (hother f' hf').2
        · rcases List.mem_cons.mp hf' with rfl | hf'
          · exact absurd ⟨hterm, hindex⟩ (hother f hf).2
          · exact h.named f (hother f hf).1 f' (hother f' hf').1 hterm hindex
      · rcases List.mem_cons.mp hf with rfl | hf
        · exact hops f List.mem_cons_self
        · exact h.pos f (hother f hf).1

/-- Fewer files are tidy as well. -/
theorem Tidy.of_subset (h : w.Tidy) (hsub : ∀ f ∈ w'.snapFiles, f ∈ w.snapFiles) : w'.Tidy :=
  ⟨fun f hf g hg => h.named f (hsub f hf) g (hsub g hg), fun f hf => h.pos f (hsub f hf)⟩

/-- A snapshot that is installed in memory leaves the log to the disk. -/
theorem Keeps.install (h : w.Keeps m) (snap : Snapshot δ) : w.Keeps (m.install snap) := by
  rcases Nat.lt_or_ge m.snapshot.index snap.index with hlt | hge
  · obtain ⟨hsnap, -, hents⟩ := MemoryStorage.install_of_lt hlt
    obtain ⟨ents, hents₀, -⟩ := h
    have hkept : Suffix.Kept ⟨m.snapshot.index, []⟩ (⟨snap.index, []⟩ : Suffix RaftEntry) :=
      Suffix.Kept.nil hlt.le
    obtain ⟨ents', hents', -⟩ := hkept.putAll hents₀
    unfold Keeps
    rw [hsnap, hents]
    exact ⟨ents', hents', Suffix.Kept.of_putAll hents'⟩
  · rw [MemoryStorage.install_of_le hge]
    exact h

/-- Entries that are appended in memory and logged are kept. -/
theorem Keeps.append (h : w.Keeps m) {b : EntryBatch} (hm : m.append b = .ok m')
    (hw : loggedEntries w'.records = loggedEntries w.records ++ b.entries) : w'.Keeps m' := by
  obtain ⟨hsnap, -, hents⟩ := MemoryStorage.append_ok hm
  obtain ⟨ents, hents₀, hkept⟩ := h
  obtain ⟨ents', hents', hkept'⟩ := hkept.putAll hents
  refine ⟨ents', ?_, hkept'⟩
  rw [hsnap, hw, Suffix.putAll_append, hents₀]
  exact hents'

/-- The first of some entries can be logged where all of them could be appended in memory. -/
theorem Keeps.exists_putAll (h : w.Keeps m) {es : List RaftEntry}
    (hcons : Suffix.Consecutive RaftEntry.index es) (hgap : ∀ e ∈ es.head?, e.index ≤ m.lastIndex + 1)
    (j : ℕ) :
    ∃ ents, Suffix.putAll RaftEntry.index ⟨m.snapshot.index, []⟩ (loggedEntries w.records ++ es.take j) =
      some ents := by
  obtain ⟨ents, hents, hkept⟩ := h
  have hhead : ∀ e, (es.take j).head? = some e → e.index ≤ ents.last + 1 := by
    intro e he
    rw [List.head?_take] at he
    split_ifs at he
    exact (hgap e he).trans (Nat.succ_le_succ hkept.last_le)
  obtain ⟨ents', hents'⟩ := Suffix.exists_putAll (hcons.take j) hhead
  refine ⟨ents', ?_⟩
  rw [Suffix.putAll_append, hents]
  exact hents'

/-! ## The disk after a crash -/

/-- A crash leaves the records of the operations that are done. -/
theorem records_cutOff (w : Wal δ) (ops : List (FileOp δ)) (k : ℕ) (partly : Bool) :
    (w.cutOff ops k partly).records = (w.applyAll (ops.take k)).records := by
  unfold cutOff
  split
  · rfl
  · rfl

/-- A crash leaves no other files than the operations that are done. -/
theorem mem_snapFiles_of_cutOff {k : ℕ} {partly : Bool} (h : snap ∈ (w.cutOff ops k partly).snapFiles) :
    snap ∈ (w.applyAll (ops.take k)).snapFiles := by
  unfold cutOff at h
  split at h
  · exact (List.mem_filter.mp h).1
  · exact h

/-- A crash leaves a file that has another name than those that are written. -/
theorem mem_snapFiles_cutOff_of_ne {k : ℕ} {partly : Bool}
    (h : snap ∈ (w.applyAll (ops.take k)).snapFiles)
    (hops : ∀ f, FileOp.file f ∈ ops → f.index ≠ snap.index) :
    snap ∈ (w.cutOff ops k partly).snapFiles := by
  unfold cutOff
  split
  next f heq =>
    have hne := hops f (List.mem_of_getElem? heq)
    exact List.mem_filter.mpr ⟨h, decide_eq_true fun hname => hne hname.2.symm⟩
  next => exact h

/-- The snapshots that a crash leaves can be loaded as before the part of an operation. -/
theorem Loadable.cutOff {k : ℕ} {partly : Bool} (h : (w.applyAll (ops.take k)).Loadable snap)
    (hfile : snap ∈ (w.cutOff ops k partly).snapFiles) : (w.cutOff ops k partly).Loadable snap := by
  refine ⟨hfile, ?_, ?_⟩
  · unfold HasRecord
    rw [records_cutOff]
    exact h.record
  · unfold commit
    rw [records_cutOff]
    exact h.committed

/-- After its snapshot a Ready writes only records. -/
theorem cutOff_of_le {rd : StorageReady δ} {k : ℕ} (hk : rd.snapshotOps.length ≤ k) (partly : Bool) :
    w.cutOff rd.ops k partly = w.applyAll (rd.ops.take k) := by
  unfold cutOff
  split
  next f heq =>
    unfold StorageReady.ops at heq
    rw [List.getElem?_append_right hk, List.getElem?_map] at heq
    obtain ⟨r, -, hr⟩ := Option.map_eq_some_iff.mp heq
    cases hr
  next => rfl

end Wal

namespace StorageCall

variable {s t : DurableStorage δ} {c : StorageCall δ} {disk : DiskOp → Bool} {rd : StorageReady δ}

/-- `CreateSnapshot` writes the file and the record of the snapshot that it makes. -/
theorem mem_ops_createSnapshot {i : ℕ} {cs : ConfState} {d : δ} {op : FileOp δ}
    (h : op ∈ (createSnapshot i cs d).ops s) : ∃ snap ∈ (createSnapshot i cs d).snapshot? s,
      snap.isEmptySnap = false ∧ op = .file snap ∨
        op = .record (.snapshot snap.index snap.term snap.confState) := by
  change op ∈ ((createSnapshot i cs d).snapshot? s).elim [] Snapshot.ops at h
  cases hsnap : (createSnapshot i cs d).snapshot? s with
  | none =>
    rw [hsnap] at h
    exact absurd h List.not_mem_nil
  | some snap =>
    rw [hsnap] at h
    exact ⟨snap, rfl, Snapshot.mem_ops.mp h⟩

/-- The only record of `CreateSnapshot` is that of the snapshot. -/
theorem record_mem_createSnapshot {i : ℕ} {cs : ConfState} {d : δ} {r : WalRecord}
    (h : FileOp.record r ∈ (createSnapshot i cs d).ops s) : ∃ snap ∈ (createSnapshot i cs d).snapshot? s,
      r = .snapshot snap.index snap.term snap.confState := by
  obtain ⟨snap, hsnap, ⟨-, hop⟩ | hop⟩ := mem_ops_createSnapshot h
  · cases hop
  · exact ⟨snap, hsnap, FileOp.record.inj hop⟩

/-- The files that a call writes are those of its snapshot, which is not empty. -/
theorem file_mem_ops {f : Snapshot δ} (h : FileOp.file f ∈ c.ops s) : 0 < f.index ∧ c.snapshot? s = some f := by
  cases c with
  | saveState rd =>
    obtain ⟨hempty, rfl⟩ := StorageReady.file_mem_ops.mp h
    exact ⟨Nat.pos_of_ne_zero (of_decide_eq_false hempty), rfl⟩
  | createSnapshot i cs d =>
    obtain ⟨snap, hsnap, ⟨hempty, hop⟩ | hop⟩ := mem_ops_createSnapshot h
    · obtain rfl := FileOp.file.inj hop
      exact ⟨Nat.pos_of_ne_zero (of_decide_eq_false hempty), hsnap⟩
    · cases hop

/-- The operations of a call that fits. -/
theorem Fits.fitOps (h : c.Fits s) : s.FitOps (c.ops s) := by
  cases c with
  | saveState rd => exact DurableStorage.fitOps_of_ready h.1
  | createSnapshot i cs d =>
    refine ⟨fun f hf => ?_, fun i t c hc => ?_, fun i t c i' t' c' hc hc' => ?_, fun st hst => ?_⟩
    · exact (h f (file_mem_ops hf).2).1.index_ne
    · obtain ⟨snap, hsnap, heq⟩ := record_mem_createSnapshot hc
      obtain ⟨rfl, rfl, -⟩ := WalRecord.snapshot.inj heq
      exact DurableStorage.inOrder_of_fits (h snap hsnap).1
    · obtain ⟨snap, hsnap, heq⟩ := record_mem_createSnapshot hc
      obtain ⟨snap', hsnap', heq'⟩ := record_mem_createSnapshot hc'
      obtain rfl : snap = snap' := Option.some.inj (hsnap.symm.trans hsnap')
      rw [(WalRecord.snapshot.inj heq).2.1, (WalRecord.snapshot.inj heq').2.1]
    · obtain ⟨snap, -, heq⟩ := record_mem_createSnapshot hst
      cases heq

/-- `CreateSnapshot` logs no entries. -/
theorem loggedEntries_createSnapshot (s : DurableStorage δ) (i : ℕ) (cs : ConfState) (d : δ) (k : ℕ) :
    loggedEntries (appendedRecords (((createSnapshot i cs d).ops s).take k)) = [] := by
  refine List.eq_nil_iff_forall_not_mem.mpr fun e he => ?_
  have hop := List.mem_of_mem_take (mem_appendedRecords.mp (mem_loggedEntries.mp he))
  obtain ⟨snap, -, heq⟩ := record_mem_createSnapshot hop
  cases heq

/-- The entries that are logged are passed to the call. -/
theorem mem_entries_of_logged {k : ℕ} {e : RaftEntry}
    (he : e ∈ loggedEntries (appendedRecords ((c.ops s).take k))) : e ∈ c.entries := by
  cases c with
  | saveState rd =>
    have hop : FileOp.record (.entry e) ∈ rd.ops :=
      List.mem_of_mem_take (mem_appendedRecords.mp (mem_loggedEntries.mp he))
    have hmem : e ∈ loggedEntries (appendedRecords rd.ops) :=
      mem_loggedEntries.mpr (mem_appendedRecords.mpr hop)
    rwa [StorageReady.loggedEntries_ops] at hmem
  | createSnapshot i cs d =>
    rw [loggedEntries_createSnapshot] at he
    exact absurd he List.not_mem_nil

/-- The hard states that a call writes are passed to it. -/
theorem state_mem_ops {st : HardState} (h : FileOp.record (.state st) ∈ c.ops s) :
    c.hardState? = some st := by
  cases c with
  | saveState rd =>
    obtain ⟨-, rfl⟩ := StorageReady.state_mem_ops.mp h
    rfl
  | createSnapshot i cs d =>
    obtain ⟨snap, -, heq⟩ := record_mem_createSnapshot h
    cases heq

end StorageCall

namespace Persistence

/-! ## Recovery -/

/-- An entry that is saved and has not been replaced: no entry after it has its index or a lower one. -/
def Persisted (l : List RaftEntry) (e : RaftEntry) : Prop :=
  ∃ l₁ l₂, l = l₁ ++ e :: l₂ ∧ ∀ e' ∈ l₂, e.index < e'.index

/-- An entry that is saved is in the log that is replayed, unless a snapshot covers it or an entry that is
saved later replaces it. -/
theorem Persisted.replayed {l es : List RaftEntry} {e : RaftEntry} {i : ℕ} {ents : Suffix RaftEntry}
    (h : Persisted l e) (hents : Suffix.putAll RaftEntry.index ⟨i, []⟩ (l ++ es) = some ents) :
    e.index ≤ i ∨ ents.get? e.index = some e ∨
      ∃ e' ∈ es, e'.index ≤ e.index ∧ ents.get? e'.index = some e' := by
  obtain ⟨l₁, l₂, rfl, hlater⟩ := h
  rw [List.append_assoc, Suffix.putAll_append] at hents
  obtain ⟨ents₁, hents₁, hents⟩ := Option.bind_eq_some_iff.mp hents
  have hoff : ents₁.offset = i := Suffix.offset_putAll hents₁
  obtain ⟨ents₂, hput, hents⟩ := Option.bind_eq_some_iff.mp hents
  change Suffix.putAll RaftEntry.index ents₂ (l₂ ++ es) = some ents at hents
  rw [Suffix.putAll_append] at hents
  obtain ⟨ents₃, hents₃, hents⟩ := Option.bind_eq_some_iff.mp hents
  rcases Nat.lt_or_ge i e.index with hlt | hge
  · have hget : ents₂.get? e.index = some e := by
      rw [Suffix.get?_put hput (hoff ▸ hlt), if_neg (Nat.lt_irrefl _), if_pos rfl]
    -- What was saved after it has higher indices, so only the entries of the last call can replace it.
    rcases Suffix.get?_putAll hents₃ hget with hget | ⟨e', he', hle, -⟩
    · exact .inr (Suffix.get?_putAll hents hget)
    · exact absurd (hlater e' he') (Nat.not_lt.mpr hle)
  · exact .inl hge

/-- What a restart after a crash in a call has to give back. -/
structure Recovered [Inhabited δ] (p : Persistence δ) (c : StorageCall δ) (t : DurableStorage δ) : Prop where
  /-- The snapshot is the one that was there or a newer one. -/
  snapshot : t.snapshot = p.storage.snapshot ∨ p.storage.snapshot.index < t.snapshot.index
  /-- It has been passed to a call, if there is one at all. -/
  snapshot_passed : t.snapshot = MemoryStorage.emptySnapshot ∨ t.snapshot ∈ p.snapshots ∨
    c.snapshot? p.storage = some t.snapshot
  /-- The hard state is the one that was there, or that of the call. -/
  hardState : t.hardState = p.storage.hardState ∨ c.hardState? = some t.hardState
  /-- An entry that was there is covered by the snapshot, is in the log, or has been replaced by one of the
  call. -/
  entries : ∀ e, Persisted p.entries e → e.index ≤ t.snapshot.index ∨
    t.memStorage.ents.get? e.index = some e ∨
    ∃ e' ∈ c.entries, e'.index ≤ e.index ∧ t.memStorage.ents.get? e'.index = some e'
  /-- Every entry of the log has been passed to a call. -/
  entries_passed : ∀ j e, t.memStorage.ents.get? j = some e → e ∈ p.entries ∨ e ∈ c.entries

/-- What holds in every state of a run. -/
structure Inv [Inhabited δ] (p : Persistence δ) : Prop where
  /-- The snapshot and the hard state are on the disk. -/
  saved : p.storage.Saved
  /-- The log is on the disk. -/
  keeps : p.storage.wal.Keeps p.storage.memStorage
  /-- The snapshot files are in order. -/
  tidy : p.storage.wal.Tidy
  /-- The entries on the disk are those that have been saved. -/
  entries_eq : loggedEntries p.storage.wal.records = p.entries
  /-- The files are those of snapshots that have been passed. -/
  snapshots : ∀ f ∈ p.storage.wal.snapFiles, f ∈ p.snapshots

/-- The disk after a crash in a call that has logged some entries. -/
structure Interrupted [Inhabited δ] (p : Persistence δ) (c : StorageCall δ) (es : List RaftEntry) (w : Wal δ) :
    Prop where
  /-- A restart comes at least to the snapshot in memory. -/
  restartable : ∃ index, p.storage.snapshot.index ≤ index ∧ w.Restartable index
  /-- The snapshot in memory can be loaded. -/
  snapshot : p.storage.snapshot = MemoryStorage.emptySnapshot ∨ w.Loadable p.storage.snapshot
  /-- The files are in order. -/
  tidy : w.Tidy
  /-- The entries on the disk are those from before and those of the call. -/
  entries_eq : loggedEntries w.records = p.entries ++ es
  /-- Those of the call have been passed to it. -/
  entries_passed : ∀ e ∈ es, e ∈ c.entries
  /-- The files are those of snapshots that have been passed. -/
  snapshots : ∀ f ∈ w.snapFiles, f ∈ p.snapshots ∨ c.snapshot? p.storage = some f
  /-- The hard state is the one from before or that of the call. -/
  hardState : Wal.lastState w.records = p.storage.hardState ∨
    c.hardState? = some (Wal.lastState w.records)

variable [Inhabited δ] {p q : Persistence δ} {c : StorageCall δ} {w : Wal δ} {es : List RaftEntry}

/-- A restart from such a disk loads the snapshot that was in memory or a newer one: one at the same index has
the same name. -/
theorem Interrupted.snapshot_of_restarted (h : Interrupted p c es w) {index : ℕ} {t : DurableStorage δ}
    (hrestart : w.Restartable index) (hr : t.Restarted w index) (hle : p.storage.snapshot.index ≤ index) :
    t.snapshot = p.storage.snapshot ∨ p.storage.snapshot.index < t.snapshot.index := by
  rcases Nat.lt_or_ge p.storage.snapshot.index t.snapshot.index with hlt | hge
  · exact .inr hlt
  · have heq : t.snapshot.index = p.storage.snapshot.index :=
      Nat.le_antisymm hge (hle.trans hr.index_le)
    refine .inl ?_
    rcases hr.loaded with hempty | hload
    · rcases h.snapshot with hempty' | hload'
      · rw [hempty, hempty']
      · have hpos := h.tidy.pos _ hload'.file
        rw [← heq, hempty] at hpos
        exact absurd hpos (Nat.lt_irrefl 0)
    · rcases h.snapshot with hempty' | hload'
      · have hpos := h.tidy.pos _ hload.file
        rw [heq, hempty'] at hpos
        exact absurd hpos (Nat.lt_irrefl 0)
      · refine h.tidy.named _ hload.file _ hload'.file (Nat.le_antisymm ?_ ?_) heq
        · exact hrestart.ordered _ _ _ _ hload.record hload'.record heq.le
        · exact hrestart.ordered _ _ _ _ hload'.record hload.record heq.ge

/-- A restart from such a disk gives back what it has to. -/
theorem Interrupted.recovered (h : Interrupted p c es w) {index : ℕ} {t : DurableStorage δ}
    (hrestart : w.Restartable index) (hr : t.Restarted w index) (hle : p.storage.snapshot.index ≤ index) :
    Recovered p c t := by
  have hents := hr.replayed
  rw [h.entries_eq] at hents
  refine ⟨h.snapshot_of_restarted hrestart hr hle, ?_, ?_, ?_, ?_⟩
  · exact hr.loaded.imp_right fun hload => h.snapshots _ hload.file
  · rw [hr.hardState_eq]
    exact h.hardState
  · intro e he
    rcases he.replayed hents with hcovered | hget | ⟨e', he', hle', hget⟩
    · exact .inl hcovered
    · exact .inr (.inl hget)
    · exact .inr (.inr ⟨e', h.entries_passed e' he', hle', hget⟩)
  · intro j e he
    rcases Suffix.mem_of_get?_putAll hents he with hnil | hmem
    · simp [Suffix.get?] at hnil
    · exact (List.mem_append.mp hmem).imp_right (h.entries_passed e)

/-- A restart from such a disk leaves the storage as it has to be. -/
theorem Interrupted.inv (h : Interrupted p c es w) {index : ℕ} {t : DurableStorage δ}
    (hrestart : w.Restartable index) (hr : t.Restarted w index) :
    Inv ⟨t, p.entries ++ es, p.snapshots ++ (c.snapshot? p.storage).toList⟩ := by
  obtain rfl := hr.wal_eq
  refine ⟨⟨hrestart.created, hrestart.ordered, hr.loaded, ?_, hr.offsetTerm_eq, hr.hardState_eq⟩, ?_, h.tidy,
    h.entries_eq, fun f hf => ?_⟩
  · exact Suffix.offset_putAll hr.replayed
  · exact ⟨_, hr.replayed, Suffix.Kept.refl _⟩
  · rcases h.snapshots f hf with hmem | hpassed
    · exact List.mem_append_left _ hmem
    · exact List.mem_append_right _ (Option.mem_toList.mpr hpassed)

/-! ## Crashes that leave enough on the disk -/

/-- What a crash leaves is enough for a restart if a snapshot can be loaded and the entries above it leave no
gap. -/
theorem Inv.restartable (h : Inv p) (hfits : c.Fits p.storage) {k index : ℕ} {partly : Bool}
    (hsnap : index = 0 ∨ ∃ snap, snap.index = index ∧
      (p.storage.wal.cutOff (c.ops p.storage) k partly).Loadable snap)
    (hents : ∃ ents, Suffix.putAll RaftEntry.index ⟨index, []⟩ (loggedEntries p.storage.wal.records ++
      loggedEntries (appendedRecords ((c.ops p.storage).take k))) = some ents) :
    (p.storage.wal.cutOff (c.ops p.storage) k partly).Restartable index := by
  have hops : p.storage.FitOps ((c.ops p.storage).take k) :=
    hfits.fitOps.mono fun op hop => List.mem_of_mem_take hop
  have hrecords := Wal.records_cutOff p.storage.wal (c.ops p.storage) k partly
  refine ⟨?_, ?_, hsnap, ?_⟩
  · unfold Wal.HasRecord
    rw [hrecords]
    exact h.saved.created_applyAll _
  · unfold Wal.HasRecord
    rw [hrecords]
    exact h.saved.ordered_applyAll hops
  · rw [hrecords, Wal.loggedEntries_applyAll]
    exact hents

/-- The snapshot in memory can be loaded after a crash. -/
theorem Inv.snapshot_cutOff (h : Inv p) (hfits : c.Fits p.storage) (k : ℕ) (partly : Bool) :
    p.storage.snapshot = MemoryStorage.emptySnapshot ∨
      (p.storage.wal.cutOff (c.ops p.storage) k partly).Loadable p.storage.snapshot := by
  have hops : p.storage.FitOps ((c.ops p.storage).take k) :=
    hfits.fitOps.mono fun op hop => List.mem_of_mem_take hop
  refine (h.saved.snapshot_applyAll hops).imp_right fun hload => hload.cutOff ?_
  exact Wal.mem_snapFiles_cutOff_of_ne hload.file hfits.fitOps.file

/-- A crash leaves enough for a restart from the snapshot in memory if the entries of the call leave no gap
there. -/
theorem Inv.restartable_memory (h : Inv p) (hfits : c.Fits p.storage) {k : ℕ} {partly : Bool}
    (hents : ∃ ents, Suffix.putAll RaftEntry.index ⟨p.storage.snapshot.index, []⟩
      (loggedEntries p.storage.wal.records ++
        loggedEntries (appendedRecords ((c.ops p.storage).take k))) = some ents) :
    ∃ index, p.storage.snapshot.index ≤ index ∧
      (p.storage.wal.cutOff (c.ops p.storage) k partly).Restartable index := by
  refine ⟨p.storage.snapshot.index, le_rfl, h.restartable hfits ?_ hents⟩
  rcases h.snapshot_cutOff hfits k partly with hempty | hload
  · rw [hempty]
    exact .inl rfl
  · exact .inr ⟨_, rfl, hload⟩

/-- The snapshot of a Ready can be loaded once some of its entries are written, if it is committed by the hard
state on the disk, or by its own and all operations are done. -/
theorem Inv.loadable_ready (h : Inv p) {rd : StorageReady δ} (hfits : rd.Fits p.storage) {k : ℕ}
    (hlt : p.storage.snapshot.index < rd.snapshot.index) (hk : rd.snapshotOps.length < k)
    (hcommit : rd.snapshot.index ≤ p.storage.hardState.commit ∨ rd.ops.length ≤ k) (partly : Bool) :
    (p.storage.wal.cutOff rd.ops k partly).Loadable rd.snapshot := by
  have hempty : rd.snapshot.isEmptySnap = false :=
    decide_eq_false (Nat.ne_of_gt (Nat.zero_lt_of_lt hlt))
  -- The file and the record come first.
  have hmem : ∀ op ∈ rd.snapshotOps, op ∈ rd.ops.take k := by
    intro op hop
    unfold StorageReady.ops
    rw [List.take_append, List.take_of_length_le hk.le]
    exact List.mem_append_left _ hop
  rw [StorageReady.snapshotOps_of_not_empty hempty] at hmem
  rw [Wal.cutOff_of_le hk.le]
  refine Wal.loadable_applyAll (hmem _ List.mem_cons_self) ⟨_, hmem _ (List.mem_cons_of_mem _ List.mem_cons_self)⟩
    (fun f hf => (StorageReady.file_mem_ops.mp (List.mem_of_mem_take hf)).2) ?_
  unfold Wal.commit
  rw [Wal.lastState_applyAll, ← h.saved.hardState_eq]
  rcases hcommit with hold | hdone
  · -- The hard state is the one from before, or that of the Ready.
    rcases state_mem_of_foldl p.storage.hardState (appendedRecords (rd.ops.take k)) with heq | hstate
    · rw [heq]
      exact hold
    · have hop := List.mem_of_mem_take (mem_appendedRecords.mp hstate)
      rw [(StorageReady.state_mem_ops.mp hop).2]
      exact hfits.committed hempty
  · rw [List.take_of_length_le hdone, StorageReady.foldl_ops,
      HardState.commit_after _ (Nat.zero_lt_of_lt hlt) (hfits.committed hempty)]
    exact hfits.committed hempty

/-- A crash in `SaveState` leaves enough for a restart. -/
theorem Inv.restartable_saveState (h : Inv p) {rd : StorageReady δ} {k : ℕ} {partly : Bool}
    (hfits : (StorageCall.saveState rd).Fits p.storage) (hcut : ¬rd.Exposed p.storage k) :
    ∃ index, p.storage.snapshot.index ≤ index ∧ (p.storage.wal.cutOff rd.ops k partly).Restartable index := by
  have hlogged : ∀ n, loggedEntries (appendedRecords (((StorageCall.saveState rd).ops p.storage).take n)) =
      rd.entries.take (n - rd.snapshotOps.length) := StorageReady.loggedEntries_take_ops rd
  have hcons : Suffix.Consecutive RaftEntry.index rd.entries := rd.batch.consecutive
  -- A restart from the snapshot in memory does if the entries leave no gap in the log that was there.
  have hmemory : (∀ e ∈ rd.entries.head?, e.index ≤ p.storage.lastIndex + 1) →
      ∃ index, p.storage.snapshot.index ≤ index ∧
        (p.storage.wal.cutOff rd.ops k partly).Restartable index := by
    intro hgap
    refine h.restartable_memory hfits ?_
    rw [hlogged]
    exact h.keeps.exists_putAll hcons hgap _
  rcases Nat.lt_or_ge p.storage.snapshot.index rd.snapshot.index with hlt | hge
  · obtain ⟨hsnap, -, hents⟩ := MemoryStorage.install_of_lt (m := p.storage.memStorage) hlt
    have hlast : (p.storage.memStorage.install rd.snapshot).lastIndex = rd.snapshot.index := by
      unfold MemoryStorage.lastIndex
      rw [hents]
      rfl
    rcases Nat.lt_or_ge rd.snapshotOps.length k with hk | hk
    · by_cases hload : rd.snapshot.index ≤ p.storage.hardState.commit ∨ rd.ops.length ≤ k
      · -- The snapshot of the Ready is there, and its entries follow it.
        refine ⟨rd.snapshot.index, hlt.le, h.restartable hfits (.inr ⟨_, rfl, ?_⟩) ?_⟩
        · exact h.loadable_ready hfits.1 hlt hk hload partly
        · rw [hlogged, ← hsnap]
          exact (h.keeps.install rd.snapshot).exists_putAll hcons hfits.2 _
      · -- It is not, but it lies inside the log.
        obtain ⟨hcommit, hdone⟩ := not_or.mp hload
        have hinside : rd.snapshot.index ≤ p.storage.lastIndex := by
          by_contra hout
          exact hcut ⟨Nat.lt_of_not_le hcommit, Nat.lt_of_not_le hout, hk, Nat.lt_of_not_le hdone⟩
        refine hmemory fun e he => (hfits.2 e he).trans ?_
        rw [hlast]
        exact Nat.succ_le_succ hinside
    · -- No entry is written yet.
      refine h.restartable_memory hfits ?_
      rw [hlogged, Nat.sub_eq_zero_of_le hk, List.take_zero, List.append_nil]
      obtain ⟨ents, hents₀, -⟩ := h.keeps
      exact ⟨ents, hents₀⟩
  · refine hmemory fun e he => (hfits.2 e he).trans ?_
    rw [MemoryStorage.install_of_le hge]
    exact le_rfl

/-- A crash in a call leaves what a restart needs. -/
theorem Inv.interrupted (h : Inv p) {k : ℕ} {partly : Bool} (hfits : c.Fits p.storage)
    (hcut : c.SafeCut p.storage k partly) :
    Interrupted p c (loggedEntries (appendedRecords ((c.ops p.storage).take k)))
      (p.storage.wal.cutOff (c.ops p.storage) k partly) where
  restartable := by
    cases c with
    | saveState rd => exact h.restartable_saveState hfits hcut.2
    | createSnapshot i cs d =>
      refine h.restartable_memory hfits ?_
      rw [StorageCall.loggedEntries_createSnapshot, List.append_nil]
      obtain ⟨ents, hents, -⟩ := h.keeps
      exact ⟨ents, hents⟩
  snapshot := h.snapshot_cutOff hfits k partly
  tidy := by
    have htidy : (p.storage.wal.applyAll ((c.ops p.storage).take k)).Tidy :=
      h.tidy.applyAll fun f hf => (StorageCall.file_mem_ops (List.mem_of_mem_take hf)).1
    exact htidy.of_subset fun f hf => Wal.mem_snapFiles_of_cutOff hf
  entries_eq := by
    rw [Wal.records_cutOff, Wal.loggedEntries_applyAll, h.entries_eq]
  entries_passed _ he := StorageCall.mem_entries_of_logged he
  snapshots f hf := by
    rcases Wal.mem_of_mem_snapFiles_applyAll (Wal.mem_snapFiles_of_cutOff hf) with hold | hnew
    · exact .inl (h.snapshots f hold)
    · exact .inr (StorageCall.file_mem_ops (List.mem_of_mem_take hnew)).2
  hardState := by
    rw [Wal.records_cutOff, Wal.lastState_applyAll, ← h.saved.hardState_eq]
    rcases state_mem_of_foldl p.storage.hardState (appendedRecords ((c.ops p.storage).take k)) with
      heq | hstate
    · exact .inl heq
    · exact .inr (StorageCall.state_mem_ops (List.mem_of_mem_take (mem_appendedRecords.mp hstate)))

/-- A crash in a call can be recovered from. -/
theorem Inv.recover (h : Inv p) {k : ℕ} {partly : Bool} (hfits : c.Fits p.storage)
    (hcut : c.SafeCut p.storage k partly) :
    ∃ t, p.recover c k partly = .ok t ∧ Recovered p c t ∧ Inv (p.pass c k t) := by
  have hinterrupted := h.interrupted hfits hcut
  obtain ⟨index, hle, hrestart⟩ := hinterrupted.restartable
  obtain ⟨t, ht, hr⟩ := DurableStorage.exists_restarted hrestart
  refine ⟨t, ?_, hinterrupted.recovered hrestart hr hle, hinterrupted.inv hrestart hr⟩
  unfold Persistence.recover
  rw [hcut.1]
  exact ht

/-! ## Calls that complete -/

/-- A call that completes leaves the storage as it has to be. -/
theorem Inv.pass (h : Inv p) {d : DurableStorage δ}
    (hwal : d.wal = p.storage.wal.applyAll (c.ops p.storage)) (hsaved : d.Saved)
    (hkeeps : d.wal.Keeps d.memStorage) : Inv (p.pass c (c.ops p.storage).length d) where
  saved := hsaved
  keeps := hkeeps
  tidy := by
    change d.wal.Tidy
    rw [hwal]
    exact h.tidy.applyAll fun f hf => (StorageCall.file_mem_ops hf).1
  entries_eq := by
    change loggedEntries d.wal.records =
      p.entries ++ loggedEntries (appendedRecords ((c.ops p.storage).take (c.ops p.storage).length))
    rw [hwal, Wal.loggedEntries_applyAll, h.entries_eq, List.take_length]
  snapshots f hf := by
    change f ∈ d.wal.snapFiles at hf
    rw [hwal] at hf
    rcases Wal.mem_of_mem_snapFiles_applyAll hf with hold | hnew
    · exact List.mem_append_left _ (h.snapshots f hold)
    · exact List.mem_append_right _ (Option.mem_toList.mpr (StorageCall.file_mem_ops hnew).2)

/-- `CreateSnapshot` saves its snapshot and installs it in memory. There is nothing left to compact. -/
theorem complete_createSnapshot {s d : DurableStorage δ} {disk : DiskOp → Bool} {i : ℕ} {cs : ConfState}
    {data : δ} (hs : s.Saved)
    (h : (StorageCall.createSnapshot i cs data).complete disk s = some d) :
    ∃ snap ∈ (StorageCall.createSnapshot i cs data).snapshot? s, snap.index = i ∧
      d.wal = s.wal.applyAll snap.ops ∧ d.memStorage = s.memStorage.install snap ∧
      d.hardState = s.hardState := by
  unfold StorageCall.complete at h
  dsimp only at h
  split at h
  next t heq =>
    obtain rfl := Option.some.inj h
    obtain ⟨τ, m, hτ, happly, hcompact⟩ := Storage.createSnapshot_ok heq
    refine ⟨⟨i, τ, cs, data⟩, ?_, rfl, Storage.wal_createSnapshot heq hτ, ?_, rfl⟩
    · change (s.memStorage.term i).toOption.map _ = _
      rw [hτ]
      rfl
    · obtain rfl := MemoryStorage.eq_install happly
      obtain ⟨hlo, -⟩ := MemoryStorage.bounds_of_term hτ
      rcases hcompact with hcompact | ⟨-, hm⟩
      · -- The log begins at the index or above it.
        obtain ⟨hoff, -⟩ := MemoryStorage.compact_ok hcompact
        rcases Nat.lt_or_ge s.memStorage.snapshot.index (Snapshot.mk i τ cs data).index with hlt | hge
        · rw [(MemoryStorage.install_of_lt hlt).2.2] at hoff
          exact absurd hoff (Nat.lt_irrefl i)
        · rw [MemoryStorage.install_of_le hge, hs.offset_eq] at hoff
          exact absurd hoff (Nat.not_lt.mpr hge)
      · exact hm
  next => cases h

/-- A call that fits and completes leaves the storage as it has to be. -/
theorem Inv.complete (h : Inv p) {d : DurableStorage δ} {disk : DiskOp → Bool} (hfits : c.Fits p.storage)
    (hd : c.complete disk p.storage = some d) : Inv (p.pass c (c.ops p.storage).length d) := by
  cases c with
  | saveState rd =>
    have hsave := DurableStorage.saveStep_eq_some hd
    obtain ⟨hwal, -, happend⟩ := DurableStorage.saveState_ok hsave
    refine h.pass hwal (h.saved.saveState hfits.1 hsave) ((h.keeps.install rd.snapshot).append happend ?_)
    rw [hwal, Wal.loggedEntries_applyAll, StorageReady.loggedEntries_ops]
    rfl
  | createSnapshot i cs data =>
    obtain ⟨snap, hsnap, hindex, hwal, hmem, hst⟩ := complete_createSnapshot h.saved hd
    have hops : (StorageCall.createSnapshot i cs data).ops p.storage = snap.ops := by
      change ((StorageCall.createSnapshot i cs data).snapshot? p.storage).elim [] Snapshot.ops = snap.ops
      rw [hsnap]
      rfl
    have hwal' : d.wal = p.storage.wal.applyAll ((StorageCall.createSnapshot i cs data).ops p.storage) := by
      rw [hops, hwal]
    -- It writes neither a hard state nor entries.
    have hlast : Wal.lastState d.wal.records = p.storage.hardState := by
      rw [hwal', Wal.lastState_applyAll, ← h.saved.hardState_eq]
      rcases state_mem_of_foldl p.storage.hardState
        (appendedRecords ((StorageCall.createSnapshot i cs data).ops p.storage)) with heq | hstate
      · exact heq
      · cases StorageCall.state_mem_ops (mem_appendedRecords.mp hstate)
    have hlogged : loggedEntries d.wal.records = loggedEntries p.storage.wal.records := by
      have hnone := StorageCall.loggedEntries_createSnapshot p.storage i cs data
        ((StorageCall.createSnapshot i cs data).ops p.storage).length
      rw [List.take_length] at hnone
      rw [hwal', Wal.loggedEntries_applyAll, hnone, List.append_nil]
    refine h.pass hwal' ?_ ?_
    · refine h.saved.of_install hfits.fitOps hwal' (hst.trans hlast.symm) (congrArg _ hmem)
        (congrArg (·.ents.offset) hmem) (congrArg _ hmem) fun hlt => ?_
      have hempty : snap.isEmptySnap = false :=
        decide_eq_false (Nat.ne_of_gt (Nat.zero_lt_of_lt hlt))
      have hcommit : snap.index ≤ d.wal.commit := by
        unfold Wal.commit
        rw [hlast]
        exact (hfits snap hsnap).2
      rw [hwal] at hcommit ⊢
      refine Wal.loadable_applyAll (Snapshot.mem_ops.mpr (.inl ⟨hempty, rfl⟩))
        ⟨_, Snapshot.mem_ops.mpr (.inr rfl)⟩ (fun f hf => ?_) hcommit
      rcases Snapshot.mem_ops.mp hf with ⟨-, heq⟩ | heq
      · exact FileOp.file.inj heq
      · cases heq
    · have hkeeps := h.keeps.install snap
      unfold Wal.Keeps at hkeeps ⊢
      rwa [hlogged, hmem]

/-! ## Every crash can be recovered from -/

/-- The storage is as it has to be at the start. -/
theorem inv_init : Inv (init : Persistence δ) where
  saved := DurableStorage.saved_fresh
  keeps := ⟨_, rfl, Suffix.Kept.refl _⟩
  tidy := ⟨fun _ hf => absurd hf List.not_mem_nil, fun _ hf => absurd hf List.not_mem_nil⟩
  entries_eq := rfl
  snapshots _ hf := absurd hf List.not_mem_nil

/-- A step of a run leaves the storage as it has to be. -/
theorem Inv.step (h : Inv p) {a : PersistAction δ} (ha : a.Allowed p) (hq : p.step a = some q) : Inv q := by
  cases a with
  | complete disk c =>
    obtain ⟨d, hd, rfl⟩ := Option.map_eq_some_iff.mp hq
    exact h.complete ha hd
  | crash c k partly =>
    obtain ⟨d, hd, rfl⟩ := Option.map_eq_some_iff.mp hq
    obtain ⟨t, ht, -, hinv⟩ := h.recover ha.1 ha.2
    rw [ht] at hd
    obtain rfl : t = d := Option.some.inj hd
    exact hinv

/-- In a run of calls and crashes that keep the disk in order, every such crash, in every state that is reached,
is followed by a restart that succeeds. It gives back what the calls before have saved, and nothing that was
never passed to a call. -/
theorem crash_recovered (h : Reaches step (fun p a => a.Allowed p) init p) (c : StorageCall δ) (k : ℕ)
    (partly : Bool) (hfits : c.Fits p.storage) (hcut : c.SafeCut p.storage k partly) :
    ∃ t, p.recover c k partly = .ok t ∧ Recovered p c t := by
  have hinv : Inv p := h.invariant inv_init fun _ _ _ hs ha ht => hs.step ha ht
  obtain ⟨t, ht, hrecovered, -⟩ := hinv.recover hfits hcut
  exact ⟨t, ht, hrecovered⟩

/-- Two crashes in a first call that keeps the disk in order. In the middle of the record of an entry it leaves a
log that cannot be opened. After the entry that follows a snapshot it leaves a gap, since the snapshot is not
committed yet. -/
theorem crash_not_recovered :
    (StorageCall.saveState (StorageReady.appendReady 1 1 1 0)).Fits (init : Persistence Unit).storage ∧
      (init : Persistence Unit).recover (.saveState (StorageReady.appendReady 1 1 1 0)) 0 true =
        .error (.wal .unexpectedEOF) ∧
      (StorageCall.saveState (StorageReady.snapshotReady 5 1 1)).Fits (init : Persistence Unit).storage ∧
      (init : Persistence Unit).recover (.saveState (StorageReady.snapshotReady 5 1 1)) 3 false =
        .error (.wal .sliceOutOfRange) :=
  ⟨by decide, rfl, by decide, rfl⟩

/-- Entries and a snapshot are saved, then a call crashes after the record of a snapshot that is not committed,
and another one when all it writes is written. -/
def crashActions : List (PersistAction Unit) :=
  [.complete (fun _ => true) (.saveState (StorageReady.appendReady 1 3 1 2)),
    .complete (fun _ => true) (.createSnapshot 2 ⟨[1], []⟩ ()),
    .crash (.saveState (StorageReady.snapshotReady 5 2 2)) 2 false,
    .crash (.saveState (StorageReady.appendReady 3 2 2 3)) 3 false]

/-- The state after them. -/
def afterCrashes : Persistence Unit :=
  final (guarded step fun p a => a.Allowed p) init crashActions (by decide +kernel)

/-- A crash between the file and the record of one more snapshot can be recovered from. -/
theorem crash_recovered_createSnapshot :
    ∃ t, afterCrashes.recover (.createSnapshot 3 ⟨[1], []⟩ ()) 1 false = .ok t ∧
      Recovered afterCrashes (.createSnapshot 3 ⟨[1], []⟩ ()) t :=
  crash_recovered (Reaches.final _) (.createSnapshot 3 ⟨[1], []⟩ ()) 1 false (by decide +kernel)
    (by decide +kernel)

end Persistence

end Omashu
