import Omashu.Raft.Node

/-!
# The applied index and the store across crashes

A received snapshot is on the disk before the store has its data: `SaveState` writes the file, the
record and the hard state, then `Restore` drops all data of Badger and loads that of the snapshot. A
crash in between leaves a store without the entries that the snapshot contains, and a snapshot on the
disk that makes the restarted node skip them. And even without a crash the applied index is ahead of
the store while `Restore` loads.

In every run without a crash between the record of a received snapshot and the end of its `Load`, the
store contains the effect of every entry up to the applied index, except during `Restore`
(`applied_in_store`). The invariant is about the indices of the snapshots that are recorded on the disk
and those that are held in memory: each is one that a restart may come back to, so the store has to
contain the entries up to it.
-/

namespace Omashu

open Lib

/-! ## The invariant of the phases -/

/-- What a Ready keeps of `Delivered` once it is saved, with the commit index on the disk. -/
structure Ready.Saved (log : CommittedLog) (commit : ℕ) (rd : Ready) : Prop where
  /-- A snapshot is committed and complete. -/
  snapshot : rd.snapshot.isEmptySnap = false →
    rd.snapshot.index ≤ commit ∧ Covers log rd.snapshot.data rd.snapshot.index
  /-- The entries to apply are from the committed log. -/
  consecutive : Consecutive log rd.committedEntries
  /-- The entries to apply are committed. -/
  committed : ∀ e ∈ rd.committedEntries, e.index ≤ commit

/-- A Ready that was delivered, when it is saved. -/
theorem Ready.Delivered.saved {log : CommittedLog} {commit : ℕ} {rd : Ready}
    (h : rd.Delivered log commit) : rd.Saved log (rd.commitAfter commit) :=
  ⟨fun hs => (h.snapshot hs).2, h.consecutive, h.committed⟩

section Invariant

variable {log : CommittedLog} {recorded recorded' held held' : ℕ → Prop} {commit commit' a : ℕ}
  {store : Finset ℕ} {p : LoopPhase}

/-- Every index that is recorded on the disk or held in memory is within the bound, and the store
contains the entries up to it. -/
def Settled (log : CommittedLog) (recorded held : ℕ → Prop) (bound : ℕ) (store : Finset ℕ) : Prop :=
  ∀ i, recorded i ∨ held i → i ≤ bound ∧ Covers log store i

/-- Fewer indices, and a larger bound. -/
theorem Settled.mono (h : Settled log recorded held commit store)
    (hknown : ∀ i, recorded' i ∨ held' i → recorded i ∨ held i) (hc : commit ≤ commit') :
    Settled log recorded' held' commit' store := by
  intro i hi
  obtain ⟨hle, hcov⟩ := h i (hknown i hi)
  exact ⟨hle.trans hc, hcov⟩

/-- A larger store. -/
theorem Settled.of_subset {store' : Finset ℕ} (h : Settled log recorded held commit store)
    (hs : store ⊆ store') : Settled log recorded held commit store' := by
  intro i hi
  obtain ⟨hle, hcov⟩ := h i hi
  exact ⟨hle, hcov.of_subset hs⟩

namespace LoopPhase

/-- The Ready loop is between the record of a snapshot and the end of its `Load`. -/
def Restoring : LoopPhase → Prop
  | .recordSaved _ => True
  | .saved rd => rd.snapshot.isEmptySnap = false
  | .dropped _ => True
  | _ => False

instance : (p : LoopPhase) → Decidable p.Restoring
  | .recordSaved _ => isTrue trivial
  | .saved rd => inferInstanceAs (Decidable (rd.snapshot.isEmptySnap = false))
  | .dropped _ => isTrue trivial
  | .idle | .saving _ | .fileSaved _ | .loaded _ | .installed _ | .applying _ _ => isFalse id

/-- What holds in a phase of the Ready loop, of the indices of the snapshots that are recorded on the
disk and of those that are held in memory. From its record on, the index of a received snapshot is not
covered until its data is loaded, and all others are below it. -/
def Inv (log : CommittedLog) (recorded held : ℕ → Prop) (commit : ℕ) (store : Finset ℕ) :
    LoopPhase → Prop
  | .idle => Settled log recorded held commit store
  | .saving rd => Settled log recorded held commit store ∧ rd.Delivered log commit
  | .fileSaved rd =>
    Settled log recorded held commit store ∧ rd.Delivered log commit ∧ rd.snapshot.isEmptySnap = false
  | .recordSaved rd =>
    Settled log (fun i => recorded i ∧ i ≠ rd.snapshot.index) held commit store ∧
      rd.Delivered log commit ∧ rd.snapshot.isEmptySnap = false
  | .saved rd =>
    rd.Saved log commit ∧
      (rd.snapshot.isEmptySnap = true → Settled log recorded held commit store) ∧
      (rd.snapshot.isEmptySnap = false →
        Settled log (fun i => recorded i ∧ i ≠ rd.snapshot.index) held rd.snapshot.index store)
  | .dropped rd =>
    rd.Saved log commit ∧ rd.snapshot.isEmptySnap = false ∧
      ∀ i, recorded i ∨ held i → i ≤ rd.snapshot.index
  | .loaded rd =>
    rd.Saved log commit ∧ rd.snapshot.index ≤ commit ∧ Covers log store rd.snapshot.index ∧
      ∀ i, recorded i ∨ held i → i ≤ rd.snapshot.index
  | .installed rd => rd.Saved log commit ∧ Settled log recorded held commit store
  | .applying es last =>
    Settled log recorded held commit store ∧ last ≤ commit ∧
      ∀ j ∈ Finset.Icc 1 last, (log.entry j).HasEffect → j ∈ store ∨ log.entry j ∈ es

/-- Fewer indices. An index that was held in memory may come to be recorded. -/
theorem Inv.mono (h : p.Inv log recorded held commit store)
    (hrec : ∀ i, recorded' i → recorded i ∨ held i) (hheld : ∀ i, held' i → held i) :
    p.Inv log recorded' held' commit store := by
  have hknown : ∀ i, recorded' i ∨ held' i → recorded i ∨ held i := by
    rintro i (hi | hi)
    · exact hrec i hi
    · exact .inr (hheld i hi)
  -- The same without the index of a snapshot that is being restored.
  have hother : ∀ n i, (recorded' i ∧ i ≠ n) ∨ held' i → (recorded i ∧ i ≠ n) ∨ held i := by
    rintro n i (⟨hi, hne⟩ | hi)
    · exact (hrec i hi).imp_left fun hi => ⟨hi, hne⟩
    · exact .inr (hheld i hi)
  cases p with
  | idle => exact Settled.mono h hknown le_rfl
  | saving | fileSaved => exact ⟨h.1.mono hknown le_rfl, h.2⟩
  | recordSaved rd => exact ⟨h.1.mono (hother _) le_rfl, h.2⟩
  | saved rd =>
    exact ⟨h.1, fun he => (h.2.1 he).mono hknown le_rfl, fun he => (h.2.2 he).mono (hother _) le_rfl⟩
  | dropped rd => exact ⟨h.1, h.2.1, fun i hi => h.2.2 i (hknown i hi)⟩
  | loaded rd => exact ⟨h.1, h.2.1, h.2.2.1, fun i hi => h.2.2.2 i (hknown i hi)⟩
  | installed rd => exact ⟨h.1, h.2.mono hknown le_rfl⟩
  | applying es last => exact ⟨h.1.mono hknown le_rfl, h.2⟩

/-- Outside the restore of a snapshot everything is settled. -/
theorem Inv.settled (h : p.Inv log recorded held commit store) (hp : ¬p.Restoring) :
    Settled log recorded held commit store := by
  cases p with
  | idle => exact h
  | saving | fileSaved => exact h.1
  | recordSaved rd => exact absurd trivial hp
  | saved rd => exact h.2.1 (Bool.not_eq_false _ ▸ hp)
  | dropped rd => exact absurd trivial hp
  | loaded rd =>
    obtain ⟨-, hle, hcov, hbound⟩ := h
    intro i hi
    exact ⟨(hbound i hi).trans hle, hcov.of_le (hbound i hi)⟩
  | installed rd => exact h.2
  | applying es last => exact h.1

/-- Outside `Restore` the store contains the entries up to every index that is held in memory. -/
theorem Inv.covers (h : p.Inv log recorded held commit store) (hp : ∀ rd, p ≠ .dropped rd)
    (ha : held a) : Covers log store a := by
  by_cases hr : p.Restoring
  · cases p with
    | recordSaved rd => exact (h.1 a (.inr ha)).2
    | saved rd => exact (h.2.2 hr a (.inr ha)).2
    | dropped rd => exact absurd rfl (hp rd)
    | idle | saving | fileSaved | loaded | installed | applying => exact hr.elim
  · exact (h.settled hr a (.inr ha)).2

section Steps

variable {rd : Ready} {store' : Finset ℕ} {last : ℕ}

/-- The record of the snapshot is written. -/
theorem Inv.to_recordSaved (h : (fileSaved rd).Inv log recorded held commit store)
    (hrec : ∀ i, recorded' i → recorded i ∨ i = rd.snapshot.index) :
    (recordSaved rd).Inv log recorded' held commit store := by
  obtain ⟨hset, hd, he⟩ := h
  refine ⟨hset.mono ?_ le_rfl, hd, he⟩
  rintro i (⟨hi, hne⟩ | hi)
  · exact .inl ((hrec i hi).resolve_right hne)
  · exact .inr hi

/-- A Ready without a snapshot is saved. -/
theorem Inv.to_saved_of_empty (h : (saving rd).Inv log recorded held commit store)
    (he : rd.snapshot.isEmptySnap = true) :
    (saved rd).Inv log recorded held (rd.commitAfter commit) store := by
  obtain ⟨hset, hd⟩ := h
  refine ⟨hd.saved, fun _ => hset.mono (fun i hi => hi) hd.commit_le, fun hf => ?_⟩
  rw [he] at hf
  cases hf

/-- A Ready is saved after its snapshot. -/
theorem Inv.to_saved (h : (recordSaved rd).Inv log recorded held commit store) :
    (saved rd).Inv log recorded held (rd.commitAfter commit) store := by
  obtain ⟨hset, hd, he⟩ := h
  refine ⟨hd.saved, fun ht => ?_, fun _ => hset.mono (fun i hi => hi) (hd.snapshot he).1.le⟩
  rw [he] at ht
  cases ht

/-- The data of the store is dropped. -/
theorem Inv.to_dropped (h : (saved rd).Inv log recorded held commit store)
    (he : rd.snapshot.isEmptySnap = false) : (dropped rd).Inv log recorded held commit store' := by
  obtain ⟨hrd, -, hset⟩ := h
  refine ⟨hrd, he, ?_⟩
  rintro i (hi | hi)
  · by_cases hne : i = rd.snapshot.index
    · exact hne.le
    · exact (hset he i (.inl ⟨hi, hne⟩)).1
  · exact (hset he i (.inr hi)).1

/-- The data of the snapshot is loaded. -/
theorem Inv.to_loaded (h : (dropped rd).Inv log recorded held commit store)
    (hs : rd.snapshot.data ⊆ store') : (loaded rd).Inv log recorded held commit store' := by
  obtain ⟨hrd, he, hbound⟩ := h
  obtain ⟨hle, hcov⟩ := hrd.snapshot he
  exact ⟨hrd, hle, hcov.of_subset hs, hbound⟩

/-- The applied index is set to that of the snapshot. -/
theorem Inv.to_installed (h : (loaded rd).Inv log recorded held commit store)
    (hheld : ∀ i, held' i → held i ∨ i = rd.snapshot.index) :
    (installed rd).Inv log recorded held' commit store := by
  obtain ⟨hrd, hle, hcov, hbound⟩ := h
  refine ⟨hrd, fun i hi => ?_⟩
  have hi : i ≤ rd.snapshot.index := by
    rcases hi with hi | hi
    · exact hbound i (.inl hi)
    · rcases hheld i hi with hi | hi
      · exact hbound i (.inr hi)
      · exact hi.le
  exact ⟨hi.trans hle, hcov.of_le hi⟩

/-- The applied index is set to that of the last entry. -/
theorem Inv.to_idle (h : (applying [] last).Inv log recorded held commit store)
    (hheld : ∀ i, held' i → held i ∨ i = last) : idle.Inv log recorded held' commit store := by
  obtain ⟨hset, hlast, hleft⟩ := h
  have hcov : Covers log store last := by
    intro j hj heff
    exact (hleft j hj heff).resolve_right List.not_mem_nil
  rintro i (hi | hi)
  · exact hset i (.inl hi)
  · rcases hheld i hi with hi | rfl
    · exact hset i (.inr hi)
    · exact ⟨hlast, hcov⟩

end Steps

end LoopPhase

end Invariant

namespace Node

variable {log : CommittedLog} {s t : Node} {rd : Ready}

/-- The index of a snapshot that has a record on the disk. -/
def Recorded (s : Node) (i : ℕ) : Prop := ∃ t, s.wal.HasRecord i t

/-- The applied index, or the index of a snapshot that is being taken. -/
def Held (s : Node) (i : ℕ) : Prop := i = s.appliedIndex ∨ ∃ p ∈ s.pending, p.index = i

/-- What holds in every state of a node that does not crash while it restores a snapshot. -/
structure Inv (log : CommittedLog) (s : Node) : Prop where
  /-- The invariant of the phase. -/
  phase : s.phase.Inv log s.Recorded s.Held s.wal.commit s.store
  /-- A node that does not run has no Ready to process. -/
  idle : s.running = false → s.phase = .idle

/-- A node that runs has the invariant of its phase. -/
theorem Inv.of_running (hrun : s.running = true)
    (h : s.phase.Inv log s.Recorded s.Held s.wal.commit s.store) : s.Inv log := by
  refine ⟨h, fun hr => ?_⟩
  rw [hrun] at hr
  cases hr

/-- The applied index is held. -/
theorem held_appliedIndex (s : Node) : s.Held s.appliedIndex := .inl rfl

/-! ## The snapshots of the node itself -/

/-- What a step of `takeSnapshotIfNeeded` leaves as it is. -/
structure OwnFrame (s t : Node) : Prop where
  /-- The Ready loop. -/
  phase : t.phase = s.phase
  store : t.store = s.store
  appliedIndex : t.appliedIndex = s.appliedIndex
  /-- The process. -/
  running : t.running = s.running
  /-- The commit index on the disk. -/
  commit : t.wal.commit = s.wal.commit
  /-- A snapshot that is recorded was so, or was being taken. -/
  recorded : ∀ i, t.Recorded i → s.Recorded i ∨ s.Held i
  /-- A snapshot is taken at the applied index. -/
  held : ∀ i, t.Held i → s.Held i

/-- The indices that are held after one call has moved on with its index. -/
theorem held_of_set {k i : ℕ} {o o' : OwnSnapshot} (h : t.Held i) (hk : s.pending[k]? = some o)
    (ht : t.pending = s.pending.set k o') (ho : o'.index = o.index)
    (ha : t.appliedIndex = s.appliedIndex) : s.Held i := by
  rcases h with rfl | ⟨p, hp, rfl⟩
  · exact .inl ha
  · rw [ht] at hp
    rcases List.mem_or_eq_of_mem_set hp with hp | rfl
    · exact .inr ⟨p, hp, rfl⟩
    · exact .inr ⟨o, List.mem_of_getElem? hk, ho.symm⟩

/-- A step of `takeSnapshotIfNeeded` has an index that was held. -/
theorem ownStep_frame {a : OwnAction} (h : s.ownStep log a = some t) : OwnFrame s t := by
  cases a with
  | begin c =>
    obtain rfl := Option.some.inj h
    refine ⟨rfl, rfl, rfl, rfl, rfl, fun i hi => .inl hi, ?_⟩
    rintro i (rfl | ⟨p, hp, rfl⟩)
    · exact .inl rfl
    · rcases List.mem_append.mp hp with hp | hp
      · exact .inr ⟨p, hp, rfl⟩
      · rw [List.mem_singleton.mp hp]
        exact .inl rfl
  | backup k =>
    unfold ownStep at h
    dsimp only at h
    split at h
    next i c hk =>
      obtain rfl := Option.some.inj h
      exact ⟨rfl, rfl, rfl, rfl, rfl, fun i hi => .inl hi,
        fun j hj => held_of_set hj hk rfl rfl rfl⟩
    next => cases h
  | saveFile k =>
    unfold ownStep at h
    dsimp only at h
    split at h
    next snap hk =>
      obtain rfl := Option.some.inj h
      exact ⟨rfl, rfl, rfl, rfl, rfl, fun i hi => .inl hi,
        fun j hj => held_of_set hj hk rfl rfl rfl⟩
    next => cases h
  | saveRecord k =>
    unfold ownStep at h
    dsimp only at h
    split at h
    next snap hk =>
      obtain rfl := Option.some.inj h
      refine ⟨rfl, rfl, rfl, rfl, Wal.commit_writeRecord snap, ?_, ?_⟩
      · rintro i ⟨t, ht⟩
        rcases (Wal.hasRecord_writeRecord snap i t).mp ht with ht | ⟨rfl, -⟩
        · exact .inl ⟨t, ht⟩
        · exact .inr (.inr ⟨_, List.mem_of_getElem? hk, rfl⟩)
      · exact fun j hj => hj.imp_right fun ⟨p, hp, hi⟩ => ⟨p, List.mem_of_mem_eraseIdx hp, hi⟩
    next => cases h
  | abandon k =>
    obtain rfl := Option.some.inj h
    refine ⟨rfl, rfl, rfl, rfl, rfl, fun i hi => .inl hi, ?_⟩
    exact fun j hj => hj.imp_right fun ⟨p, hp, hi⟩ => ⟨p, List.mem_of_mem_eraseIdx hp, hi⟩

/-- The snapshots of the node itself keep the invariant. -/
theorem Inv.own {a : OwnAction} (h : s.Inv log) (ha : s.ownStep log a = some t) : t.Inv log := by
  have hframe := ownStep_frame ha
  constructor
  · rw [hframe.phase, hframe.commit, hframe.store]
    exact h.phase.mono hframe.recorded hframe.held
  · rw [hframe.running, hframe.phase]
    exact h.idle

/-! ## Crashes -/

/-- A crash outside the restore of a snapshot keeps the invariant. -/
theorem Inv.crash (h : s.Inv log) (hp : ¬s.phase.Restoring) : s.crash.Inv log := by
  refine ⟨(h.phase.settled hp).mono ?_ le_rfl, fun _ => rfl⟩
  rintro i (hi | hi | ⟨p, hp, -⟩)
  · exact .inl hi
  · exact .inr (.inl hi)
  · exact absurd hp List.not_mem_nil

/-- The applied index after a restart is zero, or has a record. -/
theorem restart_appliedIndex (s : Node) :
    s.restart.appliedIndex = 0 ∨ s.Recorded s.restart.appliedIndex := by
  unfold restart
  cases hload : s.wal.loadLatestSnapshot with
  | none => exact .inl rfl
  | some snap => exact .inr ⟨snap.term, (Wal.loadLatestSnapshot_spec hload).1⟩

/-- A restart keeps the invariant. -/
theorem Inv.restart (h : s.Inv log) (hrun : s.running = false) : s.restart.Inv log := by
  have hphase := h.phase
  rw [h.idle hrun] at hphase
  refine ⟨?_, fun hr => absurd (show true = false from hr) (by decide)⟩
  rintro i (hi | rfl | hi)
  · exact hphase i (.inl hi)
  · rcases s.restart_appliedIndex with hzero | hrec
    · rw [hzero]
      exact ⟨Nat.zero_le _, covers_zero⟩
    · exact hphase _ (.inl hrec)
  · exact hphase i (.inr (.inr hi))

/-! ## The Ready loop -/

/-- Saving the entries and the hard state of a Ready. -/
theorem inv_saveState
    (h : (LoopPhase.saved rd).Inv log s.Recorded s.Held (rd.commitAfter s.wal.commit) s.store)
    (hrun : s.running = true) : (s.saveState rd).Inv log := by
  have hcommit : (s.saveState rd).wal.commit = rd.commitAfter s.wal.commit :=
    Wal.commit_write rd.hardState rd.entries
  refine .of_running hrun ?_
  rw [hcommit]
  refine LoopPhase.Inv.mono h ?_ fun i hi => hi
  rintro i ⟨t, ht⟩
  exact .inl ⟨t, (Wal.hasRecord_write rd.hardState rd.entries i t).mp ht⟩

/-- Going on to the committed entries. -/
theorem inv_startApply (h : s.Inv log) (hp : ¬s.phase.Restoring) (hrd : rd.Saved log s.wal.commit)
    (hrun : s.running = true) : (s.startApply rd).Inv log := by
  have hset := h.phase.settled hp
  unfold Node.startApply
  split
  next => exact h.crash hp
  next es hes =>
    split
    next => exact .of_running hrun hset
    next e he =>
      have hmem : e ∈ es := List.mem_of_getLast? he
      refine .of_running hrun ⟨hset, hrd.committed e (mem_of_mem_getEntriesToApply hes hmem), ?_⟩
      intro j hj heff
      obtain ⟨hpos, hle⟩ := Finset.mem_Icc.mp hj
      -- An entry up to the applied index is in the store, and one above it is among those to apply.
      by_cases hja : j ≤ s.appliedIndex
      · have hcov := (hset s.appliedIndex (.inr s.held_appliedIndex)).2
        exact .inl (hcov j (Finset.mem_Icc.mpr ⟨hpos, hja⟩) heff)
      · exact .inr (entry_mem_getEntriesToApply hrd.consecutive hes hmem (Nat.lt_of_not_le hja) hle)

/-- Applying one entry, whose effect is in the store afterwards if it has one. -/
theorem inv_applying {e : RaftEntry} {es : List RaftEntry} {last : ℕ} {store : Finset ℕ}
    (h : s.Inv log) (hphase : s.phase = .applying (e :: es) last) (hrun : s.running = true)
    (hsub : s.store ⊆ store)
    (he : ∀ j ∈ Finset.Icc 1 last, log.entry j = e → e.HasEffect → j ∈ store) :
    { s with store := store, phase := .applying es last }.Inv log := by
  have hinv := h.phase
  rw [hphase] at hinv
  obtain ⟨hset, hlast, hleft⟩ := hinv
  refine .of_running hrun ⟨hset.of_subset hsub, hlast, fun j hj heff => ?_⟩
  rcases hleft j hj heff with hj' | hj'
  · exact .inl (hsub hj')
  · rcases List.mem_cons.mp hj' with hj' | hj'
    · exact .inl (he j hj hj' (hj' ▸ heff))
    · exact .inr hj'

/-- `applyEntries` at one entry keeps the invariant. -/
theorem inv_applyEntry {e : RaftEntry} {es : List RaftEntry} {last : ℕ} (h : s.Inv log)
    (hphase : s.phase = .applying (e :: es) last) (hrun : s.running = true) :
    (s.applyEntry e es last).Inv log := by
  unfold applyEntry
  split
  next hnormal =>
    split_ifs with hcase
    · refine inv_applying h hphase hrun (Finset.Subset.refl _) fun j hj hje heff => ?_
      rcases hcase with hdata | hle
      · exact absurd hdata heff.2
      · -- The entry is not above the applied index, so its effect is in the store.
        have hcov : Covers log s.store s.appliedIndex :=
          h.phase.covers (by rw [hphase]; exact fun _ => LoopPhase.noConfusion) s.held_appliedIndex
        have hindex : e.index = j := by rw [← hje, log.index_entry]
        refine hcov j (Finset.mem_Icc.mpr ⟨(Finset.mem_Icc.mp hj).1, hindex ▸ hle⟩) ?_
        rw [hje]
        exact heff
    · refine inv_applying h hphase hrun (Finset.subset_insert _ _) fun j hj hje heff => ?_
      have hindex : e.index = j := by rw [← hje, log.index_entry]
      rw [hindex]
      exact Finset.mem_insert_self j s.store
  next hconf =>
    refine inv_applying h hphase hrun (Finset.Subset.refl _) fun j hj hje heff => ?_
    exact absurd (hconf.symm.trans heff.1) (by decide)
  next => exact ⟨h.phase, h.idle⟩

/-- A step of the Ready loop keeps the invariant. -/
theorem Inv.loop {a : LoopAction} (h : s.Inv log) (hrun : s.running = true)
    (ha : s.loopStep log a = some t) : t.Inv log := by
  have hinv := h.phase
  unfold loopStep at ha
  -- One case for each line of `loopStep`, in its order.
  split at ha
  next rd hphase =>
    rw [hphase] at hinv
    split_ifs at ha with hd
    obtain rfl := Option.some.inj ha
    exact .of_running hrun ⟨hinv, hd⟩
  next rd hphase =>
    rw [hphase] at hinv
    split_ifs at ha with he
    obtain rfl := Option.some.inj ha
    exact .of_running hrun ⟨hinv.1, hinv.2, Bool.eq_false_iff.mpr he⟩
  next rd hphase =>
    rw [hphase] at hinv
    obtain rfl := Option.some.inj ha
    refine .of_running hrun ?_
    dsimp only
    rw [Wal.commit_writeRecord]
    refine hinv.to_recordSaved ?_
    rintro i ⟨t, ht⟩
    exact ((Wal.hasRecord_writeRecord rd.snapshot i t).mp ht).imp (fun ht => ⟨t, ht⟩) And.left
  next rd hphase =>
    rw [hphase] at hinv
    split_ifs at ha with he
    obtain rfl := Option.some.inj ha
    exact inv_saveState (hinv.to_saved_of_empty he) hrun
  next rd hphase =>
    rw [hphase] at hinv
    obtain rfl := Option.some.inj ha
    exact inv_saveState hinv.to_saved hrun
  next rd hphase =>
    split_ifs at ha with he hle
    · -- `applySnapshotToFSM` refuses the snapshot.
      obtain rfl := Option.some.inj ha
      exact ⟨h.phase, h.idle⟩
    · obtain rfl := Option.some.inj ha
      rw [hphase] at hinv
      exact .of_running hrun (hinv.to_dropped (Bool.eq_false_iff.mpr he))
  next part rd hphase =>
    obtain rfl := Option.some.inj ha
    refine .of_running hrun ?_
    dsimp only
    rw [hphase] at hinv ⊢
    exact hinv
  next rd hphase =>
    rw [hphase] at hinv
    obtain rfl := Option.some.inj ha
    exact .of_running hrun (hinv.to_loaded Finset.subset_union_right)
  next rd hphase =>
    rw [hphase] at hinv
    obtain rfl := Option.some.inj ha
    exact .of_running hrun (hinv.to_installed fun i hi => hi.elim .inr fun hi => .inl (.inr hi))
  next rd hphase =>
    split_ifs at ha with he
    obtain rfl := Option.some.inj ha
    rw [hphase] at hinv
    refine inv_startApply h ?_ hinv.1 hrun
    rw [hphase]
    exact fun hf => absurd (he.symm.trans hf) (by decide)
  next rd hphase =>
    obtain rfl := Option.some.inj ha
    rw [hphase] at hinv
    refine inv_startApply h ?_ hinv.1 hrun
    rw [hphase]
    exact id
  next e es last hphase =>
    obtain rfl := Option.some.inj ha
    exact inv_applyEntry h hphase hrun
  next last hphase =>
    rw [hphase] at hinv
    obtain rfl := Option.some.inj ha
    exact .of_running hrun (hinv.to_idle fun i hi => hi.elim .inr fun hi => .inl (.inr hi))
  next =>
    obtain rfl := Option.some.inj ha
    exact ⟨h.phase, h.idle⟩
  next => cases ha

/-! ## The applied index -/

/-- No crash falls between the record of a received snapshot and the end of its `Load`. -/
def Uninterrupted (s : Node) : NodeAction → Prop
  | .crash => ¬s.phase.Restoring
  | _ => True

instance (s : Node) : (a : NodeAction) → Decidable (s.Uninterrupted a)
  | .crash => inferInstanceAs (Decidable ¬s.phase.Restoring)
  | .loop _ | .own _ | .restart => isTrue trivial

/-- `Restore` drops the data of a store only if no entry up to the applied index has an effect. -/
def DropsNothing (log : CommittedLog) (s : Node) : NodeAction → Prop
  | .loop .dropAll => Covers log ∅ s.appliedIndex
  | _ => True

/-- A step that does not interrupt the restore of a snapshot keeps the invariant. -/
theorem Inv.step {a : NodeAction} (h : s.Inv log) (hc : s.Uninterrupted a)
    (ha : s.step log a = some t) : t.Inv log := by
  unfold Node.step at ha
  cases a with
  | loop a =>
    dsimp only at ha
    split_ifs at ha with hrun
    exact h.loop hrun.1 ha
  | own a =>
    dsimp only at ha
    split_ifs at ha
    exact h.own ha
  | crash =>
    dsimp only at ha
    split_ifs at ha
    obtain rfl := Option.some.inj ha
    exact h.crash hc
  | restart =>
    dsimp only at ha
    split_ifs at ha with hrun
    obtain rfl := Option.some.inj ha
    exact h.restart (Bool.eq_false_iff.mpr hrun)

/-- A node before its first start has the invariant. -/
theorem inv_fresh : fresh.Inv log := by
  refine .of_running rfl ?_
  rintro i (⟨t, c, hc⟩ | rfl | ⟨p, hp, -⟩)
  · exact absurd hc List.not_mem_nil
  · exact ⟨le_rfl, covers_zero⟩
  · exact absurd hp List.not_mem_nil

/-- In every run without a crash between the record of a received snapshot and the end of its `Load`,
the invariant holds. -/
theorem inv_of_reaches (h : Reaches (step log) Uninterrupted fresh t) : t.Inv log :=
  h.invariant inv_fresh fun _ _ _ hs hc ha => hs.step hc ha

/-- While `Restore` loads, no entry up to the applied index has an effect. -/
def Bare (log : CommittedLog) (s : Node) : Prop :=
  ∀ rd, s.phase = .dropped rd → Covers log ∅ s.appliedIndex

/-- `getEntriesToApply` does not lead into `Restore`. -/
theorem startApply_phase_ne (s : Node) (rd rd' : Ready) : (s.startApply rd).phase ≠ .dropped rd' := by
  unfold startApply
  split
  · exact LoopPhase.noConfusion
  · split
    · exact LoopPhase.noConfusion
    · exact LoopPhase.noConfusion

/-- `applyEntries` does not lead into `Restore`. -/
theorem applyEntry_phase_ne {e : RaftEntry} {es : List RaftEntry} {last : ℕ}
    (hphase : s.phase = .applying (e :: es) last) (rd : Ready) :
    (s.applyEntry e es last).phase ≠ .dropped rd := by
  unfold applyEntry
  split
  · split_ifs
    · exact LoopPhase.noConfusion
    · exact LoopPhase.noConfusion
  · exact LoopPhase.noConfusion
  · rw [hphase]
    exact LoopPhase.noConfusion

/-- A step of the Ready loop that leads into `Restore`, or stays there, keeps the applied index. -/
theorem loopStep_dropped {a : LoopAction} (ha : s.loopStep log a = some t)
    (ht : t.phase = .dropped rd) :
    t.appliedIndex = s.appliedIndex ∧ (a = .dropAll ∨ ∃ rd', s.phase = .dropped rd') := by
  unfold loopStep at ha
  split at ha
  case h_6 =>
    split_ifs at ha
    · obtain rfl := Option.some.inj ha
      exact ⟨rfl, .inl rfl⟩
    · obtain rfl := Option.some.inj ha
      exact ⟨rfl, .inl rfl⟩
  case h_7 rd' hphase =>
    obtain rfl := Option.some.inj ha
    exact ⟨rfl, .inr ⟨rd', hphase⟩⟩
  case h_10 =>
    split_ifs at ha
    obtain rfl := Option.some.inj ha
    exact absurd ht (startApply_phase_ne s _ rd)
  case h_11 =>
    obtain rfl := Option.some.inj ha
    exact absurd ht (startApply_phase_ne s _ rd)
  case h_12 hphase =>
    obtain rfl := Option.some.inj ha
    exact absurd ht (applyEntry_phase_ne hphase rd)
  case h_14 =>
    obtain rfl := Option.some.inj ha
    exact ⟨rfl, .inr ⟨rd, ht⟩⟩
  case h_15 => cases ha
  -- The others end in a phase of their own.
  all_goals
    try split_ifs at ha
    obtain rfl := Option.some.inj ha
    cases ht

/-- A step that drops no effect keeps `Bare`. -/
theorem Bare.step {a : NodeAction} (h : s.Bare log) (hc : s.DropsNothing log a)
    (ha : s.step log a = some t) : t.Bare log := by
  intro rd ht
  unfold Node.step at ha
  cases a with
  | loop a =>
    dsimp only at ha
    split_ifs at ha with hrun
    obtain ⟨happlied, rfl | ⟨rd', hs⟩⟩ := loopStep_dropped ha ht
    · rw [happlied]
      exact hc
    · rw [happlied]
      exact h rd' hs
  | own a =>
    dsimp only at ha
    split_ifs at ha
    have hframe := ownStep_frame ha
    rw [hframe.appliedIndex]
    exact h rd (hframe.phase.symm.trans ht)
  | crash | restart =>
    dsimp only at ha
    split_ifs at ha
    obtain rfl := Option.some.inj ha
    cases ht

/-- In every run without a crash between the record of a received snapshot and the end of its `Load`,
the store contains the effect of every entry up to the applied index, except while `Restore` loads. If
moreover `Restore` never drops the effect of an entry up to the applied index, there is no exception. -/
theorem applied_in_store (h : Reaches (step log) Uninterrupted fresh t) :
    ((∀ rd, t.phase ≠ .dropped rd) → t.Contains log) ∧
      (Reaches (step log) (fun s a => s.Uninterrupted a ∧ s.DropsNothing log a) fresh t →
        t.Contains log) := by
  have hinv := inv_of_reaches h
  refine ⟨fun hp => hinv.phase.covers hp t.held_appliedIndex, fun h' => ?_⟩
  have hbare : t.Bare log := by
    refine h'.invariant (fun rd hrd => ?_) fun _ _ _ hs hc ha => hs.step hc.2 ha
    cases hrd
  by_cases hp : ∃ rd, t.phase = .dropped rd
  · obtain ⟨rd, hrd⟩ := hp
    exact (hbare rd hrd).of_subset (Finset.empty_subset _)
  · exact hinv.phase.covers (fun rd hrd => hp ⟨rd, hrd⟩) t.held_appliedIndex

/-- A log in which every entry has an effect. -/
def commands : CommittedLog := ⟨fun j => ⟨j, 1, .normal, [1]⟩, fun _ => rfl⟩

/-- A Ready with a snapshot of the entries up to an index. -/
def received (i : ℕ) : Ready := ⟨⟨i, 1, ⟨[1], []⟩, Finset.Icc 1 i⟩, ⟨1, 0, i⟩, [], []⟩

/-- A Ready with the first entry. -/
def firstEntry : Ready :=
  ⟨⟨0, 0, ⟨[], []⟩, ∅⟩, ⟨1, 0, 1⟩, [commands.entry 1], [commands.entry 1]⟩

/-- The steps that save a received snapshot. -/
def receive (i : ℕ) : List NodeAction :=
  [.loop (.ready (received i)), .loop .saveFile, .loop .saveRecord, .loop .saveState]

/-- A node restores a snapshot of two entries, and then it crashes. -/
def restoreThenCrash : List NodeAction :=
  List.flatten [receive 2, [.loop .dropAll, .loop .loadDone, .crash, .restart]]

/-- The node comes back with the index of the snapshot, and its store contains the entries. -/
theorem applied_in_store_restored :
    ∃ t, run (step commands) fresh restoreThenCrash = some t ∧ t.appliedIndex = 2 ∧
      t.Contains commands := by
  have h : (run (guarded (step commands) Uninterrupted) fresh restoreThenCrash).isSome = true := by
    decide
  refine ⟨_, rfl, rfl, ?_⟩
  exact (applied_in_store (Reaches.final h)).1 fun rd => LoopPhase.noConfusion

/-- A node crashes between `SaveState` and `Restore`. -/
def crashBeforeRestore : List NodeAction := List.flatten [receive 2, [.crash, .restart]]

/-- A node that has applied an entry begins to restore a snapshot. -/
def dropAfterApply : List NodeAction :=
  List.flatten
    [[.loop (.ready firstEntry), .loop .saveState, .loop .apply, .loop .applyEntry, .loop .finish],
      receive 3, [.loop .dropAll]]

/-- The first node comes back with the index of the snapshot, and its store contains none of the
entries. The second does not contain the entry that it has applied. -/
theorem applied_ahead_of_store :
    (∃ t, run (step commands) fresh crashBeforeRestore = some t ∧
      t.running = true ∧ t.appliedIndex = 2 ∧ t.store = ∅ ∧ ¬t.Contains commands) ∧
    ∃ t, run (step commands) fresh dropAfterApply = some t ∧
      t.running = true ∧ t.appliedIndex = 1 ∧ t.store = ∅ ∧ ¬t.Contains commands := by
  constructor
  · exact ⟨_, rfl, rfl, rfl, rfl, by decide⟩
  · exact ⟨_, rfl, rfl, rfl, rfl, by decide⟩

end Node

end Omashu
