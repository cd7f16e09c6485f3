import Omashu.Raft.ConfStates

/-!
# The threshold of automatic snapshots

A call of `takeSnapshotIfNeeded` reads the index of the last snapshot, then `appliedIndex`, and creates a
snapshot at the latter if the difference is at least `defaultSnapshotCount`. Nothing keeps the storage from
getting a snapshot of its own in between: a second call can store one at the same index, and `SaveState`
stores one from the leader, of which `appliedIndex` knows only after `applySnapshotToFSM`. In the last case
the unsigned difference wraps, and the call goes on to create a snapshot below the one in the storage
(`snapshot_below_storage`). On the managed store of a node it does not get to the storage, since `Backup` panics before
(see `Omashu.Raft.ConfStates`): the check that has wrapped then terminates the process.

`snapshots_respect_threshold` is about the runs in which no snapshot is stored while a call is on its way
from the one read to its own snapshot, and in which a call makes that read only while the snapshot in the
storage is not ahead of `appliedIndex`. The runs are those of `Omashu.Raft.ConfStates`.
-/

namespace Omashu

open Lib

/-- The call has read the index of the last snapshot, and may still create one. -/
def SnapshotCall.Compares : SnapshotCall → Prop
  | .last _ _ | .index _ _ => True
  | _ => False

instance : (c : SnapshotCall) → Decidable c.Compares
  | .last _ _ | .index _ _ => isTrue trivial
  | .idle | .called | .conf _ => isFalse id

/-- `SaveState` is about to save a snapshot from the leader. -/
def ConfPhase.SavesSnapshot : ConfPhase → Prop
  | .saving (some _) _ => True
  | _ => False

instance : (p : ConfPhase) → Decidable p.SavesSnapshot
  | .saving (some _) _ => isTrue trivial
  | .idle | .saving none _ | .restoring _ _ _ | .restored _ _ | .applying _ _ | .applied | .stopped => isFalse id

namespace ConfNode

variable {χ ι : Type}

/-- What the step should be like: where a call compares the indices the difference does not wrap, and where
it creates a snapshot, or terminates the process with the attempt, this is as far above the one in the storage as it
should be. -/
def RespectsThreshold (s : ConfNode ι) : ConfAction ι → Prop
  | .getAppliedIndex i => ∀ confState n, s.calls i = .last confState n → n ≤ s.appliedIndex
  | .backupPanics i | .createSnapshot i | .createFailed i =>
    ∀ confState n, s.calls i = .index confState n → s.snapshotIndex + defaultSnapshotCount ≤ n
  | _ => True

/-- No snapshot is stored while another call is between its read of the last index and its snapshot, and a
call makes that read only while the snapshot in the storage is not ahead of what is applied. -/
def Separated (s : ConfNode ι) : ConfAction ι → Prop
  | .saveState => s.phase.SavesSnapshot → ∀ i, ¬(s.calls i).Compares
  | .createSnapshot i => ∀ j, j ≠ i → ¬(s.calls j).Compares
  | .lastSnapshotIndex _ => s.snapshotIndex ≤ s.appliedIndex
  | _ => True

instance [Fintype ι] [DecidableEq ι] (s : ConfNode ι) : (a : ConfAction ι) → Decidable (s.Separated a)
  | .saveState => inferInstanceAs (Decidable (s.phase.SavesSnapshot → _))
  | .createSnapshot _ => inferInstanceAs (Decidable (∀ _, _))
  | .lastSnapshotIndex _ => inferInstanceAs (Decidable (s.snapshotIndex ≤ s.appliedIndex))
  | .ready _ _ | .restoreAppliedIndex | .restoreConfState | .applyEntry | .setAppliedIndex
  | .takeSnapshotIfNeeded _ | .selfRemoved | .fail | .getConfState _ | .getAppliedIndex _ | .backupPanics _
  | .createFailed _ => inferInstanceAs (Decidable True)

/-- The invariant of these runs. -/
structure ThresholdInv (s : ConfNode ι) : Prop where
  /-- What a call has read is the index of the snapshot in the storage, which is not ahead. -/
  last : ∀ i confState n, s.calls i = .last confState n → n = s.snapshotIndex ∧ n ≤ s.appliedIndex
  /-- A snapshot that is about to be created is far enough above the one in the storage. -/
  index : ∀ i confState n, s.calls i = .index confState n → s.snapshotIndex + defaultSnapshotCount ≤ n
  /-- The entries that are being applied are not below what is applied. -/
  applying : ∀ n left, s.phase = .applying n left → s.appliedIndex ≤ n

/-- The check of a call, where the difference does not wrap. -/
theorem add_le_of_snapshotNeeded {appliedIndex snapshotIndex : ℕ} (hle : snapshotIndex ≤ appliedIndex)
    (h : snapshotNeeded false appliedIndex snapshotIndex = true) :
    snapshotIndex + defaultSnapshotCount ≤ appliedIndex := by
  have hdiff : defaultSnapshotCount ≤
      (BitVec.ofNat 64 appliedIndex - BitVec.ofNat 64 snapshotIndex).toNat := by
    simpa [snapshotNeeded] using h
  rw [BitVec.toNat_sub, BitVec.toNat_ofNat, BitVec.toNat_ofNat] at hdiff
  omega

section Invariant

variable {log : ConfLog χ} {s t : ConfNode ι} {a : ConfAction ι} {i : ι}

/-- The loop goes on, with no snapshot stored. -/
theorem ThresholdInv.of_loop (h : ThresholdInv s) (hcalls : t.calls = s.calls)
    (hsnapshot : t.snapshotIndex = s.snapshotIndex) (happlied : s.appliedIndex ≤ t.appliedIndex)
    (happlying : ∀ n left, t.phase = .applying n left → t.appliedIndex ≤ n) : ThresholdInv t where
  last := by
    intro i confState n hcall
    rw [hcalls] at hcall
    rw [hsnapshot]
    obtain ⟨heq, hle⟩ := h.last i confState n hcall
    exact ⟨heq, hle.trans happlied⟩
  index := by
    rw [hcalls, hsnapshot]
    exact h.index
  applying := happlying

/-- A snapshot is stored, while no call has read the last index. -/
theorem ThresholdInv.of_none (hnone : ∀ i, ¬(t.calls i).Compares)
    (happlying : ∀ n left, t.phase = .applying n left → t.appliedIndex ≤ n) : ThresholdInv t where
  last := by
    intro i confState n hcall
    have hcompares := hnone i
    rw [hcall] at hcompares
    exact absurd trivial hcompares
  index := by
    intro i confState n hcall
    have hcompares := hnone i
    rw [hcall] at hcompares
    exact absurd trivial hcompares
  applying := happlying

/-- `SaveState`. With a snapshot no call has read the last index. -/
theorem ThresholdInv.saveState (h : ThresholdInv s) (hc : s.Separated .saveState)
    (ht : s.saveState = some t) : ThresholdInv t := by
  unfold ConfNode.saveState at ht
  split at ht
  · obtain rfl := Option.some.inj ht
    refine h.of_loop rfl rfl le_rfl ?_
    rintro n left ⟨⟩
    exact le_rfl
  · next index confState entries hsaving =>
    obtain rfl := Option.some.inj ht
    have hnone := hc (by simp [hsaving, ConfPhase.SavesSnapshot])
    exact .of_none hnone (by simp)
  · cases ht

/-- `setAppliedIndex` in `applySnapshotToFSM`. -/
theorem ThresholdInv.restoreAppliedIndex (h : ThresholdInv s) (ht : s.restoreAppliedIndex = some t) :
    ThresholdInv t := by
  unfold ConfNode.restoreAppliedIndex at ht
  split at ht
  · split_ifs at ht with hle
    obtain rfl := Option.some.inj ht
    exact h.of_loop rfl rfl (not_le.mp hle).le (by simp)
  · cases ht

/-- `applyEntries` applies an entry. -/
theorem ThresholdInv.applyEntry (h : ThresholdInv s) (ht : s.applyEntry log = some t) : ThresholdInv t := by
  unfold ConfNode.applyEntry at ht
  split at ht
  · next last left happlying =>
    have hle := h.applying _ _ happlying
    split at ht
    all_goals
      obtain rfl := Option.some.inj ht
      refine h.of_loop rfl rfl le_rfl ?_
      rintro n left ⟨⟩
      exact hle.trans (Nat.le_succ last)
  · cases ht

/-- `setAppliedIndex` in `applyEntries`. -/
theorem ThresholdInv.setAppliedIndex (h : ThresholdInv s) (ht : s.setAppliedIndex = some t) :
    ThresholdInv t := by
  unfold ConfNode.setAppliedIndex at ht
  split at ht
  · next last happlying =>
    obtain rfl := Option.some.inj ht
    exact h.of_loop rfl rfl (h.applying _ _ happlying) (by simp)
  · cases ht

variable [DecidableEq ι]

/-- A call changes, and what it has read is so. -/
theorem ThresholdInv.setCall (h : ThresholdInv s) {c : SnapshotCall}
    (hlast : ∀ confState n, c = .last confState n → n = s.snapshotIndex ∧ n ≤ s.appliedIndex)
    (hindex : ∀ confState n, c = .index confState n → s.snapshotIndex + defaultSnapshotCount ≤ n) :
    ThresholdInv (s.setCall i c) where
  last := (Function.forall_update_iff s.calls fun _ c => ∀ confState n, c = .last confState n →
    n = s.snapshotIndex ∧ n ≤ s.appliedIndex).mpr ⟨hlast, fun j _ => h.last j⟩
  index := (Function.forall_update_iff s.calls fun _ c => ∀ confState n, c = .index confState n →
    s.snapshotIndex + defaultSnapshotCount ≤ n).mpr ⟨hindex, fun j _ => h.index j⟩
  applying := h.applying

/-- `LastSnapshotIndex` of a call, while the snapshot in the storage is not ahead. -/
theorem ThresholdInv.lastSnapshotIndex (h : ThresholdInv s) (hle : s.snapshotIndex ≤ s.appliedIndex)
    (ht : s.lastSnapshotIndex i = some t) : ThresholdInv t := by
  unfold ConfNode.lastSnapshotIndex at ht
  split at ht
  · obtain rfl := Option.some.inj ht
    refine h.setCall ?_ (by simp)
    rintro _ n ⟨⟩
    exact ⟨rfl, hle⟩
  · cases ht

/-- `getAppliedIndex` of a call, and its check. -/
theorem ThresholdInv.getAppliedIndex (h : ThresholdInv s) (ht : s.getAppliedIndex i = some t) :
    ThresholdInv t := by
  unfold ConfNode.getAppliedIndex at ht
  split at ht
  · next confState snapshotIndex hcall =>
    obtain ⟨heq, hle⟩ := h.last i _ _ hcall
    split_ifs at ht with hneeded
    · obtain rfl := Option.some.inj ht
      refine h.setCall (by simp) ?_
      rintro _ n ⟨⟩
      rw [← heq]
      exact add_le_of_snapshotNeeded hle hneeded
    · obtain rfl := Option.some.inj ht
      exact h.setCall (by simp) (by simp)
  · cases ht

/-- `CreateSnapshot` has stored the snapshot, while no other call has read the last index. -/
theorem ThresholdInv.createSnapshot (h : ThresholdInv s) (hc : ∀ j, j ≠ i → ¬(s.calls j).Compares)
    (ht : s.createSnapshot i = some t) : ThresholdInv t := by
  unfold ConfNode.createSnapshot at ht
  split at ht
  · obtain rfl := Option.some.inj ht
    -- The call itself is through.
    have hnone : ∀ j, ¬((s.setCall i .idle).calls j).Compares :=
      (Function.forall_update_iff s.calls fun _ c => ¬c.Compares).mpr ⟨id, hc⟩
    exact .of_none hnone h.applying
  · cases ht

/-- A step of a separated run keeps the invariant. -/
theorem ThresholdInv.step (h : ThresholdInv s) (hc : s.Separated a) (ht : s.step log a = some t) :
    ThresholdInv t := by
  replace ht := (act_of_step ht).2
  cases a with
  | ready snapshot entries =>
    simp only [act, ConfNode.ready] at ht
    split at ht
    · obtain rfl := Option.some.inj ht
      exact h.of_loop rfl rfl le_rfl (by simp)
    · cases ht
  | saveState => exact h.saveState hc ht
  | restoreAppliedIndex => exact h.restoreAppliedIndex ht
  | restoreConfState =>
    simp only [act, ConfNode.restoreConfState] at ht
    split at ht
    · obtain rfl := Option.some.inj ht
      refine h.of_loop rfl rfl le_rfl ?_
      rintro n left ⟨⟩
      exact le_rfl
    · cases ht
  | applyEntry => exact h.applyEntry ht
  | setAppliedIndex => exact h.setAppliedIndex ht
  | takeSnapshotIfNeeded i =>
    simp only [act, ConfNode.takeSnapshotIfNeeded] at ht
    split at ht
    · obtain rfl := Option.some.inj ht
      have h' : ThresholdInv (s.setCall i .called) := h.setCall (by simp) (by simp)
      exact h'.of_loop rfl rfl le_rfl (by simp)
    · cases ht
  | selfRemoved =>
    simp only [act, ConfNode.selfRemoved] at ht
    split at ht
    · obtain rfl := Option.some.inj ht
      exact h.of_loop rfl rfl le_rfl (by simp)
    · cases ht
  | fail =>
    obtain rfl := Option.some.inj ht
    exact h.of_loop rfl rfl le_rfl (by simp)
  | getConfState i =>
    simp only [act, ConfNode.getConfState] at ht
    split at ht
    · obtain rfl := Option.some.inj ht
      exact h.setCall (by simp) (by simp)
    · cases ht
  | lastSnapshotIndex i => exact h.lastSnapshotIndex hc ht
  | getAppliedIndex i => exact h.getAppliedIndex ht
  | backupPanics i =>
    simp only [act, ConfNode.backupPanics] at ht
    split at ht
    · obtain rfl := Option.some.inj ht
      exact h.of_loop rfl rfl le_rfl h.applying
    · cases ht
  | createSnapshot i => exact h.createSnapshot hc ht
  | createFailed i =>
    simp only [act, ConfNode.createFailed] at ht
    split at ht
    · obtain rfl := Option.some.inj ht
      exact h.setCall (by simp) (by simp)
    · cases ht

omit [DecidableEq ι] in
/-- With the invariant, the steps respect the threshold. -/
theorem ThresholdInv.respectsThreshold (h : ThresholdInv s) (a : ConfAction ι) : s.RespectsThreshold a := by
  cases a with
  | getAppliedIndex i => exact fun confState n hcall => (h.last i confState n hcall).2
  | backupPanics i | createSnapshot i | createFailed i => exact h.index i
  | _ => trivial

/-- Where no snapshot is stored while another call is between its read of the last index and its own snapshot,
and no call makes that read while the snapshot in the storage is ahead of what is applied, every snapshot that
a call creates is at least `defaultSnapshotCount` above the one in the storage at that moment, and no
difference wraps. -/
theorem snapshots_respect_threshold (hphase : s.phase = .idle) (hcalls : ∀ i, s.calls i = .idle)
    (h : Reaches (step log) Separated s t) (a : ConfAction ι) : t.RespectsThreshold a := by
  have h₀ : ThresholdInv s := ⟨by simp [hcalls], by simp [hcalls], by simp [hphase]⟩
  have hinv : ThresholdInv t := h.invariant h₀ fun _ _ _ hI hc ht => hI.step hc ht
  exact hinv.respectsThreshold a

end Invariant

/-- A call starts, and reads the index of the last snapshot only after one with index seven from the leader is saved,
which is not restored yet. -/
def readWhileRestoring : List (ConfAction Unit) :=
  List.flatten [startCall, [.ready (some (7, ⟨[1], []⟩)) 0, .saveState, .getConfState (), .lastSnapshotIndex ()]]

/-- A node without a snapshot, which has applied nothing. -/
def appliedNone : ConfNode Unit := { appliedAll true with appliedIndex := 0 }

/-- The difference of zero and seven wraps. The call is about to create a snapshot at index zero, below the one in the
storage. -/
theorem snapshot_below_storage :
    ∃ u t, run (step addsNode2) appliedNone readWhileRestoring = some u ∧ ¬u.RespectsThreshold (.getAppliedIndex ()) ∧
      u.step addsNode2 (.getAppliedIndex ()) = some t ∧ t.calls () = .index ⟨[1], []⟩ 0 ∧ t.snapshotIndex = 7 ∧
      ¬t.RespectsThreshold (.backupPanics ()) ∧ ¬t.RespectsThreshold (.createSnapshot ()) := by
  refine ⟨final (step addsNode2) appliedNone readWhileRestoring (by decide +kernel), _, run_final _, ?_, rfl, ?_, ?_,
    ?_, ?_⟩
  · intro h
    exact absurd (h ⟨[1], []⟩ 7 (by decide +kernel)) (by decide +kernel)
  · decide +kernel
  · decide +kernel
  · intro h
    exact absurd (h ⟨[1], []⟩ 0 (by decide +kernel)) (by decide +kernel)
  · intro h
    exact absurd (h ⟨[1], []⟩ 0 (by decide +kernel)) (by decide +kernel)

/-- The call reads both indices before the next Ready. -/
def readBeforeReady : List (ConfAction Unit) :=
  List.flatten [startCall, [.getConfState (), .lastSnapshotIndex (), .getAppliedIndex ()]]

/-- The node after this. -/
def afterReadBeforeReady : ConfNode Unit :=
  final (guarded (step addsNode2) Separated) (appliedAll true) readBeforeReady (by decide +kernel)

/-- The snapshot at the hundred thousandth entry is far enough above index zero. -/
theorem snapshots_respect_threshold_first :
    afterReadBeforeReady.calls () = .index ⟨[1], []⟩ 100000 ∧
      afterReadBeforeReady.RespectsThreshold (.createSnapshot ()) :=
  ⟨by decide +kernel, snapshots_respect_threshold rfl (fun _ => rfl) (Reaches.final _) _⟩

end ConfNode

end Omashu
