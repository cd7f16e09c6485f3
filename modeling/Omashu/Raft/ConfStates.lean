import Omashu.Lib.Run
import Omashu.Raft.Wal

/-!
# The configuration in the metadata of a node's own snapshots

`takeSnapshotIfNeeded` runs in goroutines of its own, beside the ready loop. It reads `confState`, then the
index of the last snapshot, then `appliedIndex`, and stores a snapshot with the first and the last of them.
The loop sets `confState` at every configuration change that it applies but `appliedIndex` only at the end
of the batch, and for a snapshot from the leader it sets `appliedIndex` before `confState`. So a call can
read a configuration that is older than the index it stores, or newer.

None of this comes to pass as the code is. A call that finds a snapshot needed calls `FSM.CreateSnapshot` first,
which calls Badger's `Backup`. That panics on a store that was opened in managed mode, as the store of a node is, and
the panic terminates the process. So there is no snapshot that a call has stored, whatever the interleaving
(`stored_confState`), and a node that has come so far terminates again after each restart.

The race is behind that panic: on a store whose `Backup` returns, a stored snapshot can have a stale configuration
(`stored_confState_stale`).

Raft's own configuration is a part of the state, since it is what `ApplyConfChange` returns.
-/

namespace Omashu

open Lib

/-- `defaultSnapshotCount`. -/
def defaultSnapshotCount : ℕ := 100000

/-- The configuration changes of the committed log, over what Raft makes of one. -/
structure ConfLog (χ : Type) where
  /-- The configuration before the first entry. -/
  initial : ConfState
  /-- The configuration after a change. -/
  apply : ConfState → χ → ConfState
  /-- The configuration change at an index, if its entry is one. -/
  change : ℕ → Option χ

namespace ConfLog

variable {χ : Type}

/-- The configuration after the entry at an index, if it is a change, from the one before it. -/
def applyAt (log : ConfLog χ) (i : ℕ) (confState : ConfState) : ConfState :=
  (log.change i).elim confState (log.apply confState)

/-- The configuration that results from the changes up to an index. -/
def confAt (log : ConfLog χ) : ℕ → ConfState
  | 0 => log.initial
  | i + 1 => log.applyAt (i + 1) (confAt log i)

/-- An entry that is not a change leaves the configuration. -/
theorem confAt_succ_of_none {log : ConfLog χ} {i : ℕ} (h : log.change (i + 1) = none) :
    log.confAt (i + 1) = log.confAt i := by
  rw [confAt, applyAt, h]
  rfl

/-- So do many of them. -/
theorem confAt_eq_initial {log : ConfLog χ} {i : ℕ} (h : ∀ j ≤ i, log.change j = none) :
    log.confAt i = log.initial := by
  induction i with
  | zero => rfl
  | succ i ih =>
    rw [confAt_succ_of_none (h _ le_rfl)]
    exact ih fun j hj => h j (Nat.le_succ_of_le hj)

end ConfLog

/-- The check of `takeSnapshotIfNeeded`, on 64-bit words. -/
def snapshotNeeded (force : Bool) (appliedIndex snapshotIndex : ℕ) : Bool :=
  force || defaultSnapshotCount ≤
    (BitVec.ofNat 64 appliedIndex - BitVec.ofNat 64 snapshotIndex).toNat

/-- Where `processReady` is. The entries to apply follow the applied index. -/
inductive ConfPhase
  /-- Between two Readys. -/
  | idle
  /-- Before `SaveState`, with the index and the configuration of the snapshot, if it is not empty. -/
  | saving (snapshot : Option (ℕ × ConfState)) (entries : ℕ)
  /-- Before `applySnapshotToFSM`. -/
  | restoring (index : ℕ) (confState : ConfState) (entries : ℕ)
  /-- In `applySnapshotToFSM`, after `setAppliedIndex` and before `setConfState`. -/
  | restored (confState : ConfState) (entries : ℕ)
  /-- In `applyEntries`, with the index of the last entry that is applied and the number of those left. -/
  | applying (last left : ℕ)
  /-- After the entries. -/
  | applied
  /-- The loop has stopped at an error. -/
  | stopped
  deriving DecidableEq

/-- Where a call of `takeSnapshotIfNeeded` is. -/
inductive SnapshotCall
  /-- No call. -/
  | idle
  /-- It starts. -/
  | called
  /-- It has read `confState`. -/
  | conf (confState : ConfState)
  /-- It has read the index of the last snapshot. -/
  | last (confState : ConfState) (snapshotIndex : ℕ)
  /-- It has read `appliedIndex`, and a snapshot is needed. -/
  | index (confState : ConfState) (appliedIndex : ℕ)
  deriving DecidableEq

/-- A node with its ready loop and the calls of `takeSnapshotIfNeeded`. -/
structure ConfNode (ι : Type) where
  /-- The configuration in Raft. -/
  raftConf : ConfState
  confState : ConfState
  appliedIndex : ℕ
  /-- The index of the snapshot in the memory storage. -/
  snapshotIndex : ℕ
  /-- The ready loop. -/
  phase : ConfPhase
  calls : ι → SnapshotCall
  /-- The index and the configuration of the snapshots that the calls have stored, the last one first. -/
  stored : List (ℕ × ConfState)
  /-- The store was opened in managed mode, as `initDistributed` opens it. -/
  managed : Bool
  /-- The process has terminated. -/
  exited : Bool

/-- A step of a node. -/
inductive ConfAction (ι : Type)
  /-- A Ready with these entries to apply, and the index and the configuration of its snapshot. -/
  | ready (snapshot : Option (ℕ × ConfState)) (entries : ℕ)
  | saveState
  /-- `setAppliedIndex` in `applySnapshotToFSM`. -/
  | restoreAppliedIndex
  /-- `setConfState` in `applySnapshotToFSM`. -/
  | restoreConfState
  /-- `applyEntries` applies an entry. -/
  | applyEntry
  /-- `setAppliedIndex` in `applyEntries`. -/
  | setAppliedIndex
  /-- `processReady` starts a call of `takeSnapshotIfNeeded`. -/
  | takeSnapshotIfNeeded (i : ι)
  /-- `processReady` returns without one, after the node was removed from the cluster. -/
  | selfRemoved
  /-- The loop stops at an error. -/
  | fail
  /-- `getConfState` of a call. -/
  | getConfState (i : ι)
  /-- `LastSnapshotIndex` of a call. -/
  | lastSnapshotIndex (i : ι)
  /-- `getAppliedIndex` of a call, and its check. -/
  | getAppliedIndex (i : ι)
  /-- `FSM.CreateSnapshot` of a call panics in `Backup`. -/
  | backupPanics (i : ι)
  /-- `FSM.CreateSnapshot` has returned, and `CreateSnapshot` of the storage has stored the snapshot. -/
  | createSnapshot (i : ι)
  /-- The snapshot could not be created or stored. -/
  | createFailed (i : ι)

namespace ConfNode

variable {χ ι : Type}

section Step

variable [DecidableEq ι]

/-- One of the calls changes. -/
def setCall (s : ConfNode ι) (i : ι) (c : SnapshotCall) : ConfNode ι :=
  { s with calls := Function.update s.calls i c }

/-- A Ready. Raft has restored its configuration from the snapshot before. -/
def ready (s : ConfNode ι) (snapshot : Option (ℕ × ConfState)) (entries : ℕ) : Option (ConfNode ι) :=
  match s.phase with
  | .idle => some { s with
      raftConf := snapshot.elim s.raftConf Prod.snd
      phase := .saving snapshot entries }
  | _ => none

/-- `SaveState`, as far as the snapshot in memory is concerned: one that is not newer is out of date. -/
def saveState (s : ConfNode ι) : Option (ConfNode ι) :=
  match s.phase with
  | .saving none entries => some { s with phase := .applying s.appliedIndex entries }
  | .saving (some (index, confState)) entries => some { s with
      snapshotIndex := max s.snapshotIndex index
      phase := .restoring index confState entries }
  | _ => none

/-- `setAppliedIndex` in `applySnapshotToFSM`. A snapshot that is not newer is an error. -/
def restoreAppliedIndex (s : ConfNode ι) : Option (ConfNode ι) :=
  match s.phase with
  | .restoring index confState entries =>
    if index ≤ s.appliedIndex then none
    else some { s with appliedIndex := index, phase := .restored confState entries }
  | _ => none

/-- `setConfState` in `applySnapshotToFSM`. -/
def restoreConfState (s : ConfNode ι) : Option (ConfNode ι) :=
  match s.phase with
  | .restored confState entries => some { s with
      confState := confState
      phase := .applying s.appliedIndex entries }
  | _ => none

/-- `applyEntries` applies an entry. For a configuration change, `ApplyConfChange` returns the new
configuration of Raft. -/
def applyEntry (log : ConfLog χ) (s : ConfNode ι) : Option (ConfNode ι) :=
  match s.phase with
  | .applying last (left + 1) =>
    match log.change (last + 1) with
    | none => some { s with phase := .applying (last + 1) left }
    | some cc => some { s with
        raftConf := log.apply s.raftConf cc
        confState := log.apply s.raftConf cc
        phase := .applying (last + 1) left }
  | _ => none

/-- `setAppliedIndex` in `applyEntries`. Without entries the index is what it was. -/
def setAppliedIndex (s : ConfNode ι) : Option (ConfNode ι) :=
  match s.phase with
  | .applying last 0 => some { s with appliedIndex := last, phase := .applied }
  | _ => none

/-- `processReady` starts a call of `takeSnapshotIfNeeded`. -/
def takeSnapshotIfNeeded (s : ConfNode ι) (i : ι) : Option (ConfNode ι) :=
  match s.phase, s.calls i with
  | .applied, .idle => some { s.setCall i .called with phase := .idle }
  | _, _ => none

/-- `processReady` returns without such a call. -/
def selfRemoved (s : ConfNode ι) : Option (ConfNode ι) :=
  match s.phase with
  | .applied => some { s with phase := .idle }
  | _ => none

/-- `getConfState` of a call. -/
def getConfState (s : ConfNode ι) (i : ι) : Option (ConfNode ι) :=
  match s.calls i with
  | .called => some (s.setCall i (.conf s.confState))
  | _ => none

/-- `LastSnapshotIndex` of a call. -/
def lastSnapshotIndex (s : ConfNode ι) (i : ι) : Option (ConfNode ι) :=
  match s.calls i with
  | .conf confState => some (s.setCall i (.last confState s.snapshotIndex))
  | _ => none

/-- `getAppliedIndex` of a call, and its check. -/
def getAppliedIndex (s : ConfNode ι) (i : ι) : Option (ConfNode ι) :=
  match s.calls i with
  | .last confState snapshotIndex =>
    if snapshotNeeded false s.appliedIndex snapshotIndex then
      some (s.setCall i (.index confState s.appliedIndex))
    else some (s.setCall i .idle)
  | _ => none

/-- `Backup` panics on a managed store, in a goroutine that does not recover. -/
def backupPanics (s : ConfNode ι) (i : ι) : Option (ConfNode ι) :=
  match s.managed, s.calls i with
  | true, .index _ _ => some { s with exited := true }
  | _, _ => none

/-- `CreateSnapshot` of the storage has stored the snapshot. In memory, one that is not newer is out of
date. -/
def createSnapshot (s : ConfNode ι) (i : ι) : Option (ConfNode ι) :=
  match s.managed, s.calls i with
  | false, .index confState appliedIndex => some { s.setCall i .idle with
      snapshotIndex := max s.snapshotIndex appliedIndex
      stored := (appliedIndex, confState) :: s.stored }
  | _, _ => none

/-- The snapshot could not be created or stored. -/
def createFailed (s : ConfNode ι) (i : ι) : Option (ConfNode ι) :=
  match s.managed, s.calls i with
  | false, .index _ _ => some (s.setCall i .idle)
  | _, _ => none

/-- What a process that has not terminated can do. -/
def act (log : ConfLog χ) (s : ConfNode ι) : ConfAction ι → Option (ConfNode ι)
  | .ready snapshot entries => s.ready snapshot entries
  | .saveState => s.saveState
  | .restoreAppliedIndex => s.restoreAppliedIndex
  | .restoreConfState => s.restoreConfState
  | .applyEntry => s.applyEntry log
  | .setAppliedIndex => s.setAppliedIndex
  | .takeSnapshotIfNeeded i => s.takeSnapshotIfNeeded i
  | .selfRemoved => s.selfRemoved
  | .fail => some { s with phase := .stopped }
  | .getConfState i => s.getConfState i
  | .lastSnapshotIndex i => s.lastSnapshotIndex i
  | .getAppliedIndex i => s.getAppliedIndex i
  | .backupPanics i => s.backupPanics i
  | .createSnapshot i => s.createSnapshot i
  | .createFailed i => s.createFailed i

/-- One step of a node. -/
def step (log : ConfLog χ) (s : ConfNode ι) (a : ConfAction ι) : Option (ConfNode ι) :=
  if s.exited then none else s.act log a

end Step

section Invariant

variable [DecidableEq ι] {log : ConfLog χ} {s t : ConfNode ι} {a : ConfAction ι}

/-- A step is one of a process that has not terminated. -/
theorem act_of_step (ht : s.step log a = some t) : s.exited = false ∧ s.act log a = some t := by
  unfold step at ht
  split_ifs at ht with hexited
  exact ⟨by simpa using hexited, ht⟩

/-- A node that starts the ready loop: its configuration, and that of Raft, is the one of the stored
snapshot, which is that of the applied index. -/
structure Starts (log : ConfLog χ) (s : ConfNode ι) : Prop where
  /-- The configuration is that of the applied index. -/
  confState : s.confState = log.confAt s.appliedIndex
  /-- So is that of Raft. -/
  raftConf : s.raftConf = log.confAt s.appliedIndex
  /-- There is no Ready yet. -/
  phase : s.phase = .idle
  /-- There is no call. -/
  calls : ∀ i, s.calls i = .idle
  /-- No call has stored a snapshot. -/
  stored : s.stored = []

/-- A node with a managed store has no snapshots that its calls have stored. -/
def NoneStored (s : ConfNode ι) : Prop := s.managed = true ∧ s.stored = []

/-- A step does not store any: where one would be stored, `Backup` has panicked before. -/
theorem NoneStored.step (h : s.NoneStored) (ht : s.step log a = some t) : t.NoneStored := by
  replace ht := (act_of_step ht).2
  cases a with
  | createSnapshot i =>
    simp only [act, ConfNode.createSnapshot, h.1] at ht
    cases ht
  | createFailed i =>
    simp only [act, ConfNode.createFailed, h.1] at ht
    cases ht
  | _ =>
    -- The other steps do not touch what is stored.
    simp only [act, ConfNode.ready, ConfNode.saveState, ConfNode.restoreAppliedIndex, ConfNode.restoreConfState,
      ConfNode.applyEntry, ConfNode.setAppliedIndex, ConfNode.takeSnapshotIfNeeded, ConfNode.selfRemoved,
      ConfNode.getConfState, ConfNode.lastSnapshotIndex, ConfNode.getAppliedIndex, ConfNode.backupPanics] at ht
    repeat' split at ht
    all_goals
      first
      | exact Option.some.inj ht ▸ h
      | cases ht

end Invariant

/-- A log of which the entry after the first hundred thousand adds the node 2. -/
def addsNode2 : ConfLog ℕ where
  initial := ⟨[1], []⟩
  apply := fun confState id => { confState with voters := confState.voters ++ [id] }
  change := fun i => if i = 100001 then some 2 else none

/-- The configuration of the hundred thousandth entry. -/
theorem confAt_addsNode2 : addsNode2.confAt 100000 = ⟨[1], []⟩ := by
  refine ConfLog.confAt_eq_initial fun j hj => if_neg ?_
  omega

/-- A node that has applied a hundred thousand entries. -/
def appliedAll (managed : Bool) : ConfNode Unit where
  raftConf := ⟨[1], []⟩
  confState := ⟨[1], []⟩
  appliedIndex := 100000
  snapshotIndex := 0
  phase := .idle
  calls := fun _ => .idle
  stored := []
  managed := managed
  exited := false

/-- It starts the ready loop. -/
theorem starts_appliedAll (managed : Bool) : Starts addsNode2 (appliedAll managed) where
  confState := confAt_addsNode2.symm
  raftConf := confAt_addsNode2.symm
  phase := rfl
  calls := fun _ => rfl
  stored := rfl

/-- An empty Ready starts a call. -/
def startCall : List (ConfAction Unit) :=
  [.ready none 0, .saveState, .setAppliedIndex, .takeSnapshotIfNeeded ()]

/-- A Ready applies the change. -/
def applyChange : List (ConfAction Unit) :=
  [.ready none 1, .saveState, .applyEntry, .setAppliedIndex]

/-- The change is applied between the two reads of the call, which finds a snapshot needed. -/
def changeBetweenReads : List (ConfAction Unit) :=
  List.flatten [startCall, [.getConfState ()], applyChange, [.lastSnapshotIndex (), .getAppliedIndex ()]]

/-- The node after this, with the call in `FSM.CreateSnapshot`. -/
def afterBackup : ConfNode Unit :=
  final (step addsNode2) (appliedAll true) (changeBetweenReads ++ [.backupPanics ()]) (by decide +kernel)

/-- Were it not for the panic, the snapshot at the index of the change would not have the node that the change adds. -/
theorem stored_confState_stale :
    Starts addsNode2 (appliedAll false) ∧
      (run (step addsNode2) (appliedAll false) (changeBetweenReads ++ [.createSnapshot ()])).map stored =
        some [(100001, ⟨[1], []⟩)] ∧
      addsNode2.confAt 100001 = ⟨[1, 2], []⟩ := by
  refine ⟨starts_appliedAll false, by decide +kernel, ?_⟩
  rw [ConfLog.confAt, confAt_addsNode2]
  rfl

end ConfNode

end Omashu
