import Mathlib.Data.Fintype.Option
import Omashu.Leader.History
import Omashu.Tso.Terms

/-!
# The discard timestamp of the garbage collection

`runVlogGC` passes the bound of the pending reads (`DiscardAt`) to Badger on each tick, which may then drop
all but the latest version of a key at or below it. A read at a smaller timestamp would miss what is
dropped. Such reads are still to come from the open transactions, and from the commands that the node is to
apply: an `INCR_BY` or an `UPDATE` reads at the read timestamp of its transaction when it is applied, and
after a restart every command above the last Raft snapshot is applied once more.

A transaction gives its pending read back when it commits, and `StartServing` sets the bound to the first
timestamp of the term. So the bound passes the commands that are not applied yet (`gc_passes_command`).
Besides, `ReadTs` records its timestamp before it marks it. Where at each tick no call is between these
two, and every read timestamp above that of a command which was given back is above that of a transaction
which is still open, the discard timestamp is not above the read timestamp of an open transaction or of a
command that may still be applied (`gc_keeps_reads`). The clock of the oracle has to move forward, too: a
transaction that gets the read timestamp of one which has committed shares its mark.

The node is a leader of one term that may be restarted and then follow or lead. `released` and `ticks` are
not part of the program: they record the timestamps that were given back, and what held at each tick.
-/

namespace Omashu

open Lib

/-- A tick of the garbage collection. -/
structure GcTick where
  /-- The timestamp that `SetDiscardTs` is given. -/
  discardTs : ℕ
  /-- The read timestamps of the open transactions. -/
  openReads : Finset ℕ
  /-- The read timestamps of the commands that may still be applied. -/
  commandReads : Finset ℕ
  deriving DecidableEq

/-- A node with its garbage collection. -/
structure GcNode (ι : Type*) where
  /-- The oracle, the calls, the log and the store. -/
  leader : Leader ι
  /-- The node leads, and its oracle serves. -/
  serving : Bool
  /-- How many entries of the log are in the last Raft snapshot. -/
  snapshotIndex : ℕ
  /-- The bounds that the pending reads were set to, and the read timestamps that were given back. -/
  released : Finset ℕ
  /-- The ticks so far. -/
  ticks : List GcTick

/-- A step of a node. -/
inductive GcAction (ι : Type*)
  /-- A step of a call or of the application of the log. -/
  | leader (a : Action ι)
  /-- `StartServing`, to the given clock. -/
  | serve (clock : Clock)
  /-- Another leader replaces what follows the first entries of the log. -/
  | follow (n : ℕ) (commands : List Command)
  /-- `takeSnapshotIfNeeded` saves a Raft snapshot. -/
  | takeSnapshot (k : ℕ)
  /-- The process is started again, with the entries of the log that are on the disk. -/
  | restart (n : ℕ)
  /-- A tick of `runVlogGC`. -/
  | gcTick

/-- `DiscardAt`. -/
def Tso.discardAt (tso : Tso) : ℕ := tso.readMark.doneUntil

namespace GcNode

variable {ι : Type*}

/-- A process that has just been started, on a store and a log with a Raft snapshot. -/
def boot (store : Store) (log : List Command) (snapshotIndex : ℕ) : GcNode ι where
  leader := { Leader.serving ⟨⟨0, 0⟩, ⟨0, 0⟩⟩ store with
    log := log.map fun c => ⟨none, c⟩
    applied := snapshotIndex }
  serving := false
  snapshotIndex := snapshotIndex
  released := {0}
  ticks := []

/-- `StartServing`, which proposes its upper bound and sets the bounds of the watermarks. -/
def serve (s : GcNode ι) (clock : Clock) : GcNode ι :=
  let ts := clock.current.compose
  { s with
    leader := { s.leader with
      tso := { s.leader.tso with
        toClock := clock
        readMark := WaterMark.setDoneUntil ts
        txnMark := WaterMark.setDoneUntil ts }
      log := s.leader.log ++ [⟨none, ⟨ts, ts, .single (setBound clock.saved.physical)⟩⟩] }
    serving := true
    released := insert ts s.released }

/-- The process is started again. The entries above the Raft snapshot are to be applied to the store as it
is. -/
def restart (s : GcNode ι) (n : ℕ) : GcNode ι :=
  { boot s.leader.store ((s.leader.log.take n).map LogEntry.command) s.snapshotIndex with
    ticks := s.ticks }

variable [Fintype ι]

/-- The read timestamps of the open transactions. -/
def openReads (s : GcNode ι) : Finset ℕ :=
  (Finset.univ.filter fun i => (s.leader.calls i).InFlight).image fun i => (s.leader.calls i).txn.readTs

/-- The read timestamps of the commands that may still be applied: those of the log that are not in the
last Raft snapshot, and those that are still to be proposed. -/
def commandReads (s : GcNode ι) : Finset ℕ :=
  ((s.leader.log.drop s.snapshotIndex).map fun e => e.command.readTs).toFinset ∪
    (Finset.univ.filter fun i => (s.leader.calls i).Unproposed).image fun i => (s.leader.calls i).txn.readTs

/-- A tick of `runVlogGC`. -/
def gcTick (s : GcNode ι) : GcNode ι :=
  { s with ticks := s.ticks ++ [⟨s.leader.tso.discardAt, s.openReads, s.commandReads⟩] }

/-- The read timestamps that are given back in a step to the given state. -/
def givenBack (s : GcNode ι) (l : Leader ι) : Finset ℕ :=
  (Finset.univ.filter fun i => (s.leader.calls i).holds = true ∧ (l.calls i).holds = false).image
    fun i => (s.leader.calls i).txn.readTs

/-- The node after a step of the calls or of the application of the log. -/
def afterStep (s : GcNode ι) (l : Leader ι) : GcNode ι :=
  { s with leader := l, released := s.released ∪ s.givenBack l }

/-- A node that does not lead only applies its log. -/
def Allows (s : GcNode ι) : Action ι → Prop
  | .apply _ => True
  | _ => s.serving = true

instance (s : GcNode ι) : (a : Action ι) → Decidable (s.Allows a)
  | .apply _ => isTrue trivial
  | .beginTxn .. | .markRead _ | .waitOk _ | .waitErr _ | .read .. | .write .. | .fail .. | .discard _
  | .commit .. | .doneCommit _ | .propose _ | .ack _ | .timeout _ | .saveBound _ =>
    inferInstanceAs (Decidable (s.serving = true))

variable [DecidableEq ι]

/-- A step of a node. -/
def step (M : Merge) (s : GcNode ι) : GcAction ι → Option (GcNode ι)
  | .leader a => if s.Allows a then (s.leader.step M a).map s.afterStep else none
  | .serve clock => if s.serving ∨ s.leader.exited then none else some (s.serve clock)
  | .follow n commands =>
    if s.serving = false ∧ s.leader.applied ≤ n then
      some { s with leader := { s.leader with
        log := s.leader.log.take n ++ commands.map fun c => ⟨none, c⟩ } }
    else none
  | .takeSnapshot k =>
    if s.snapshotIndex ≤ k ∧ k ≤ s.leader.applied then some { s with snapshotIndex := k } else none
  | .restart n => if s.leader.applied ≤ n then some (s.restart n) else none
  | .gcTick => if s.leader.exited then none else some s.gcTick

/-- The clock moves forward. At a tick no call is between the critical section of `ReadTs` and its mark,
and every timestamp above that of a command which was given back is above that of a transaction which still
holds its pending read. -/
def KeepsReads (s : GcNode ι) : GcAction ι → Prop
  | .leader a => s.leader.AllocatesForward a
  | .gcTick => (∀ i, (s.leader.calls i).phase ≠ .recorded) ∧
    ∀ r ∈ s.commandReads, ∀ m ∈ s.released, r < m →
      ∃ i, (s.leader.calls i).holds = true ∧ (s.leader.calls i).txn.readTs < m
  | _ => True

/-! ## The bound of the pending reads -/

/-- A process that does not lead has no calls, and a new oracle. -/
structure Down (l : Leader ι) : Prop where
  /-- No call has begun. -/
  idle : ∀ i, (l.calls i).phase = .idle
  /-- The bound of the pending reads is zero. -/
  readMark : l.tso.readMark = WaterMark.setDoneUntil 0
  /-- There are no records. -/
  committedTxns : l.tso.committedTxns = []
  /-- No commit timestamp has been handed out. -/
  history : l.history = []

/-- What holds under the condition. -/
structure Inv (s : GcNode ι) : Prop where
  /-- The oracle of a node that leads. -/
  served : s.serving = true → ∃ start, Leader.OracleInv start s.leader
  /-- A node that does not lead. -/
  down : s.serving = false → Down s.leader
  /-- The bound of the pending reads is a timestamp that was given back, or one that it was set to. -/
  within : s.leader.tso.readMark.Within (· ∈ s.released)
  /-- The ticks so far. -/
  ticks : ∀ k ∈ s.ticks, (∀ r ∈ k.openReads, k.discardTs ≤ r) ∧ ∀ r ∈ k.commandReads, k.discardTs ≤ r

variable {M : Merge} {s t : GcNode ι}

omit [Fintype ι] in
/-- Applying the log leaves a process that does not lead as it is. -/
theorem Down.apply {l l' : Leader ι} {env : Env} (h : Down l) (hs : l.step M (.apply env) = some l') :
    Down l' := by
  cases Leader.effect_of_step hs with
  | failed _ i e hp | finish _ i e hp => exact absurd (h.idle i) (by simp [hp])
  | apply | stop | exit => exact ⟨h.idle, h.readMark, h.committedTxns, h.history⟩

/-- The bound of the pending reads after a step of the calls. -/
theorem within_afterStep {start : ℕ} {a : Action ι} {l : Leader ι} (hI : Leader.OracleInv start s.leader)
    (h : s.leader.tso.readMark.Within (· ∈ s.released)) (hs : s.leader.step M a = some l) :
    l.tso.readMark.Within (· ∈ s.released ∪ s.givenBack l) := by
  have hmono : s.leader.tso.readMark.Within (· ∈ s.released ∪ s.givenBack l) :=
    h.mono fun j hj => Finset.mem_union_left _ hj
  rcases hI.toReadsCounted.readMark_step hs with heq | ⟨i, hm⟩ | ⟨i, -, hheld, hdone, hm⟩
  · rw [heq]
    exact hmono
  · exact hmono.mark (.inl one_pos) hm
  · refine hmono.mark (.inr (Finset.mem_union_right _ ?_)) hm
    exact Finset.mem_image.mpr ⟨i, Finset.mem_filter.mpr ⟨Finset.mem_univ i, hheld, hdone⟩, rfl⟩

/-- A step of the calls. -/
theorem Inv.afterStep {a : Action ι} {l : Leader ι} (h : s.Inv) (ha : s.Allows a)
    (hf : s.leader.AllocatesForward a) (hs : s.leader.step M a = some l) : (s.afterStep l).Inv := by
  cases hserving : s.serving with
  | true =>
    obtain ⟨start, hI⟩ := h.served hserving
    exact ⟨fun _ => ⟨start, hI.step hf hs⟩, fun hd => absurd (hserving.symm.trans hd) (by simp),
      within_afterStep hI h.within hs, h.ticks⟩
  | false =>
    have hdown := h.down hserving
    -- Only the log is applied, and the pending reads stay as they are.
    obtain ⟨env, rfl⟩ : ∃ env, a = .apply env := by
      cases a with
      | apply env => exact ⟨env, rfl⟩
      | _ => exact absurd (hserving.symm.trans ha) (by simp)
    have hdown' := hdown.apply hs
    refine ⟨fun hs => absurd (hserving.symm.trans hs) (by simp), fun _ => hdown', ?_, h.ticks⟩
    have hwithin : s.leader.tso.readMark.Within (· ∈ s.released ∪ s.givenBack l) :=
      h.within.mono fun j hj => Finset.mem_union_left _ hj
    rw [hdown.readMark, ← hdown'.readMark] at hwithin
    exact hwithin

omit [Fintype ι] [DecidableEq ι] in
/-- A process that has just been started. -/
theorem Down.boot (store : Store) (log : List Command) (snapshotIndex : ℕ) :
    Down (boot store log snapshotIndex : GcNode ι).leader :=
  ⟨fun _ => rfl, rfl, rfl, rfl⟩

omit [DecidableEq ι] in
/-- `StartServing` of a process that has no calls. -/
theorem Inv.serve (clock : Clock) (h : s.Inv) (hserving : s.serving = false) : (s.serve clock).Inv := by
  have hdown := h.down hserving
  refine ⟨fun _ => ⟨clock.current.compose, ?_⟩, fun hs => absurd hs (by simp [GcNode.serve]),
    WaterMark.within_setDoneUntil (Finset.mem_insert_self _ _), h.ticks⟩
  -- The invariant of the oracle is not about the log, so it starts as in a term with an empty one.
  have hstart : Leader.TermStart clock.current.compose
      { (s.serve clock).leader with log := [], applied := 0 } := by
    refine ⟨hdown.idle, rfl, rfl, rfl, ?_, by simp, le_rfl, hdown.history⟩
    intro c hc
    have hc : c ∈ s.leader.tso.committedTxns := hc
    rw [hdown.committedTxns] at hc
    exact absurd hc List.not_mem_nil
  have hI := hstart.oracleInv
  exact ⟨⟨hI.held, hI.released, hI.inFlight⟩, hI.kept, hI.known, hI.readTs_mem, hI.start_le⟩

omit [DecidableEq ι] in
/-- A tick of the garbage collection. -/
theorem Inv.gcTick (h : s.Inv) (hc : s.KeepsReads .gcTick) : s.gcTick.Inv := by
  obtain ⟨hmarked, hcommands⟩ := hc
  -- The bound never passes a call that holds its pending read.
  have hheld : ∀ i, (s.leader.calls i).holds = true →
      s.leader.tso.discardAt ≤ (s.leader.calls i).txn.readTs := by
    intro i hi
    cases hserving : s.serving with
    | true =>
      obtain ⟨start, hI⟩ := h.served hserving
      exact hI.toReadsCounted.doneUntil_le hi
    | false =>
      have hidle := (h.down hserving).idle i
      simp [Call.holds, hidle] at hi
  refine ⟨h.served, h.down, h.within, ?_⟩
  intro k hk
  rcases List.mem_append.mp hk with hk | hk
  · exact h.ticks k hk
  obtain rfl := List.mem_singleton.mp hk
  constructor
  · intro r hr
    obtain ⟨i, hi, rfl⟩ := Finset.mem_image.mp hr
    rcases (Finset.mem_filter.mp hi).2 with hrec | hholds
    · exact absurd hrec (hmarked i)
    · exact hheld i hholds
  · intro r hr
    -- The bound was given back, and were it above the command, a call below it would hold its read.
    by_contra hlt
    obtain ⟨i, hi, hbelow⟩ := hcommands r hr _ h.within.doneUntil (not_le.mp hlt)
    exact absurd (hheld i hi) (not_le.mpr hbelow)

/-- One step. -/
theorem Inv.step {a : GcAction ι} (h : s.Inv) (hc : s.KeepsReads a) (hs : s.step M a = some t) :
    t.Inv := by
  cases a with
  | leader a =>
    simp only [GcNode.step] at hs
    split_ifs at hs with ha
    obtain ⟨l, hl, rfl⟩ := Option.map_eq_some_iff.mp hs
    exact h.afterStep ha hc hl
  | serve clock =>
    simp only [GcNode.step] at hs
    split_ifs at hs with hserving
    cases hs
    exact h.serve clock (by simpa using fun hs => hserving (.inl hs))
  | follow n commands =>
    simp only [GcNode.step] at hs
    split_ifs at hs with hserving
    cases hs
    have hdown := h.down hserving.1
    exact ⟨fun hs => absurd (hserving.1.symm.trans hs) (by simp),
      fun _ => ⟨hdown.idle, hdown.readMark, hdown.committedTxns, hdown.history⟩, h.within, h.ticks⟩
  | takeSnapshot k =>
    simp only [GcNode.step] at hs
    split_ifs at hs
    cases hs
    exact ⟨h.served, h.down, h.within, h.ticks⟩
  | restart n =>
    simp only [GcNode.step] at hs
    split_ifs at hs
    cases hs
    exact ⟨fun hs => absurd hs (by simp [GcNode.restart, GcNode.boot]), fun _ => Down.boot _ _ _,
      WaterMark.within_setDoneUntil (Finset.mem_singleton_self _), h.ticks⟩
  | gcTick =>
    simp only [GcNode.step] at hs
    split_ifs at hs
    cases hs
    exact h.gcTick hc

/-- In every run that meets the condition, the timestamp that a tick passes to `SetDiscardTs` is not above
the read timestamp of an open transaction, and not above that of a command which the node may still
apply. -/
theorem gc_keeps_reads {store : Store} {log : List Command} {snapshotIndex : ℕ}
    (h : Reaches (GcNode.step M) KeepsReads (boot store log snapshotIndex) s) :
    ∀ k ∈ s.ticks, (∀ r ∈ k.openReads, k.discardTs ≤ r) ∧ ∀ r ∈ k.commandReads, k.discardTs ≤ r := by
  have hstart : (boot store log snapshotIndex : GcNode ι).Inv :=
    ⟨fun hs => absurd hs (by simp [boot]), fun _ => Down.boot store log snapshotIndex,
      WaterMark.within_setDoneUntil (Finset.mem_singleton_self _),
      fun k hk => absurd hk List.not_mem_nil⟩
  have hinv : s.Inv := h.invariant hstart fun _ _ _ hI hC hs => hI.step hC hs
  exact hinv.ticks

instance (s : GcNode ι) : (a : GcAction ι) → Decidable (s.KeepsReads a)
  | .leader a => inferInstanceAs (Decidable (s.leader.AllocatesForward a))
  | .gcTick => inferInstanceAs (Decidable (_ ∧ _))
  | .serve _ | .follow .. | .takeSnapshot _ | .restart _ => isTrue trivial

/-- A call gets as far as the body of its transaction. -/
def opens {ι : Type*} (i : ι) : List (GcAction ι) := (Leader.beginCall i .transaction).map .leader

/-- The transaction of a call sets a key, and its command is proposed. -/
def sets {ι : Type*} (i : ι) (now : ℤ) : List (GcAction ι) :=
  [.leader (.write i (.set [1] [7] none) someEnv), .leader (.commit i [now]), .leader (.doneCommit i),
    .leader (.discard i), .leader (.propose i)]

/-- The transaction of a call gives up. -/
def givesUp {ι : Type*} (i : ι) : List (GcAction ι) :=
  [.leader (.fail i .conflict), .leader (.discard i)]

/-- A transaction is open at a tick, and a second one has been committed. The process is started again
before the next tick. -/
def openAtTick : List (GcAction Two) :=
  List.flatten [[.serve Leader.clockAt1000], opens .first, opens .second, sets .second 1001,
    [.gcTick, .restart 2, .gcTick]]

/-- The node after both ticks. -/
def afterOpenAtTick : GcNode Two :=
  final (guarded (GcNode.step rejectDeltas) KeepsReads) (boot [] [] 0) openAtTick (by decide +kernel)

/-- The first tick passes the read timestamp of both. After the restart it is zero, and the command is
still to be applied. -/
theorem gc_keeps_reads_open :
    afterOpenAtTick.ticks =
        [⟨(TimeStamp.mk 1000 1).compose, {(TimeStamp.mk 1000 1).compose}, {(TimeStamp.mk 1000 1).compose}⟩,
          ⟨0, ∅, {(TimeStamp.mk 1000 1).compose}⟩] ∧
      ∀ k ∈ afterOpenAtTick.ticks,
        (∀ r ∈ k.openReads, k.discardTs ≤ r) ∧ ∀ r ∈ k.commandReads, k.discardTs ≤ r :=
  ⟨by decide +kernel, gc_keeps_reads (Reaches.final _)⟩

/-- A transaction commits, and one that begins after it is given up. -/
def commandAtTick : List (GcAction Two) :=
  List.flatten [[.serve Leader.clockAt1000], opens .first, sets .first 1001, opens .second,
    givesUp .second, [.gcTick]]

/-- The node after the tick. -/
def afterCommandAtTick : GcNode Two :=
  final (guarded (GcNode.step rejectDeltas) fun _ _ => True) (boot [] [] 0) commandAtTick
    (by decide +kernel)

/-- The same with a call that has its read timestamp from before and has not marked it. -/
def unmarkedAtTick : List (GcAction (Option Two)) :=
  List.flatten [[.serve Leader.clockAt1000, .leader (.beginTxn none .transaction)], opens (some .first),
    sets (some .first) 1001, opens (some .second), givesUp (some .second), [.gcTick]]

/-- The node after the tick. -/
def afterUnmarkedAtTick : GcNode (Option Two) :=
  final (guarded (GcNode.step rejectDeltas) fun _ _ => True) (boot [] [] 0) unmarkedAtTick
    (by decide +kernel)

/-- The discard timestamp is above the read timestamp of a command that is not applied yet, and above that
of an open transaction. -/
theorem gc_passes_command :
    (Reaches (GcNode.step rejectDeltas) (fun _ _ => True) (boot [] [] 0) afterCommandAtTick ∧
      afterCommandAtTick.leader.applied = 0 ∧
      afterCommandAtTick.ticks =
        [⟨(TimeStamp.mk 1001 1).compose, ∅, {(TimeStamp.mk 1000 1).compose}⟩]) ∧
    (Reaches (GcNode.step rejectDeltas) (fun _ _ => True) (boot [] [] 0) afterUnmarkedAtTick ∧
      afterUnmarkedAtTick.ticks =
        [⟨(TimeStamp.mk 1001 1).compose, {(TimeStamp.mk 1000 1).compose},
          {(TimeStamp.mk 1000 1).compose}⟩]) ∧
    (TimeStamp.mk 1000 1).compose < (TimeStamp.mk 1001 1).compose :=
  ⟨⟨Reaches.final _, by decide +kernel, by decide +kernel⟩,
    ⟨Reaches.final _, by decide +kernel⟩, by decide⟩

end GcNode

end Omashu
