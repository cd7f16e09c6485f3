import Omashu.Lib.Run

/-!
# Starting and stopping the oracle

`onLeaderChange` starts the oracle when this node becomes the leader and closes it when another one does.
`StartServing` makes a `stopNotifier`, on which the window updator waits, and a closer for the watermarks.
`TSO.Close` closes the one and calls `Done` on the other, but it leaves both in their fields. So
`DistributedBadger.Close` on a node that has lost the leadership closes the last `stopNotifier` once more,
which panics (`close_after_leadership`). `balanced_iff` says for which sequences of leaders it does not.

Channels and closers are numbered in the order in which they are made, and what is closed is recorded.
-/

namespace Omashu

open Lib

/-- The channels that one field has held, or the closers. -/
structure Handles where
  /-- The one in the field, `none` for nil. -/
  current : Option ℕ
  /-- How many have been made. -/
  made : ℕ
  /-- Those that have been closed, the last one first. -/
  closed : List ℕ
  deriving DecidableEq

namespace Handles

/-- `make`, assigned to the field. -/
def make (h : Handles) : Handles := ⟨some h.made, h.made + 1, h.closed⟩

/-- `close` of a channel, which panics if it is closed. -/
def close (h : Handles) (c : ℕ) : Option Handles :=
  if c ∈ h.closed then none else some { h with closed := c :: h.closed }

/-- `close` of what is in the field, if it is not nil. -/
def closeCurrent (h : Handles) : Option Handles := h.current.elim (some h) h.close

/-- `Closer.Done` of what is in the field, which does nothing if it is nil. -/
def done (h : Handles) : Handles := { h with closed := h.current.toList ++ h.closed }

/-- Nil is assigned to the field. -/
def clear (h : Handles) : Handles := { h with current := none }

end Handles

/-- A node as far as its oracle is started and stopped. -/
structure Lifecycle where
  lead : ℕ
  /-- `stopNotifier` of the oracle. -/
  stopNotifier : Handles
  /-- `closer` of the oracle, with the calls of `Done`. -/
  closer : Handles
  leaderChangeNotifier : Handles
  /-- The process has terminated, since `StartServing` has failed. -/
  exited : Bool
  deriving DecidableEq

/-- A leader that `handleLeaderChange` is called with, and whether `StartServing` succeeds if it is called. -/
structure LeaderChange where
  newLeader : ℕ
  /-- `StartServing` returns nil. -/
  startServing : Bool
  deriving DecidableEq

namespace Lifecycle

/-- A node without a leader, whose oracle has not been started. -/
def fresh : Lifecycle := ⟨0, ⟨none, 0, []⟩, ⟨none, 0, []⟩, ⟨none, 0, []⟩, false⟩

/-- `TSO.StartServing`, as far as it makes something. -/
def startServing (s : Lifecycle) : Lifecycle :=
  { s with stopNotifier := s.stopNotifier.make, closer := s.closer.make }

/-- `TSO.Close`. -/
def tsoClose (s : Lifecycle) : Option Lifecycle :=
  s.stopNotifier.closeCurrent.map fun stopNotifier => { s with stopNotifier, closer := s.closer.done }

/-- `DistributedBadger.Close`, of which only `TSO.Close` matters here. -/
def close (s : Lifecycle) : Option Lifecycle := if s.exited then some s else s.tsoClose

/-- The part of `onLeaderChange` for a node that has become the leader. -/
def gain (s : Lifecycle) (started : Bool) : Option Lifecycle :=
  let s := { s with leaderChangeNotifier := s.leaderChangeNotifier.make }.startServing
  if started then some s
  -- `Close`, and the panic of the logger.
  else s.tsoClose.map fun s => { s with exited := true }

/-- The part of `onLeaderChange` for a node that is not the leader any more. -/
def lose (s : Lifecycle) : Option Lifecycle := do
  let notifier := s.leaderChangeNotifier.current
  let s ← { s with leaderChangeNotifier := s.leaderChangeNotifier.clear }.tsoClose
  let leaderChangeNotifier ← notifier.elim (some s.leaderChangeNotifier) s.leaderChangeNotifier.close
  return { s with leaderChangeNotifier }

/-- `onLeaderChange`. -/
def onLeaderChange (id : ℕ) (s : Lifecycle) (prevLeader : ℕ) (c : LeaderChange) : Option Lifecycle := do
  let s ← if c.newLeader = id then s.gain c.startServing else some s
  if prevLeader = id ∧ s.exited = false then s.lose else some s

/-- `handleLeaderChange`. -/
def handleLeaderChange (id : ℕ) (s : Lifecycle) (c : LeaderChange) : Option Lifecycle :=
  if s.exited ∨ c.newLeader = s.lead then some s
  else { s with lead := c.newLeader }.onLeaderChange id s.lead c

/-- What should hold at the end: every `stopNotifier` is closed, and `TSO.Close` was called on no closer
twice. -/
def Balanced (s : Lifecycle) : Prop :=
  (∀ n < s.stopNotifier.made, n ∈ s.stopNotifier.closed) ∧ s.closer.closed.Nodup

instance (s : Lifecycle) : Decidable s.Balanced := inferInstanceAs (Decidable (_ ∧ _))

/-- The changes, and then `Close`. A step that closes a channel twice panics, so that there is no result. -/
def shutdown (id : ℕ) (changes : List LeaderChange) : Option Lifecycle :=
  (run (handleLeaderChange id) fresh changes).bind close

/-- The node becomes the leader in one of the changes, and `StartServing` fails. -/
def StartFails (id : ℕ) : ℕ → List LeaderChange → Prop
  | _, [] => False
  | lead, c :: cs => c.newLeader = id ∧ lead ≠ id ∧ c.startServing = false ∨ StartFails id c.newLeader cs

/-- The leader after the changes. -/
def lastLeader (lead : ℕ) (changes : List LeaderChange) : ℕ :=
  (changes.getLast?.map LeaderChange.newLeader).getD lead

/-- How many times the node loses the leadership. -/
def losses (id : ℕ) : ℕ → List LeaderChange → ℕ
  | _, [] => 0
  | lead, c :: cs => (if lead = id ∧ c.newLeader ≠ id then 1 else 0) + losses id c.newLeader cs

/-- The channel that was made last. -/
def lastMade : ℕ → Option ℕ
  | 0 => none
  | n + 1 => some n

/-- A node that has lost the leadership `n` times, and is not the leader. -/
def idle (n lead : ℕ) : Lifecycle :=
  let handles : Handles := ⟨lastMade n, n, (List.range n).reverse⟩
  ⟨lead, handles, handles, handles.clear, false⟩

/-- A node that has lost the leadership `n` times, and is the leader. -/
def serving (n lead : ℕ) : Lifecycle :=
  let handles : Handles := ⟨some n, n + 1, (List.range n).reverse⟩
  ⟨lead, handles, handles, handles, false⟩

/-- A node that has lost the leadership `n` times. -/
def stateAt (id n lead : ℕ) : Lifecycle := if lead = id then serving n lead else idle n lead

section Steps

variable {id n lead : ℕ} {c : LeaderChange} {cs : List LeaderChange}

/-- The leader after the first change is the one before the others. -/
theorem lastLeader_cons : lastLeader lead (c :: cs) = lastLeader c.newLeader cs := by
  unfold lastLeader
  rw [List.getLast?_cons]
  cases cs.getLast? with
  | none | some => rfl

/-- What is closed in order is not closed yet. -/
theorem close_reverse_range (current : Option ℕ) (made : ℕ) :
    Handles.close ⟨current, made, (List.range n).reverse⟩ n =
      some ⟨current, made, (List.range (n + 1)).reverse⟩ := by
  have hnot : n ∉ (List.range n).reverse := by simp
  rw [Handles.close, if_neg hnot, List.range_succ, List.reverse_append]
  rfl

/-- `TSO.Close` on a node that serves. -/
theorem tsoClose_serving (n lead : ℕ) (lcn : Handles) :
    tsoClose { serving n lead with leaderChangeNotifier := lcn } =
      some { serving n lead with
        stopNotifier := ⟨some n, n + 1, (List.range (n + 1)).reverse⟩
        closer := ⟨some n, n + 1, (List.range (n + 1)).reverse⟩
        leaderChangeNotifier := lcn } := by
  have hdone : (serving n lead).closer.done = ⟨some n, n + 1, (List.range (n + 1)).reverse⟩ := by
    rw [List.range_succ, List.reverse_append]
    rfl
  have hstop : (serving n lead).stopNotifier.closeCurrent =
      some ⟨some n, n + 1, (List.range (n + 1)).reverse⟩ := close_reverse_range _ _
  simp only [tsoClose, hstop, hdone, Option.map_some]

/-- All that is made is closed, in order. -/
theorem balanced_of_range {s : Lifecycle} {m : ℕ} (hmade : s.stopNotifier.made = m)
    (hstop : s.stopNotifier.closed = (List.range m).reverse)
    (hcloser : s.closer.closed = (List.range m).reverse) : s.Balanced := by
  constructor
  · rw [hmade, hstop]
    intro k hk
    simpa using hk
  · rw [hcloser, List.nodup_reverse]
    exact List.nodup_range

/-- The node becomes the leader, and the oracle cannot be started. What was made is closed. -/
theorem gain_failed (lead : ℕ) : ∃ t, gain (idle n lead) false = some t ∧ t.exited = true ∧ t.Balanced := by
  have hgain : gain (idle n lead) false = (serving n lead).tsoClose.map fun s => { s with exited := true } := rfl
  rw [hgain, tsoClose_serving]
  exact ⟨_, rfl, rfl, balanced_of_range rfl rfl rfl⟩

/-- The node loses the leadership. -/
theorem lose_serving : lose (serving n lead) = some (idle (n + 1) lead) := by
  unfold lose
  have hclose := tsoClose_serving n lead (serving n lead).leaderChangeNotifier.clear
  have hnotifier : (serving n lead).leaderChangeNotifier.clear.close n =
      some ⟨none, n + 1, (List.range (n + 1)).reverse⟩ := close_reverse_range _ _
  simp only [hclose, Option.bind_eq_bind, Option.bind_some]
  show ((serving n lead).leaderChangeNotifier.clear.close n).bind _ = _
  rw [hnotifier]
  rfl

/-- A change of the leader, unless the oracle is to be started and cannot be. -/
theorem handleLeaderChange_stateAt (h : ¬(c.newLeader = id ∧ lead ≠ id ∧ c.startServing = false)) :
    handleLeaderChange id (stateAt id n lead) c =
      some (stateAt id (n + if lead = id ∧ c.newLeader ≠ id then 1 else 0) c.newLeader) := by
  have hrunning : (stateAt id n lead).exited = false := by
    unfold stateAt
    split_ifs <;> rfl
  have hcurrent : (stateAt id n lead).lead = lead := by
    unfold stateAt
    split_ifs <;> rfl
  rw [handleLeaderChange, hrunning, hcurrent]
  by_cases hsame : c.newLeader = lead
  · -- Nothing changes.
    simp [hsame]
  · rw [if_neg (by simp [hsame])]
    by_cases hlead : lead = id
    · have hnew : c.newLeader ≠ id := fun hnew => hsame (hnew.trans hlead.symm)
      have hstate : stateAt id n lead = serving n lead := if_pos hlead
      have hlost : stateAt id (n + 1) c.newLeader = idle (n + 1) c.newLeader := if_neg hnew
      rw [hstate, if_pos ⟨hlead, hnew⟩, hlost, onLeaderChange, if_neg hnew]
      show (if lead = id ∧ false = false then lose (serving n c.newLeader) else _) = _
      rw [if_pos ⟨hlead, rfl⟩, lose_serving]
    · have hstate : stateAt id n lead = idle n lead := if_neg hlead
      rw [hstate, if_neg (by simp [hlead]), onLeaderChange]
      by_cases hnew : c.newLeader = id
      · have hstart : c.startServing = true := by simpa [hnew, hlead] using h
        have hgained : stateAt id n c.newLeader = serving n c.newLeader := if_pos hnew
        rw [if_pos hnew, hstart, Nat.add_zero, hgained]
        show (if lead = id ∧ false = false then _ else some (serving n c.newLeader)) = _
        rw [if_neg (by simp [hlead])]
      · have hother : stateAt id n c.newLeader = idle n c.newLeader := if_neg hnew
        rw [if_neg hnew, Nat.add_zero, hother]
        show (if lead = id ∧ false = false then _ else some (idle n c.newLeader)) = _
        rw [if_neg (by simp [hlead])]

/-- A node that becomes the leader and cannot start the oracle. -/
theorem handleLeaderChange_failed (hnew : c.newLeader = id) (hlead : lead ≠ id)
    (hstart : c.startServing = false) :
    ∃ t, handleLeaderChange id (stateAt id n lead) c = some t ∧ t.exited = true ∧ t.Balanced := by
  have hstate : stateAt id n lead = idle n lead := if_neg hlead
  obtain ⟨t, hgain, hexited, hbalanced⟩ := gain_failed (n := n) (c.newLeader)
  have hchange : handleLeaderChange id (idle n lead) c =
      (idle n c.newLeader).onLeaderChange id lead c := if_neg (by simp [idle, hnew, Ne.symm hlead])
  refine ⟨t, ?_, hexited, hbalanced⟩
  rw [hstate, hchange, onLeaderChange, if_pos hnew, hstart, hgain]
  show (if lead = id ∧ t.exited = false then _ else some t) = _
  rw [if_neg (by simp [hlead])]

/-- Nothing happens after the process has terminated. -/
theorem run_of_exited {s : Lifecycle} (h : s.exited = true) : run (handleLeaderChange id) s cs = some s := by
  induction cs with
  | nil => rfl
  | cons c cs ih =>
    have hstep : handleLeaderChange id s c = some s := if_pos (.inl h)
    rw [run, hstep]
    exact ih

/-- The node after the changes, where the oracle is started each time it is to be. -/
theorem run_stateAt (h : ¬StartFails id lead cs) :
    run (handleLeaderChange id) (stateAt id n lead) cs =
      some (stateAt id (n + losses id lead cs) (lastLeader lead cs)) := by
  induction cs generalizing n lead with
  | nil => rfl
  | cons c cs ih =>
    obtain ⟨hstart, hrest⟩ := not_or.mp h
    rw [run, handleLeaderChange_stateAt hstart, lastLeader_cons, losses, ← Nat.add_assoc]
    exact ih hrest

/-- Where it is not started once, the process has terminated with everything closed. -/
theorem run_of_startFails (h : StartFails id lead cs) :
    ∃ t, run (handleLeaderChange id) (stateAt id n lead) cs = some t ∧ t.exited = true ∧ t.Balanced := by
  induction cs generalizing n lead with
  | nil => exact h.elim
  | cons c cs ih =>
    by_cases hfirst : c.newLeader = id ∧ lead ≠ id ∧ c.startServing = false
    · obtain ⟨t, hstep, hexited, hbalanced⟩ := handleLeaderChange_failed (n := n) hfirst.1 hfirst.2.1 hfirst.2.2
      refine ⟨t, ?_, hexited, hbalanced⟩
      rw [run, hstep]
      exact run_of_exited hexited
    · rw [run, handleLeaderChange_stateAt hfirst]
      exact ih (h.resolve_left hfirst)

/-- A node that is not the leader in the end has lost the leadership if it has had it. -/
theorem losses_eq_zero_iff (h : lastLeader lead cs ≠ id) :
    losses id lead cs = 0 ↔ lead ≠ id ∧ ∀ c ∈ cs, c.newLeader ≠ id := by
  induction cs generalizing lead with
  | nil =>
    have hlead : lead ≠ id := h
    simp [losses, hlead]
  | cons c cs ih =>
    rw [lastLeader_cons] at h
    rw [losses, Nat.add_eq_zero_iff, ih h, List.forall_mem_cons]
    by_cases hlead : lead = id <;> by_cases hnew : c.newLeader = id <;> simp [hlead, hnew]

/-- `Close` on a node that is the leader. -/
theorem close_serving : ∃ t, close (serving n lead) = some t ∧ t.Balanced := by
  have hclose : close (serving n lead) = (serving n lead).tsoClose := rfl
  rw [hclose, tsoClose_serving n lead (serving n lead).leaderChangeNotifier]
  exact ⟨_, rfl, balanced_of_range rfl rfl rfl⟩

/-- `Close` on a node that has lost the leadership panics. -/
theorem close_idle_succ : close (idle (n + 1) lead) = none := by
  have hclosed : n ∈ (List.range (n + 1)).reverse := by simp
  have hclose : (idle (n + 1) lead).stopNotifier.closeCurrent = none := if_pos hclosed
  show tsoClose _ = none
  rw [tsoClose, hclose]
  rfl

end Steps

/-- The shutdown of a node closes no channel twice, every `stopNotifier` is closed at its end, and `TSO.Close`
was called on each closer at most once, exactly if the node never becomes the leader, or is the leader when it
is shut down, or has terminated already, since the oracle could not be started. The id zero stands for no
leader. -/
theorem balanced_iff {id : ℕ} (hid : id ≠ 0) (changes : List LeaderChange) :
    (∃ t, shutdown id changes = some t ∧ t.Balanced) ↔
      (∀ c ∈ changes, c.newLeader ≠ id) ∨ lastLeader 0 changes = id ∨ StartFails id 0 changes := by
  have hfresh : fresh = stateAt id 0 0 := (if_neg hid.symm).symm
  unfold shutdown
  rw [hfresh]
  by_cases hfails : StartFails id 0 changes
  · obtain ⟨t, hrun, hexited, hbalanced⟩ := run_of_startFails (n := 0) hfails
    have hclose : close t = some t := if_pos hexited
    rw [hrun, Option.bind_some, hclose]
    simp [hbalanced, hfails]
  · rw [run_stateAt hfails, Option.bind_some, Nat.zero_add]
    by_cases hlast : lastLeader 0 changes = id
    · rw [stateAt, if_pos hlast]
      simp [close_serving, hlast]
    · rw [stateAt, if_neg hlast]
      have hzero := losses_eq_zero_iff hlast
      cases hlosses : losses id 0 changes with
      | zero =>
        have hnever := (hzero.mp hlosses).2
        have hbalanced : (idle 0 (lastLeader 0 changes)).Balanced := by simp [Balanced, idle]
        exact iff_of_true ⟨_, rfl, hbalanced⟩ (.inl hnever)
      | succ n =>
        rw [close_idle_succ]
        have hnever : ¬∀ c ∈ changes, c.newLeader ≠ id := fun hnever => by
          simp [hzero.mpr ⟨hid.symm, hnever⟩] at hlosses
        simp [hnever, hlast, hfails]

/-- A node that becomes the leader, and another one after it. -/
def gainedAndLost : List LeaderChange := [⟨1, true⟩, ⟨2, true⟩]

/-- Shutting down node 1 after this closes its `stopNotifier` twice. -/
theorem close_after_leadership : shutdown 1 gainedAndLost = none := by decide

/-- It does not if node 1 is the leader again. -/
theorem balanced_iff_regained : ∃ t, shutdown 1 (gainedAndLost ++ [⟨1, true⟩]) = some t ∧ t.Balanced :=
  (balanced_iff (by decide) _).mpr (.inr (.inl (by decide)))

end Lifecycle

end Omashu
