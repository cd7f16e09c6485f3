import Omashu.Leader.Conflicts
import Omashu.Tso.Terms

/-!
# A node over its terms as the leader

`handleLeaderChange` publishes the new leader first and calls `onLeaderChange` then. A node that has become
the leader runs `StartServing`, which initialises the watermarks, reads the persisted bound, proposes a new
one and sets the bounds of the watermarks. A node that was the leader runs `Close`. All of this takes place
in the Ready loop, which processes no other change meanwhile. The calls of the clients run beside it. They
ask for the leader once, at their start, and the oracle does not ask at all.

So the oracle is used before `StartServing` is through, and by calls that started in an earlier term
(`timestamps_outside_term`). Where calls are admitted only while the oracle serves, and a leader is
replaced only while no call is on its way to a commit timestamp, the oracle is used only while it serves
and in the term in which the transaction got its read timestamp (`timestamps_inside_term`).

`TSO.Close` ends the window updator and calls `Done` on the closer, which does not signal it. So the
goroutines of the watermarks go on, until `Init` in a later `StartServing` starts new ones that have
nothing pending.

`serving`, `term`, `readTerm` and `uses` are not part of the program. They record where the node is in its
term, and for each step of `ReadTs` and of `Commit` up to `newCommitTs` where it took place.
-/

namespace Omashu

open Lib

/-- Where the Ready loop is in `handleLeaderChange`. -/
inductive ChangePhase
  /-- It is elsewhere. -/
  | idle
  /-- Before `StartServing`. -/
  | starting
  /-- In `StartServing`, with the watermarks initialised. -/
  | initialised
  /-- In `StartServing`, with the clock set from the persisted bound. -/
  | loaded
  /-- In `persistUpperboundOnStartup`, with the first bound proposed. -/
  | persisting (upperBound : ℤ)
  /-- The node is not the leader any more, before `Close`. -/
  | lost
  deriving DecidableEq

/-- A step of `ReadTs`, or of `Commit` up to `newCommitTs`. -/
structure OracleUse (ι : Type*) where
  call : ι
  /-- `StartServing` of the term is through, and its `Close` has not begun. -/
  serving : Bool
  term : ℕ
  /-- The term in which the transaction got its read timestamp. -/
  readTerm : ℕ
  /-- The commit timestamp, where the step has got one. -/
  commitTs : Option ℕ
  deriving DecidableEq

/-- A node, with the calls of its clients. -/
structure Server (ι : Type*) where
  /-- The oracle, the calls, the log and the store. -/
  leader : Leader ι
  /-- `lead`: the leader that is published. -/
  lead : ℕ
  /-- `handleLeaderChange`. -/
  handler : ChangePhase
  /-- The watermarks have been initialised. -/
  initialised : Bool
  /-- The calls that have passed the check of `isLeader` and have not called `ReadTs`. -/
  admitted : ι → Bool
  /-- `StartServing` of the term is through, and its `Close` has not begun. -/
  serving : Bool
  /-- How many times the node has become the leader. -/
  term : ℕ
  /-- The term in which a transaction got its read timestamp. -/
  readTerm : ι → ℕ
  /-- The uses of the oracle so far. -/
  uses : List (OracleUse ι)

/-- A step of a node. -/
inductive ServerAction (ι : Type*)
  /-- `handleLeaderChange` publishes a leader. -/
  | leaderChange (newLeader : ℕ)
  /-- `Init` of the watermarks. -/
  | initMarks
  /-- `StartServing` reads the persisted bound and sets the clock. -/
  | load (now : ℤ)
  /-- `calibrate` returns, and `persistUpperboundOnStartup` proposes the first bound. -/
  | persist (now : ℤ)
  /-- The rest of `StartServing`. -/
  | persisted
  /-- `StartServing` fails, and the process terminates. -/
  | startFailed
  /-- `Close` begins. -/
  | close
  /-- Another leader replaces what follows the first entries of the log. -/
  | follow (n : ℕ) (commands : List Command)
  /-- A call passes the check of `isLeader`. -/
  | isLeader (i : ι)
  /-- A step of a call or of the application of the log. -/
  | call (a : Action ι)

/-- The call that uses the oracle in a step. -/
def Action.user {ι : Type*} : Action ι → Option ι
  | .beginTxn i _ | .markRead i | .waitOk i | .waitErr i | .commit i _ => some i
  | _ => none

/-- A call between the critical section of `ReadTs` and the end of `newCommitTs`. -/
def Phase.Open : Phase → Prop
  | .recorded | .begun | .running => True
  | _ => False

instance : (p : Phase) → Decidable p.Open
  | .recorded | .begun | .running => isTrue trivial
  | .idle | .stamped | .leaving _ | .ready | .proposed | .returned _ => isFalse id

namespace Server

variable {ι : Type*} [DecidableEq ι]

/-- The oracle as `StartServing` has it. -/
def tsoNode (s : Server ι) (now : ℤ) (role : Role) : TsoNode :=
  ⟨now, s.leader.store, s.leader.applied, s.leader.tso.toClock, role, s.term, .idle⟩

/-- The process terminates. -/
def exit (s : Server ι) : Server ι := { s with leader := s.leader.terminate }

/-- `handleLeaderChange` up to `StartServing` or `Close`. -/
def handleLeaderChange (nodeId : ℕ) (s : Server ι) (newLeader : ℕ) : Server ι :=
  if newLeader = s.lead then s
  else { s with
    lead := newLeader
    handler := if newLeader = nodeId then .starting else if s.lead = nodeId then .lost else .idle
    term := if newLeader = nodeId then s.term + 1 else s.term }

/-- `Init` of a watermark: what is pending is lost, and the bound stays. -/
def initMarks (s : Server ι) : Server ι :=
  { s with
    leader := { s.leader with tso := { s.leader.tso with
      readMark := WaterMark.setDoneUntil s.leader.tso.readMark.doneUntil
      txnMark := WaterMark.setDoneUntil s.leader.tso.txnMark.doneUntil } }
    initialised := true
    handler := .initialised }

/-- `StartServing` sets the clock. -/
def load (s : Server ι) (now : ℤ) : Server ι :=
  match (s.tsoNode now .starting).load with
  | none => s.exit
  | some n => { s with
      leader := { s.leader with tso := { s.leader.tso with toClock := n.clock } }
      handler := .loaded }

/-- `persistUpperboundOnStartup` up to its proposal. -/
def persist (s : Server ι) (now : ℤ) : Option (Server ι) :=
  (s.tsoNode now .loaded).persist.map fun n =>
    let upperBound := (s.tsoNode now .loaded).startupBound
    let ts := n.clock.current.compose
    { s with
      leader := { s.leader with
        tso := { s.leader.tso with toClock := n.clock }
        log := s.leader.log ++ [⟨none, ⟨ts, ts, .single (setBound upperBound)⟩⟩] }
      handler := .persisting upperBound }

/-- The rest of `StartServing`. -/
def persisted (s : Server ι) (upperBound : ℤ) : Server ι :=
  { s with
    leader := { s.leader with tso := { s.leader.tso with
      toClock := s.leader.tso.toClock.resetSaved upperBound
      readMark := WaterMark.setDoneUntil s.leader.tso.current.compose
      txnMark := WaterMark.setDoneUntil s.leader.tso.current.compose } }
    handler := .idle
    serving := true }

/-- What a step of a call needs besides: a call of `ReadTs` has been admitted, `Begin` blocks on a
watermark that was never initialised, `WaitForMark` compares with the bound, and the Ready loop applies
entries only when it is not in `handleLeaderChange`. -/
def Allows (s : Server ι) : Action ι → Prop
  | .beginTxn i _ => s.admitted i = true
  | .markRead _ => s.initialised = true
  | .waitOk i => (s.leader.calls i).txn.readTs ≤ s.leader.tso.txnMark.doneUntil
  | .apply _ => s.handler = .idle
  | _ => True

omit [DecidableEq ι] in
instance (s : Server ι) : (a : Action ι) → Decidable (s.Allows a)
  | .beginTxn i _ => inferInstanceAs (Decidable (s.admitted i = true))
  | .markRead _ => inferInstanceAs (Decidable (s.initialised = true))
  | .waitOk i => inferInstanceAs
      (Decidable ((s.leader.calls i).txn.readTs ≤ s.leader.tso.txnMark.doneUntil))
  | .apply _ => inferInstanceAs (Decidable (s.handler = .idle))
  | .waitErr _ | .read .. | .write .. | .fail .. | .discard _ | .commit .. | .doneCommit _ | .propose _
  | .ack _ | .timeout _ | .saveBound _ => isTrue trivial

/-- The term of the read timestamp of each call after a step. -/
def readTermAfter (s : Server ι) : Action ι → ι → ℕ
  | .beginTxn i _ => Function.update s.readTerm i s.term
  | _ => s.readTerm

/-- The calls that are admitted after a step. -/
def admittedAfter (s : Server ι) : Action ι → ι → Bool
  | .beginTxn i _ => Function.update s.admitted i false
  | _ => s.admitted

/-- The use of the oracle by a call, in a step to the given state. -/
def use (s : Server ι) (a : Action ι) (l : Leader ι) (i : ι) : OracleUse ι where
  call := i
  serving := s.serving
  term := s.term
  readTerm := s.readTermAfter a i
  commitTs := if (l.calls i).phase = .stamped then some (l.calls i).txn.commitTs else none

/-- The node after a step of the calls or of the application of the log. -/
def afterCall (s : Server ι) (a : Action ι) (l : Leader ι) : Server ι :=
  { s with
    leader := l
    admitted := s.admittedAfter a
    readTerm := s.readTermAfter a
    uses := s.uses ++ (a.user.map (s.use a l)).toList }

/-- A step of a node. -/
def step (M : Merge) (nodeId : ℕ) (s : Server ι) (a : ServerAction ι) : Option (Server ι) :=
  if s.leader.exited then none
  else
    match a, s.handler with
    | .leaderChange newLeader, .idle => some (s.handleLeaderChange nodeId newLeader)
    | .initMarks, .starting => some s.initMarks
    | .load now, .initialised => some (s.load now)
    | .persist now, .loaded => s.persist now
    | .persisted, .persisting upperBound => some (s.persisted upperBound)
    -- `getVal` or `proposeAndWait` returns an error.
    | .startFailed, .initialised | .startFailed, .persisting _ => some s.exit
    | .close, .lost => some { s with serving := false, handler := .idle }
    | .follow n commands, _ =>
      if s.lead ≠ nodeId ∧ s.leader.applied ≤ n then
        some { s with leader := { s.leader with
          log := s.leader.log.take n ++ commands.map fun c => ⟨none, c⟩ } }
      else none
    | .isLeader i, _ =>
      if s.lead = nodeId ∧ (s.leader.calls i).phase = .idle then
        some { s with admitted := Function.update s.admitted i true }
      else none
    | .call a, _ => if s.Allows a then (s.leader.step M a).map (s.afterCall a) else none
    | _, _ => none

/-! ## Calls and terms -/

/-- A call on its way from the check of `isLeader` to the end of `newCommitTs`. -/
def Busy (s : Server ι) (i : ι) : Prop := s.admitted i = true ∨ (s.leader.calls i).phase.Open

omit [DecidableEq ι] in
instance (s : Server ι) (i : ι) : Decidable (s.Busy i) := inferInstanceAs (Decidable (_ ∨ _))

/-- Calls are admitted only while the oracle serves, and this node is replaced as the leader only while no
call is on its way to a commit timestamp. -/
def Handover (nodeId : ℕ) (s : Server ι) : ServerAction ι → Prop
  | .isLeader _ => s.serving = true
  | .leaderChange newLeader => s.lead = nodeId → newLeader ≠ nodeId → ∀ i, ¬s.Busy i
  | _ => True

/-- What holds under the condition. -/
structure Inv (nodeId : ℕ) (s : Server ι) : Prop where
  /-- A call is on its way only while the node is the leader and its oracle serves. -/
  busy : ∀ i, s.Busy i → s.serving = true ∧ s.lead = nodeId
  /-- An open transaction has its read timestamp from the current term. -/
  term : ∀ i, (s.leader.calls i).phase.Open → s.readTerm i = s.term
  /-- `Close` is called when another leader is published. -/
  lost : s.handler = .lost → s.lead ≠ nodeId
  /-- The uses of the oracle so far. -/
  uses : ∀ u ∈ s.uses, u.serving = true ∧ u.readTerm = u.term

variable {M : Merge} {nodeId : ℕ} {s t : Server ι}

/-- The call that uses the oracle begins with it, or is open. -/
theorem open_of_user {l l' : Leader ι} {a : Action ι} {i : ι} (h : l.step M a = some l')
    (hi : a.user = some i) : (∃ kind, a = .beginTxn i kind) ∨ (l.calls i).phase.Open := by
  unfold Leader.step at h
  split_ifs at h
  cases a with
  | beginTxn j kind =>
    obtain rfl := Option.some.inj hi
    exact .inl ⟨kind, rfl⟩
  | markRead j =>
    obtain rfl := Option.some.inj hi
    by_cases hp : (l.calls j).phase = .recorded
    · exact .inr (by rw [hp]; trivial)
    · simp [Leader.markRead, hp] at h
  | waitOk j =>
    obtain rfl := Option.some.inj hi
    by_cases hp : (l.calls j).phase = .begun
    · exact .inr (by rw [hp]; trivial)
    · simp [Leader.waitOk, hp] at h
  | waitErr j =>
    obtain rfl := Option.some.inj hi
    by_cases hp : (l.calls j).phase = .begun
    · exact .inr (by rw [hp]; trivial)
    · simp [Leader.waitErr, hp] at h
  | commit j readings =>
    obtain rfl := Option.some.inj hi
    by_cases hp : (l.calls j).phase = .running
    · exact .inr (by rw [hp]; trivial)
    · simp [Leader.commit, hp] at h
  | _ => cases hi

/-- A call that moves on is open only where it was. -/
theorem open_of_next {p p' : Phase} (h : Leader.Next p p') (hp : p'.Open) : p.Open := by
  cases h with
  | markRead | waitOk | discarded => trivial
  | _ => exact absurd hp id

/-- A call is open after a step only where it was before, or begins. -/
theorem open_of_step {l l' : Leader ι} {a : Action ι} {j : ι} (h : l.step M a = some l')
    (hj : (l'.calls j).phase.Open) : (∃ kind, a = .beginTxn j kind) ∨ (l.calls j).phase.Open := by
  have hcall := Leader.callStep_of_step h j
  generalize l'.calls j = c at hcall hj
  cases hcall with
  | same => exact .inr hj
  | beginTxn _ kind hp => exact .inl ⟨kind, rfl⟩
  | read _ q env hp => exact .inr hj
  | write _ op env p hp hk hp' => exact .inr (by rw [hp]; trivial)
  | stamp _ readings ts tso hp hk hts hh => exact absurd hj id
  | move _ _ p d hnext hw hd hr => exact .inr (open_of_next hnext hj)

omit [DecidableEq ι] in
/-- The oracle, the log and the store may change while the calls and the published leader stay. -/
theorem Inv.of_same (h : s.Inv nodeId) (hcalls : t.leader.calls = s.leader.calls)
    (hadmitted : t.admitted = s.admitted) (hlead : t.lead = s.lead) (hterm : t.term = s.term)
    (hreadTerm : t.readTerm = s.readTerm) (huses : t.uses = s.uses)
    (hserving : s.serving = true → t.serving = true) (hlost : t.handler ≠ .lost) : t.Inv nodeId := by
  refine ⟨?_, ?_, fun hl => absurd hl hlost, ?_⟩
  · intro i hi
    rw [Busy, hcalls, hadmitted] at hi
    obtain ⟨hs, hl⟩ := h.busy i hi
    exact ⟨hserving hs, hlead.trans hl⟩
  · rw [hcalls, hreadTerm, hterm]
    exact h.term
  · rw [huses]
    exact h.uses

omit [DecidableEq ι] in
/-- `handleLeaderChange`. No call is on its way, as the node was not the leader or by the condition. -/
theorem Inv.handleLeaderChange {newLeader : ℕ} (h : s.Inv nodeId)
    (hc : s.lead = nodeId → newLeader ≠ nodeId → ∀ i, ¬s.Busy i) :
    (s.handleLeaderChange nodeId newLeader).Inv nodeId := by
  unfold Server.handleLeaderChange
  split
  · exact h
  next hsame =>
    have hnone : ∀ i, ¬s.Busy i := by
      by_cases hlead : s.lead = nodeId
      · exact hc hlead fun heq => hsame (heq.trans hlead.symm)
      · exact fun i hi => hlead (h.busy i hi).2
    refine ⟨fun i hi => absurd hi (hnone i), fun i hi => absurd (.inr hi) (hnone i), ?_, h.uses⟩
    intro hlost hnew
    have hnew : newLeader = nodeId := hnew
    simp [hnew] at hlost

/-- A step of the calls. -/
theorem Inv.afterCall {a : Action ι} {l : Leader ι} (h : s.Inv nodeId) (ha : s.Allows a)
    (hs : s.leader.step M a = some l) : (s.afterCall a l).Inv nodeId := by
  -- A call that begins was admitted, and every other one is as busy as before.
  have hbegin : ∀ i kind, a = .beginTxn i kind → s.Busy i := by
    rintro i kind rfl
    exact .inl ha
  have hopen : ∀ i, (l.calls i).phase.Open → s.Busy i := by
    intro i hi
    rcases open_of_step hs hi with ⟨kind, hkind⟩ | hi
    · exact hbegin i kind hkind
    · exact .inr hi
  have hterm : ∀ i, (∃ kind, a = .beginTxn i kind) ∨ (s.leader.calls i).phase.Open →
      s.readTermAfter a i = s.term := by
    rintro i (⟨kind, rfl⟩ | hi)
    · simp [readTermAfter]
    · unfold readTermAfter
      split
      next j _ =>
        rw [Function.update_apply]
        split_ifs
        · rfl
        · exact h.term i hi
      · exact h.term i hi
  have hadmitted : ∀ i, s.admittedAfter a i = true → s.admitted i = true := by
    intro i hi
    unfold admittedAfter at hi
    split at hi
    · rw [Function.update_apply] at hi
      split_ifs at hi
      exact hi
    · exact hi
  refine ⟨?_, fun i hi => hterm i (open_of_step hs hi), h.lost, ?_⟩
  · rintro i (hi | hi)
    · exact h.busy i (.inl (hadmitted i hi))
    · exact h.busy i (hopen i hi)
  · intro u hu
    rcases List.mem_append.mp hu with hu | hu
    · exact h.uses u hu
    · obtain ⟨i, hi, rfl⟩ := Option.map_eq_some_iff.mp (Option.mem_toList.mp hu)
      have huser := open_of_user hs hi
      refine ⟨?_, hterm i huser⟩
      rcases huser with ⟨kind, hkind⟩ | hi
      · exact (h.busy i (hbegin i kind hkind)).1
      · exact (h.busy i (.inr hi)).1

/-- One step. -/
theorem Inv.step {a : ServerAction ι} (h : s.Inv nodeId) (hc : s.Handover nodeId a)
    (hs : s.step M nodeId a = some t) : t.Inv nodeId := by
  unfold Server.step at hs
  split_ifs at hs
  split at hs
  · next newLeader _ =>
    cases hs
    exact h.handleLeaderChange hc
  · cases hs
    exact h.of_same rfl rfl rfl rfl rfl rfl id (by simp [initMarks])
  · next now hhandler =>
    cases hs
    unfold load
    split
    · exact h.of_same rfl rfl rfl rfl rfl rfl id (by simp [exit, hhandler])
    · exact h.of_same rfl rfl rfl rfl rfl rfl id (by simp)
  · obtain ⟨n, -, rfl⟩ := Option.map_eq_some_iff.mp hs
    exact h.of_same rfl rfl rfl rfl rfl rfl id (by simp)
  · cases hs
    exact h.of_same rfl rfl rfl rfl rfl rfl (fun _ => rfl) (by simp [persisted])
  · next hhandler =>
    cases hs
    exact h.of_same rfl rfl rfl rfl rfl rfl id (by simp [exit, hhandler])
  · next hhandler =>
    cases hs
    exact h.of_same rfl rfl rfl rfl rfl rfl id (by simp [exit, hhandler])
  · next hhandler =>
    -- `Close`: another leader has been published, so no call is on its way.
    cases hs
    have hlead := h.lost hhandler
    exact ⟨fun i hi => absurd (h.busy i hi).2 hlead, h.term, fun hl => absurd hl (by simp), h.uses⟩
  · split_ifs at hs
    cases hs
    exact ⟨h.busy, h.term, h.lost, h.uses⟩
  · next i _ =>
    split_ifs at hs with hi
    cases hs
    refine ⟨?_, h.term, h.lost, h.uses⟩
    intro j _
    exact ⟨hc, hi.1⟩
  · split_ifs at hs with ha
    obtain ⟨l, hl, rfl⟩ := Option.map_eq_some_iff.mp hs
    exact h.afterCall ha hl
  · cases hs

/-- A node that another one leads. -/
structure Follower (nodeId : ℕ) (s : Server ι) : Prop where
  /-- The published leader is another node, or none. -/
  lead : s.lead ≠ nodeId
  /-- The Ready loop is not in `handleLeaderChange`. -/
  handler : s.handler = .idle

/-- A node that another one leads, without calls that are under way. -/
structure Following (nodeId : ℕ) (s : Server ι) : Prop extends Follower nodeId s where
  /-- No call is on its way. -/
  quiet : ∀ i, ¬s.Busy i
  /-- The uses of the oracle are recorded from here on. -/
  uses : s.uses = []

/-- In every run in which calls are admitted only while the oracle serves, and this node is replaced as the
leader only while no call is on its way to a commit timestamp, the oracle is used only while it serves, and
by a transaction that got its read timestamp in the same term. -/
theorem timestamps_inside_term {s₀ : Server ι} (h₀ : s₀.Following nodeId)
    (h : Reaches (Server.step M nodeId) (Handover nodeId) s₀ s) :
    ∀ u ∈ s.uses, u.serving = true ∧ u.readTerm = u.term := by
  have hstart : s₀.Inv nodeId := by
    refine ⟨fun i hi => absurd hi (h₀.quiet i), fun i hi => absurd (.inr hi) (h₀.quiet i), ?_, ?_⟩
    · exact fun _ => h₀.lead
    · rw [h₀.uses]
      exact fun u hu => absurd hu List.not_mem_nil
  have hinv : s.Inv nodeId := h.invariant hstart fun _ _ _ hI hC hs => hI.step hC hs
  exact hinv.uses

omit [DecidableEq ι] in
instance [Fintype ι] (nodeId : ℕ) (s : Server ι) : (a : ServerAction ι) → Decidable (s.Handover nodeId a)
  | .isLeader _ => inferInstanceAs (Decidable (s.serving = true))
  | .leaderChange _ => inferInstanceAs (Decidable (s.lead = nodeId → _))
  | .initMarks | .load _ | .persist _ | .persisted | .startFailed | .close | .follow .. | .call _ =>
    isTrue trivial

/-- A node that has just been started, with an empty store and any calls to come. -/
def started : Server ι where
  leader := Leader.serving ⟨⟨0, 0⟩, ⟨0, 0⟩⟩ []
  lead := 0
  handler := .idle
  initialised := false
  admitted := fun _ => false
  serving := false
  term := 0
  readTerm := fun _ => 0
  uses := []

omit [DecidableEq ι] in
/-- Another node leads it, or none. -/
theorem follower_started : (started : Server ι).Follower 1 := ⟨by simp [started], rfl⟩

/-- Nothing is under way in it. -/
theorem following_started : (started : Server Two).Following 1 :=
  ⟨follower_started, fun i => by cases i <;> decide, rfl⟩

/-- The node one becomes the leader, up to the end of `StartServing`. -/
def gainLeadership (now : ℤ) : List (ServerAction ι) :=
  [.leaderChange 1, .initMarks, .load now, .persist now, .persisted, .call (.apply someEnv)]

/-- Another node becomes the leader. -/
def loseLeadership : List (ServerAction ι) := [.leaderChange 2, .close]

/-- A call up to the body of its transaction. -/
def enter (i : ι) : List (ServerAction ι) :=
  .isLeader i :: (Leader.beginCall i .transaction).map .call

/-- The body sets a key, and the transaction commits. -/
def setAndCommit (i : Two) (now : ℤ) : List (ServerAction Two) :=
  [.call (.write i (.set [1] [7] none) someEnv), .call (.commit i [now]), .call (.doneCommit i)]

/-- A transaction in each of two terms. -/
def oneInEachTerm : List (ServerAction Two) :=
  List.flatten [gainLeadership 1000, enter .first, setAndCommit .first 1001, loseLeadership,
    gainLeadership 5000, enter .second, setAndCommit .second 5001]

/-- The node after them. -/
def afterOneInEachTerm : Server Two :=
  final (guarded (Server.step rejectDeltas 1) (Handover 1)) started oneInEachTerm (by decide +kernel)

/-- The second transaction has got its timestamps in the second term. -/
theorem timestamps_inside_term_each :
    afterOneInEachTerm.uses.getLast? =
        some ⟨.second, true, 2, 2, some (TimeStamp.mk 5001 1).compose⟩ ∧
      ∀ u ∈ afterOneInEachTerm.uses, u.serving = true ∧ u.readTerm = u.term :=
  ⟨by decide +kernel, timestamps_inside_term following_started (Reaches.final _)⟩

/-- A call that is admitted as soon as the leader is published. -/
def duringStartServing : List (ServerAction Two) :=
  [.leaderChange 1, .isLeader .first, .initMarks, .call (.beginTxn .first .transaction)]

/-- Two calls get the same read timestamp, and the first one gives up. The node loses and gains the
leadership, and the second one commits. -/
def acrossTerms : List (ServerAction Two) :=
  List.flatten [gainLeadership 1000, enter .first, enter .second,
    [.call (.fail .first .conflict), .call (.discard .first)], loseLeadership, gainLeadership 5000,
    setAndCommit .second 5001]

/-- The node in the middle of `StartServing`. -/
def afterDuringStartServing : Server Two :=
  final (guarded (Server.step rejectDeltas 1) fun _ _ => True) started duringStartServing
    (by decide +kernel)

/-- The node in its second term. -/
def afterAcrossTerms : Server Two :=
  final (guarded (Server.step rejectDeltas 1) fun _ _ => True) started acrossTerms (by decide +kernel)

/-- A call of `ReadTs` gets the timestamp zero before `StartServing` has set the clock, and a transaction
that has its read timestamp from the first term gets its commit timestamp in the second one. -/
theorem timestamps_outside_term :
    (Reaches (Server.step rejectDeltas 1) (fun _ _ => True) started afterDuringStartServing ∧
      afterDuringStartServing.handler = .initialised ∧
      (afterDuringStartServing.leader.calls .first).txn.readTs = 0 ∧
      afterDuringStartServing.uses = [⟨.first, false, 1, 1, none⟩]) ∧
    (Reaches (Server.step rejectDeltas 1) (fun _ _ => True) started afterAcrossTerms ∧
      afterAcrossTerms.uses.getLast? =
        some ⟨.second, true, 2, 1, some (TimeStamp.mk 5001 1).compose⟩) :=
  ⟨⟨Reaches.final _, by decide +kernel, by decide +kernel, by decide +kernel⟩,
    Reaches.final _, by decide +kernel⟩

end Server

end Omashu
