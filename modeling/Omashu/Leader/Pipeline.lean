import Omashu.Leader.Order

/-!
# The way of a command into the log

`proposeAndWait` puts a command on `proposeReqNotifier`, a channel that holds one, and
`proposeHandler` takes the commands from it one by one and proposes them to Raft. A node that has been
removed refuses them, and an error of `Node.Propose` ends the handler. `Pipeline` is the leader with
this channel and the handler, so its log has only what Raft has accepted.

The channel and the handler keep the order. With the commands under way counted as proposed already, a
pipeline is a leader whose calls propose in one step (`Pipeline.toLeader`), and every step of it is
one of that leader's or none (`toLeader_step`). So what holds of the log of every leader holds of the
commands that were put on the channel.

`writeChLock` is meant to make the timestamp and the channel one step, but it is released before
`proposeAndWait` is called. The commands are put on the channel in the order of their timestamps where
each call comes to it in its turn.
-/

namespace Omashu

open Lib

/-- The leader with its way to the Raft log. -/
structure Pipeline (ι : Type*) where
  /-- The leader, whose log has what Raft has accepted. -/
  leader : Leader ι
  /-- `proposeReqNotifier`, which holds one command. -/
  proposeReqNotifier : Option (LogEntry ι)
  /-- The command that `proposeHandler` has received. -/
  handler : Option (LogEntry ι)
  /-- The commands that were refused, or lost with the handler. -/
  refused : List (LogEntry ι)
  /-- The node has been removed from the cluster. -/
  selfRemoved : Bool
  /-- `proposeHandler` has returned. -/
  stopped : Bool
  /-- The commands that were put on `proposeReqNotifier`, in order. -/
  sent : List (LogEntry ι)

/-- A step of the pipeline. -/
inductive PipelineAction (ι : Type*)
  /-- A step of the leader other than a proposal. -/
  | leader (a : Action ι)
  /-- A call encodes its command and puts it on `proposeReqNotifier`. -/
  | send (i : ι)
  /-- The handler takes a command from the channel. -/
  | receive
  /-- `Node.Propose` accepts the command. -/
  | accept
  /-- `Node.Propose` fails. -/
  | stop
  /-- The node is removed. -/
  | remove

namespace Pipeline

variable {ι : Type*} [DecidableEq ι]

/-- A step of the leader: none of its own into the log, and a response only for a command that Raft
has accepted. -/
def leaderStep (M : Merge) (p : Pipeline ι) (a : Action ι) : Option (Pipeline ι) :=
  match a with
  | .propose _ => none
  | .ack i =>
    if ∃ e ∈ p.leader.log, e.id = some i then
      (p.leader.step M (.ack i)).map fun s => { p with leader := s }
    else none
  | a => (p.leader.step M a).map fun s => { p with leader := s }

/-- A call encodes its command, and puts it on the channel once that has room. -/
def send (p : Pipeline ι) (i : ι) : Option (Pipeline ι) :=
  match (p.leader.calls i).phase, (p.leader.calls i).command.map Command.encode with
  | .ready, some (.ok cmd) =>
    if p.proposeReqNotifier.isSome then none
    else some { p with
      leader := p.leader.setPhase i .proposed
      proposeReqNotifier := some ⟨some i, cmd⟩
      sent := p.sent ++ [⟨some i, cmd⟩] }
  | .ready, some (.error e) => some { p with leader := p.leader.setPhase i (.returned (some e)) }
  | _, _ => none

omit [DecidableEq ι] in
/-- The handler takes a command from the channel. A node that has been removed refuses it. -/
def receive (p : Pipeline ι) : Option (Pipeline ι) :=
  match p.proposeReqNotifier, p.handler with
  | some e, none =>
    if p.stopped then none
    else if p.selfRemoved then
      some { p with proposeReqNotifier := none, refused := p.refused ++ [e] }
    else some { p with proposeReqNotifier := none, handler := some e }
  | _, _ => none

omit [DecidableEq ι] in
/-- `Node.Propose` accepts the command that the handler has. -/
def accept (p : Pipeline ι) : Option (Pipeline ι) :=
  match p.handler with
  | none => none
  | some e => some { p with
      handler := none
      leader := { p.leader with log := p.leader.log ++ [e] } }

omit [DecidableEq ι] in
/-- `Node.Propose` fails, and the handler returns. -/
def stop (p : Pipeline ι) : Option (Pipeline ι) :=
  match p.handler with
  | none => none
  | some e => some { p with handler := none, refused := p.refused ++ [e], stopped := true }

/-- One step of the pipeline. -/
def step (M : Merge) (p : Pipeline ι) (a : PipelineAction ι) : Option (Pipeline ι) :=
  if p.leader.exited then none
  else
    match a with
    | .leader a => p.leaderStep M a
    | .send i => p.send i
    | .receive => p.receive
    | .accept => p.accept
    | .stop => p.stop
    | .remove => some { p with selfRemoved := true }

omit [DecidableEq ι] in
/-- A pipeline with nothing under way. -/
def start (s : Leader ι) : Pipeline ι := ⟨s, none, none, [], false, false, []⟩

/-! ## The pipeline as a leader -/

omit [DecidableEq ι] in
/-- The commands that are under way, or got lost. -/
def underWay (p : Pipeline ι) : List (LogEntry ι) :=
  p.refused ++ p.handler.toList ++ p.proposeReqNotifier.toList

omit [DecidableEq ι] in
/-- The leader with more entries in its log. -/
@[simps]
def addLog (s : Leader ι) (l : List (LogEntry ι)) : Leader ι := { s with log := s.log ++ l }

omit [DecidableEq ι] in
/-- The pipeline as a leader: what is under way is in the log. -/
def toLeader (p : Pipeline ι) : Leader ι := addLog p.leader p.underWay

/-- What the pipeline keeps. -/
structure Inv (before : List (LogEntry ι)) (p : Pipeline ι) : Prop where
  /-- Nothing is accepted after a command has been refused. -/
  refused : p.refused ≠ [] → p.handler = none ∧ (p.selfRemoved = true ∨ p.stopped = true)
  /-- What was put on the channel is in the log, in its order, or under way. -/
  log : p.toLeader.log = before ++ p.sent
  /-- It carries the ids of the calls. -/
  sent : ∀ e ∈ p.sent, e.id.isSome = true

variable {M : Merge} {p q : Pipeline ι} {s t : Leader ι}

/-- A step that reads nothing of the log does not depend on it. -/
theorem step_addLog_of_ne {a : Action ι} (ha : ∀ i, a ≠ .propose i) (ha' : ∀ env, a ≠ .apply env)
    (l : List (LogEntry ι)) : (addLog s l).step M a = (s.step M a).map (addLog · l) := by
  unfold Leader.step
  rw [addLog_exited]
  split_ifs with hexited
  · rfl
  cases a with
  | beginTxn i kind =>
    unfold Leader.beginTxn
    simp only [addLog_calls, addLog_tso]
    split_ifs <;> rfl
  | markRead i =>
    unfold Leader.markRead
    simp only [addLog_calls, addLog_tso]
    cases s.tso.readMark.beginMark (s.calls i).txn.readTs <;> split_ifs <;> rfl
  | waitOk i =>
    unfold Leader.waitOk
    simp only [addLog_calls, addLog_tso]
    split_ifs <;> rfl
  | waitErr i =>
    unfold Leader.waitErr
    simp only [addLog_calls, addLog_tso]
    cases s.tso.readMark.doneMark (s.calls i).txn.readTs <;> split_ifs <;> rfl
  | read i q env =>
    unfold Leader.read
    simp only [addLog_calls, addLog_store]
    split_ifs <;> rfl
  | write i op env =>
    unfold Leader.write
    simp only [addLog_calls, addLog_store]
    cases (s.calls i).phase <;> cases (s.calls i).kind <;>
      cases ((s.calls i).txn.write s.store env op).2 <;> try rfl
    all_goals simp only []; split_ifs <;> rfl
  | fail i e =>
    unfold Leader.fail
    simp only [addLog_calls]
    split_ifs <;> rfl
  | discard i =>
    have hread : (addLog s l).discardRead i = s.discardRead i := rfl
    unfold Leader.discard
    simp only [hread, addLog_calls]
    cases Leader.phaseAfterDiscard (s.calls i) <;> cases s.discardRead i <;> rfl
  | commit i readings =>
    unfold Leader.commit
    simp only [addLog_calls, addLog_tso, addLog_writeChLock]
    split_ifs
    -- The ends before `newCommitTs`.
    iterate 5 rfl
    cases s.tso.newCommitTs (s.calls i).txn readings <;> rfl
  | doneCommit i =>
    unfold Leader.doneCommit
    simp only [addLog_calls, addLog_tso]
    cases s.tso.txnMark.doneMark (s.calls i).txn.commitTs <;> split_ifs <;> rfl
  | propose i => exact absurd rfl (ha i)
  | ack | timeout =>
    unfold Leader.finish
    simp only [addLog_calls]
    split_ifs <;> rfl
  | apply env => exact absurd rfl (ha' env)
  | saveBound upperBound => rfl

omit [DecidableEq ι] in
/-- Applying an entry that is there does not depend on the end of the log. -/
theorem apply_addLog {env : Env} {entry : LogEntry ι} (h : s.log[s.applied]? = some entry)
    (l : List (LogEntry ι)) : (addLog s l).apply M env = (s.apply M env).map (addLog · l) := by
  have hlt := (List.getElem?_eq_some_iff.mp h).1
  have h' : (s.log ++ l)[s.applied]? = some entry := by
    rw [List.getElem?_append_left hlt]
    exact h
  unfold Leader.apply
  simp only [addLog_loopStopped, addLog_store, addLog_log, addLog_applied, h, h']
  cases Fsm.apply M s.store env entry.command with
  | ok store => split_ifs <;> rfl
  | error e => cases e <;> split_ifs <;> rfl

/-- A step that does not propose is a step of the leader with more entries in its log. -/
theorem step_addLog {a : Action ι} (ha : ∀ i, a ≠ .propose i) (h : s.step M a = some t)
    (l : List (LogEntry ι)) : (addLog s l).step M a = some (addLog t l) := by
  by_cases ha' : ∃ env, a = .apply env
  · obtain ⟨env, rfl⟩ := ha'
    unfold Leader.step at h ⊢
    rw [addLog_exited]
    split_ifs at h with hexited
    rw [if_neg hexited]
    have happly : s.apply M env = some t := h
    cases hentry : s.log[s.applied]? with
    | none =>
      unfold Leader.apply at happly
      simp [hentry] at happly
    | some entry =>
      show (addLog s l).apply M env = _
      rw [apply_addLog hentry, happly]
      rfl
  · rw [step_addLog_of_ne ha (by simpa using ha'), h]
    rfl

/-- The steps of the leader that a pipeline takes. -/
theorem leaderStep_eq_some {a : Action ι} (h : p.leaderStep M a = some q) :
    (∀ i, a ≠ .propose i) ∧ ∃ t, p.leader.step M a = some t ∧ q = { p with leader := t } := by
  unfold leaderStep at h
  split at h
  · simp at h
  · split_ifs at h
    obtain ⟨t, ht, rfl⟩ := Option.map_eq_some_iff.mp h
    exact ⟨by simp, t, ht, rfl⟩
  · rename_i hpropose hack
    obtain ⟨t, ht, rfl⟩ := Option.map_eq_some_iff.mp h
    exact ⟨fun i hi => hpropose i hi, t, ht, rfl⟩

/-- What a call does that comes to propose its command. -/
theorem send_eq_some {i : ι} (h : p.send i = some q) :
    (p.leader.calls i).phase = .ready ∧ ∃ cmd, (p.leader.calls i).command = some cmd ∧
      ((cmd.encode = .ok cmd ∧ p.proposeReqNotifier = none ∧ q = { p with
          leader := p.leader.setPhase i .proposed
          proposeReqNotifier := some ⟨some i, cmd⟩
          sent := p.sent ++ [⟨some i, cmd⟩] }) ∨
        ∃ e, cmd.encode = .error e ∧
          q = { p with leader := p.leader.setPhase i (.returned (some e)) }) := by
  unfold send at h
  split at h
  · rename_i cmd hp hc
    split_ifs at h with hfull
    obtain rfl := Option.some.inj h
    obtain ⟨cmd', hc', he⟩ := Option.map_eq_some_iff.mp hc
    have heq : cmd' = cmd := by
      unfold Command.encode at he
      split_ifs at he
      exact Except.ok.inj he
    subst heq
    exact ⟨hp, cmd', hc', .inl ⟨he, by simpa using hfull, rfl⟩⟩
  · rename_i e hp hc
    obtain rfl := Option.some.inj h
    obtain ⟨cmd, hc', he⟩ := Option.map_eq_some_iff.mp hc
    exact ⟨hp, cmd, hc', .inr ⟨e, he, rfl⟩⟩
  · simp at h

omit [DecidableEq ι] in
/-- The handler moves commands from the channel to the log, and keeps their order. -/
theorem handler_step {before : List (LogEntry ι)} (hI : Inv before p)
    (h : p.receive = some q ∨ p.accept = some q ∨ p.stop = some q) :
    q.toLeader = p.toLeader ∧ q.sent = p.sent ∧
      (q.refused ≠ [] → q.handler = none ∧ (q.selfRemoved = true ∨ q.stopped = true)) := by
  rcases h with h | h | h
  · unfold receive at h
    split at h
    · rename_i e hchan hhandler
      split_ifs at h with hstopped hremoved
      · obtain rfl := Option.some.inj h
        refine ⟨?_, rfl, fun _ => ⟨hhandler, .inl hremoved⟩⟩
        simp [toLeader, underWay, hchan, hhandler]
      · obtain rfl := Option.some.inj h
        refine ⟨?_, rfl, fun hrefused => ?_⟩
        · simp [toLeader, underWay, hchan, hhandler]
        · rcases (hI.refused hrefused).2 with h | h
          · exact absurd h hremoved
          · exact absurd h hstopped
    · simp at h
  · unfold accept at h
    split at h
    · simp at h
    · rename_i e hhandler
      obtain rfl := Option.some.inj h
      -- Nothing has been refused yet, so the command is the next one in the log.
      have hrefused : p.refused = [] := by
        by_contra hne
        simp [(hI.refused hne).1] at hhandler
      refine ⟨?_, rfl, fun hne => absurd hrefused hne⟩
      simp [toLeader, underWay, addLog, hhandler, hrefused]
  · unfold stop at h
    split at h
    · simp at h
    · rename_i e hhandler
      obtain rfl := Option.some.inj h
      refine ⟨?_, rfl, fun _ => ⟨rfl, .inr rfl⟩⟩
      simp [toLeader, underWay, hhandler]

omit [DecidableEq ι] in
/-- The pipeline as a leader, after a command has been put on the channel. -/
theorem toLeader_send (hroom : p.proposeReqNotifier = none) (s : Leader ι) (e : LogEntry ι)
    (sent : List (LogEntry ι)) :
    toLeader { p with leader := s, proposeReqNotifier := some e, sent } =
      addLog s (p.underWay ++ [e]) := by
  simp [toLeader, underWay, hroom]

omit [DecidableEq ι] in
/-- A call comes to put its command on the channel only when no call with a smaller timestamp is to do
so. Besides, the clock moves forward. -/
def SendsInTurn (p : Pipeline ι) : PipelineAction ι → Prop
  | .leader a => p.leader.AllocatesForward a
  | .send i => ∀ j, (p.leader.calls j).Unproposed →
    (p.leader.calls i).txn.commitTs ≤ (p.leader.calls j).txn.commitTs
  | _ => True

/-- One step from `p` to `q` keeps the invariant, and is one of the leader or none. -/
def Follows (M : Merge) (before : List (LogEntry ι)) (p q : Pipeline ι) : Prop :=
  Inv before q ∧ (q.toLeader = p.toLeader ∨
    ∃ b, (p.toLeader.AllocatesForward b ∧ p.toLeader.ProposesInTurn (fun _ => True) b) ∧
      p.toLeader.step M b = some q.toLeader)

/-- What the handler does is no step of the leader. -/
theorem follows_handler {before : List (LogEntry ι)} (hI : Inv before p)
    (h : p.receive = some q ∨ p.accept = some q ∨ p.stop = some q) : Follows M before p q := by
  obtain ⟨heq, hsent, hrefused⟩ := handler_step hI h
  refine ⟨⟨hrefused, ?_, ?_⟩, .inl heq⟩
  · rw [heq, hsent]
    exact hI.log
  · rw [hsent]
    exact hI.sent

/-- A step of a call or of the application of the log is the same step of the leader. -/
theorem follows_leaderStep {before : List (LogEntry ι)} {a : Action ι} (hI : Inv before p)
    (hc : p.leader.AllocatesForward a) (h : p.leaderStep M a = some q) : Follows M before p q := by
  obtain ⟨ha, t, ht, rfl⟩ := leaderStep_eq_some h
  have hlog : t.log = p.leader.log := by
    obtain heq | ⟨j, cmd, -, -, hpropose, -⟩ := Leader.log_step ht
    · exact heq
    · exact absurd hpropose (ha j)
  have hstep := step_addLog ha ht p.underWay
  refine ⟨⟨hI.refused, ?_, hI.sent⟩, .inr ⟨a, ⟨?_, ?_⟩, hstep⟩⟩
  · show t.log ++ p.underWay = _
    rw [hlog]
    exact hI.log
  · cases a with
    | commit i readings => exact hc
    | _ => trivial
  · cases a with
    | propose i => exact absurd rfl (ha i)
    | _ => trivial

/-- When a call comes to the channel, the leader that the pipeline stands for proposes the command at
once. -/
theorem follows_send {before : List (LogEntry ι)} {i : ι} (hI : Inv before p)
    (hc : p.SendsInTurn (.send i)) (hexited : ¬p.leader.exited = true) (h : p.send i = some q) :
    Follows M before p q := by
  obtain ⟨hready, cmd, hcmd, hsend⟩ := send_eq_some h
  have hpropose : p.toLeader.step M (.propose i) = p.toLeader.propose i := by
    unfold Leader.step
    rw [if_neg (by exact hexited)]
  have hturn : p.toLeader.AllocatesForward (.propose i) ∧
      p.toLeader.ProposesInTurn (fun _ => True) (.propose i) :=
    ⟨trivial, fun _ j hj _ => hc j hj⟩
  have hlog : p.leader.log ++ p.underWay = before ++ p.sent := hI.log
  rcases hsend with ⟨henc, hroom, rfl⟩ | ⟨e, henc, rfl⟩
  · refine ⟨⟨hI.refused, ?_, ?_⟩, .inr ⟨.propose i, hturn, ?_⟩⟩
    · rw [toLeader_send hroom]
      show p.leader.log ++ (p.underWay ++ [⟨some i, cmd⟩]) = before ++ (p.sent ++ [⟨some i, cmd⟩])
      rw [← List.append_assoc, hlog, List.append_assoc]
    · intro e he
      rcases List.mem_append.mp he with he | he
      · exact hI.sent e he
      · rw [List.mem_singleton.mp he]
        rfl
    · rw [hpropose, toLeader_send hroom]
      unfold Leader.propose
      simp only [toLeader, addLog_calls, hready, hcmd, Option.map_some, henc]
      simp [addLog, Leader.setPhase, Leader.setCall]
  · refine ⟨⟨hI.refused, hI.log, hI.sent⟩, .inr ⟨.propose i, hturn, ?_⟩⟩
    rw [hpropose]
    unfold Leader.propose
    simp only [toLeader, addLog_calls, hready, hcmd, Option.map_some, henc]
    rfl

/-- Every step of the pipeline is one of the leader or none. -/
theorem toLeader_step {before : List (LogEntry ι)} {a : PipelineAction ι} (hI : Inv before p)
    (hc : p.SendsInTurn a) (h : p.step M a = some q) : Follows M before p q := by
  unfold step at h
  split_ifs at h with hexited
  cases a with
  | leader a => exact follows_leaderStep hI hc h
  | send i => exact follows_send hI hc hexited h
  | receive => exact follows_handler hI (.inl h)
  | accept => exact follows_handler hI (.inr (.inl h))
  | stop => exact follows_handler hI (.inr (.inr h))
  | remove =>
    obtain rfl := Option.some.inj h
    exact ⟨⟨fun hne => ⟨(hI.refused hne).1, .inl rfl⟩, hI.log, hI.sent⟩, .inl rfl⟩

variable [Fintype ι] {start : ℕ}

/-- In every run whose calls come to the channel in their turn, the commands are put on it in the order
of their commit timestamps, and those that Raft has accepted are in the log in that order. -/
theorem sent_in_commitTs_order (h₀ : Leader.TermStart start s)
    (h : Reaches (step M) SendsInTurn (Pipeline.start s) q) :
    (q.sent.Pairwise fun e e' => e.command.commitTs < e'.command.commitTs) ∧
      (q.leader.log.filter fun e => e.id.isSome).Pairwise fun e e' =>
        e.command.commitTs < e'.command.commitTs := by
  have hstart : Inv s.log (Pipeline.start s) :=
    ⟨by simp [Pipeline.start], by simp [toLeader, underWay, Pipeline.start], by simp [Pipeline.start]⟩
  have heq : (Pipeline.start s).toLeader = s := by
    simp [toLeader, underWay, Pipeline.start, addLog]
  have hrefines : Inv s.log q ∧ Reaches (Leader.step M)
      (fun s b => s.AllocatesForward b ∧ s.ProposesInTurn (fun _ => True) b)
      (Pipeline.start s).toLeader q.toLeader :=
    h.refines toLeader hstart fun _ _ _ hI hc ha => toLeader_step hI hc ha
  obtain ⟨hI, hreach⟩ := hrefines
  rw [heq] at hreach
  -- The run is one of the leader, whose log is in order.
  have hturn : Leader.InTurn (fun _ => True) q.toLeader := by
    have hinv := hreach.invariant (I := fun t => Leader.OracleInv start t ∧ Leader.Recorded start t ∧
      Leader.InTurn (fun _ => True) t) ⟨h₀.oracleInv, h₀.recorded, h₀.inTurn⟩ ?_
    · exact hinv.2.2
    · rintro t a u ⟨hO, hR, hT⟩ ⟨hf, hp⟩ ha
      exact ⟨hO.step hf ha, hR.step hO hf ha, hT.step hR hf hp ha⟩
  have hsorted := hturn.sorted
  constructor
  · rw [hI.log] at hsorted
    refine (List.pairwise_append.mp hsorted).2.1.imp_of_mem ?_
    intro e e' he he' hlt
    exact hlt (hI.sent e he) (hI.sent e' he') trivial trivial
  · have hprefix : q.leader.log.Sublist q.toLeader.log := List.sublist_append_left _ _
    refine List.pairwise_filter.mpr ((hsorted.sublist hprefix).imp ?_)
    intro e e' hlt hid hid'
    exact hlt hid hid' trivial trivial

instance (p : Pipeline ι) : (a : PipelineAction ι) → Decidable (p.SendsInTurn a)
  | .leader a => inferInstanceAs (Decidable (p.leader.AllocatesForward a))
  | .send _ => inferInstanceAs (Decidable (∀ _, _))
  | .receive | .accept | .stop | .remove => inferInstanceAs (Decidable True)

/-- Two calls set a key each and get their commit timestamps, the first one first. -/
def stampBoth : List (PipelineAction Two) :=
  (List.flatten [Leader.beginCall .first .single, Leader.beginCall .second .single,
    [.write .first (.set [1] [7] none) someEnv, .write .second (.set [2] [7] none) someEnv,
      .commit .first [1001], .doneCommit .first, .discard .first,
      .commit .second [1002], .doneCommit .second, .discard .second]]).map .leader

/-- A command goes from its call into the log. -/
def sendAndAccept (i : Two) : List (PipelineAction Two) := [.send i, .receive, .accept]

/-- The calls come to the channel in the order of their timestamps. -/
def afterInTurn : Pipeline Two :=
  final (guarded (step rejectDeltas) SendsInTurn)
    (Pipeline.start (Leader.serving Leader.clockAt1000 []))
    (List.flatten [stampBoth, sendAndAccept .first, sendAndAccept .second]) (by decide +kernel)

/-- Both commands are in the log, in order. -/
theorem sent_in_commitTs_order_in_turn :
    afterInTurn.leader.log.length = 2 ∧
      afterInTurn.sent.Pairwise fun e e' => e.command.commitTs < e'.command.commitTs := by
  have hreach : Reaches (step rejectDeltas) SendsInTurn
      (Pipeline.start (Leader.serving Leader.clockAt1000 [])) afterInTurn := Reaches.final _
  have hstart := Leader.termStart_serving (ι := Two) Leader.clockAt1000 []
  exact ⟨by decide, (sent_in_commitTs_order hstart hreach).1⟩

/-- The second call comes to the channel first. -/
def afterOvertaking : Pipeline Two :=
  final (guarded (step rejectDeltas) fun _ _ => True)
    (Pipeline.start (Leader.serving Leader.clockAt1000 []))
    (List.flatten [stampBoth, sendAndAccept .second, sendAndAccept .first]) (by decide +kernel)

/-- The commands are put on the channel, and come to the log, against the order of their
timestamps. -/
theorem sent_against_commitTs_order :
    Reaches (step rejectDeltas) (fun _ _ => True)
        (Pipeline.start (Leader.serving Leader.clockAt1000 [])) afterOvertaking ∧
      afterOvertaking.sent.map (fun e => (e.id, e.command.commitTs)) =
        [(some .second, (TimeStamp.mk 1002 1).compose),
          (some .first, (TimeStamp.mk 1001 1).compose)] ∧
      afterOvertaking.leader.log.map (fun e => e.command.commitTs) =
        [(TimeStamp.mk 1002 1).compose, (TimeStamp.mk 1001 1).compose] ∧
      (TimeStamp.mk 1001 1).compose < (TimeStamp.mk 1002 1).compose :=
  ⟨Reaches.final _, by decide, by decide, by decide⟩

end Pipeline

end Omashu
