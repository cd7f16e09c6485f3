import Omashu.Lib.Run
import Omashu.Leader.Oracle

/-!
# The leader in one term

The system that a client of the leader sees. Any number of calls are under way at once, each a single
write (`proposeTxnSubCommand`) or a transaction (`NewTransaction`), indexed by a finite type `ι`. They
share the oracle, the lock `writeChLock`, the Raft log and the store that the log is applied to.

A call goes through the phases of `Phase`. Every step below is one critical section or one use of a
channel or watermark, so the interleavings of steps are those of the goroutines. In the deferred calls
of `Txn.Commit`, `DoneCommit` runs before the lock is released and `Discard` after it, and the
command is proposed only after all of them.

`history` and the calls' `readLog` are not part of the program: they record the commit timestamps
that were handed out, and the reads that were made.

An entry is applied as `Fsm.apply` does, on a store that takes every transaction. Badger may refuse one, and
`Omashu.Store.Managed` says when.

`Effect` is the step function as a relation, one constructor for each thing a step can do, and
`effect_of_step` is the only place where the step function is unfolded.
-/

namespace Omashu

open Lib

/-- `MaxBatchSize`. -/
def MaxBatchSize : ℕ := 100

/-- How a call reached the leader. -/
inductive Kind
  /-- `proposeTxnSubCommand`. -/
  | single
  /-- `NewTransaction`. -/
  | transaction
  deriving DecidableEq

/-- How `Txn.Commit`, or the body before it, has ended. -/
inductive Outcome
  /-- The transaction has its commit timestamp. -/
  | committed
  /-- An error. -/
  | failed (e : Err)
  deriving DecidableEq

/-- Where a call is. -/
inductive Phase
  /-- It has not begun. -/
  | idle
  /-- In `ReadTs`, after its critical section. -/
  | recorded
  /-- In `ReadTs`, after `readMark.Begin`, in `WaitForMark`. -/
  | begun
  /-- In the body, up to `newCommitTs`. -/
  | running
  /-- In `TSO.Commit`, with its timestamp, before `DoneCommit`. -/
  | stamped
  /-- Before the deferred `Discard`. -/
  | leaving (o : Outcome)
  /-- After `Commit`, with its command not proposed yet. -/
  | ready
  /-- In `proposeAndWait`, with its command in the Raft log. -/
  | proposed
  | returned (e : Option Err)
  deriving DecidableEq

/-- A call of a client. -/
structure Call where
  /-- How it reached the leader. -/
  kind : Kind
  /-- Where it is. -/
  phase : Phase
  /-- Its transaction. -/
  txn : Txn
  /-- The reads it has made, with what they were given and what they returned. -/
  readLog : List (Query × Env × Except Err Answer)

/-- An entry of the Raft log: a command, with the call whose id it carries. -/
structure LogEntry (ι : Type*) where
  /-- The call it belongs to; none for an entry from before the term. -/
  id : Option ι
  command : Command

/-- A successful `newCommitTs`. -/
structure Stamp (ι : Type*) where
  call : ι
  /-- The commit timestamp. -/
  ts : ℕ
  /-- The read timestamp. -/
  readTs : ℕ
  /-- The keys it writes. -/
  conflictKeys : Finset Key
  /-- The sub-commands of its command. -/
  subCommands : List SubCommand
  deriving DecidableEq

/-- The record of a transaction that gets a commit timestamp. -/
@[simps]
def Txn.stamp {ι : Type*} (txn : Txn) (i : ι) (ts : ℕ) : Stamp ι :=
  ⟨i, ts, txn.readTs, txn.conflictKeys, txn.subCommands⟩

/-- The state of the leader. -/
structure Leader (ι : Type*) where
  /-- The oracle. -/
  tso : Tso
  /-- The holder of `writeChLock`. -/
  writeChLock : Option ι
  calls : ι → Call
  /-- The Raft log. -/
  log : List (LogEntry ι)
  /-- How many entries of the log are applied. -/
  applied : ℕ
  store : Store
  /-- The process has terminated. -/
  exited : Bool
  /-- The Ready loop has stopped at an error of `Apply`. -/
  loopStopped : Bool
  /-- The successful calls of `newCommitTs`, in order. -/
  history : List (Stamp ι)

/-- One step of the system. -/
inductive Action (ι : Type*)
  /-- A call begins: the critical section of `ReadTs`. -/
  | beginTxn (i : ι) (kind : Kind)
  /-- `readMark.Begin` of `ReadTs`. -/
  | markRead (i : ι)
  /-- `WaitForMark` of `ReadTs` returns. -/
  | waitOk (i : ι)
  /-- `WaitForMark` of `ReadTs` fails, and its error path runs. -/
  | waitErr (i : ι)
  /-- The body makes a read. -/
  | read (i : ι) (q : Query) (env : Env)
  /-- The body makes a write. -/
  | write (i : ι) (op : WriteOp) (env : Env)
  /-- The body returns an error. -/
  | fail (i : ι) (e : Err)
  /-- `Txn.Discard`, called by the body or deferred. -/
  | discard (i : ι)
  /-- `Txn.Commit` up to and with `newCommitTs`, which makes these readings of the clock. -/
  | commit (i : ι) (readings : List ℤ)
  /-- `DoneCommit` and the release of `writeChLock`. -/
  | doneCommit (i : ι)
  /-- The command is encoded and accepted into the Raft log. -/
  | propose (i : ι)
  /-- `proposeAndWait` receives its response. -/
  | ack (i : ι)
  /-- `proposeAndWait` times out. -/
  | timeout (i : ι)
  /-- The next entry of the log is applied. -/
  | apply (env : Env)
  /-- The second critical section of `UpdateWindow`. -/
  | saveBound (upperBound : ℤ)

/-- The call whose step it is. -/
def Action.caller {ι : Type*} : Action ι → Option ι
  | .beginTxn i _ | .markRead i | .waitOk i | .waitErr i | .read i _ _ | .write i _ _ | .fail i _
  | .discard i | .commit i _ | .doneCommit i | .propose i | .ack i | .timeout i => some i
  | .apply _ | .saveBound _ => none

/-- The command that a call proposes: the transaction, or its only sub-command with the timestamps
of the transaction. -/
def Call.command (c : Call) : Option Command :=
  match c.kind, c.txn.subCommands with
  | .transaction, subs => some ⟨c.txn.readTs, c.txn.commitTs, .transaction subs⟩
  | .single, [] => none
  | .single, sub :: _ => some ⟨c.txn.readTs, c.txn.commitTs, .single sub⟩

namespace Leader

variable {ι : Type*} [DecidableEq ι]

/-- Replaces one call. -/
def setCall (s : Leader ι) (i : ι) (c : Call) : Leader ι :=
  { s with calls := Function.update s.calls i c }

/-- Moves one call to another phase. -/
def setPhase (s : Leader ι) (i : ι) (p : Phase) : Leader ι :=
  s.setCall i { s.calls i with phase := p }

omit [DecidableEq ι] in
/-- The process terminates. -/
def terminate (s : Leader ι) : Leader ι := { s with exited := true }

/-- The critical section of `ReadTs`. -/
def beginTxn (s : Leader ι) (i : ι) (kind : Kind) : Option (Leader ι) :=
  if (s.calls i).phase = .idle then
    let readTs := s.tso.currentReadTs
    some { s.setCall i ⟨kind, .recorded, Txn.beginTxn readTs true, []⟩ with
      tso := { s.tso with readers := insert readTs s.tso.readers } }
  else none

/-- `readMark.Begin` of `ReadTs`. -/
def markRead (s : Leader ι) (i : ι) : Option (Leader ι) :=
  if (s.calls i).phase = .recorded then
    match s.tso.readMark.beginMark (s.calls i).txn.readTs with
    -- The bound has passed the timestamp since the critical section.
    | none => some s.terminate
    | some m => some { s.setPhase i .begun with tso := { s.tso with readMark := m } }
  else none

/-- `WaitForMark` of `ReadTs` returns. -/
def waitOk (s : Leader ι) (i : ι) : Option (Leader ι) :=
  if (s.calls i).phase = .begun ∧ s.tso.txnMark.Waited (s.calls i).txn.readTs then
    some (s.setPhase i .running)
  else none

/-- `WaitForMark` of `ReadTs` fails: the mark is done, and the timestamp stays among the readers. -/
def waitErr (s : Leader ι) (i : ι) : Option (Leader ι) :=
  if (s.calls i).phase = .begun then
    match s.tso.readMark.doneMark (s.calls i).txn.readTs with
    | none => some s.terminate
    | some m => some { s.setPhase i (.returned (some .ctxDone)) with
        tso := { s.tso with readMark := m } }
  else none

/-- A read of the body of a transaction. -/
def read (s : Leader ι) (i : ι) (q : Query) (env : Env) : Option (Leader ι) :=
  let c := s.calls i
  if c.phase = .running ∧ c.kind = .transaction then
    some (s.setCall i { c with
      txn := (c.txn.read s.store env q).1
      readLog := c.readLog ++ [(q, env, (c.txn.read s.store env q).2)] })
  else none

/-- A write of the body. The body of a single write makes one, and returns its error. -/
def write (s : Leader ι) (i : ι) (op : WriteOp) (env : Env) : Option (Leader ι) :=
  let c := s.calls i
  let r := c.txn.write s.store env op
  match c.phase, c.kind, r.2 with
  -- The body of a transaction is free to go on after an error.
  | .running, .transaction, _ => some (s.setCall i { c with txn := r.1 })
  | .running, .single, .ok _ =>
    if c.txn.subCommands = [] then some (s.setCall i { c with txn := r.1 }) else none
  | .running, .single, .error e =>
    if c.txn.subCommands = [] then
      some (s.setCall i { c with txn := r.1, phase := .leaving (.failed e) })
    else none
  | _, _, _ => none

/-- The body of a transaction returns an error. -/
def fail (s : Leader ι) (i : ι) (e : Err) : Option (Leader ι) :=
  if (s.calls i).phase = .running ∧ (s.calls i).kind = .transaction then
    some (s.setPhase i (.leaving (.failed e)))
  else none

/-- The oracle after `Txn.Discard`. -/
def discardRead (s : Leader ι) (i : ι) : Option Tso :=
  if (s.calls i).txn.discarded then some s.tso else s.tso.doneRead (s.calls i).txn.readTs

/-- The phase after `Txn.Discard`. A call that has its timestamp goes on to propose its command. -/
def phaseAfterDiscard (c : Call) : Option Phase :=
  match c.phase with
  | .running => some .running
  | .leaving .committed => some (if c.command.isSome then .ready else .returned none)
  | .leaving (.failed e) => some (.returned (some e))
  | _ => none

/-- `Txn.Discard`, called by the body or deferred. -/
def discard (s : Leader ι) (i : ι) : Option (Leader ι) :=
  match phaseAfterDiscard (s.calls i), s.discardRead i with
  | none, _ => none
  | some _, none => some s.terminate
  | some p, some tso => some { s.setCall i { s.calls i with
      phase := p
      txn := { (s.calls i).txn with discarded := true } } with tso }

/-- `Txn.Commit` up to and with `newCommitTs`. A transaction without writes yields a nil command,
which the caller dereferences. -/
def commit (s : Leader ι) (i : ι) (readings : List ℤ) : Option (Leader ι) :=
  let c := s.calls i
  if c.phase ≠ .running ∨ c.kind = .single ∧ c.txn.subCommands = [] then none
  else if c.txn.discarded then some (s.setPhase i (.leaving (.failed .discardedTxn)))
  -- A key of `AddWriteKey` counts as a write, though it has no sub-command.
  else if c.txn.writes = [] ∧ c.txn.subCommands = [] then
    some (s.setPhase i (.leaving (.failed .panicked)))
  else if MaxBatchSize < c.txn.subCommands.length then
    some (s.setPhase i (.leaving (.failed .batchTooBig)))
  else if s.writeChLock.isSome then none
  else
    match s.tso.newCommitTs c.txn readings with
    | .conflict => some (s.setPhase i (.leaving (.failed .conflict)))
    | .waiting => none
    | .terminated => some s.terminate
    | .ok ts tso => some { s.setCall i { c with
        phase := .stamped
        txn := { c.txn with commitTs := ts } } with
      tso
      writeChLock := some i
      history := s.history ++ [c.txn.stamp i ts] }

/-- `DoneCommit` and the release of `writeChLock`. -/
def doneCommit (s : Leader ι) (i : ι) : Option (Leader ι) :=
  if (s.calls i).phase = .stamped then
    match s.tso.txnMark.doneMark (s.calls i).txn.commitTs with
    | none => some s.terminate
    | some m => some { s.setPhase i (.leaving .committed) with
        tso := { s.tso with txnMark := m }
        writeChLock := none }
  else none

/-- `proposeAndWait` encodes the command, and Raft accepts it into the log. -/
def propose (s : Leader ι) (i : ι) : Option (Leader ι) :=
  match (s.calls i).phase, (s.calls i).command.map Command.encode with
  | .ready, some (.ok cmd) =>
    some { s.setPhase i .proposed with log := s.log ++ [⟨some i, cmd⟩] }
  | .ready, some (.error e) => some (s.setPhase i (.returned (some e)))
  | _, _ => none

/-- `proposeAndWait` returns. -/
def finish (s : Leader ι) (i : ι) (e : Option Err) : Option (Leader ι) :=
  if (s.calls i).phase = .proposed then some (s.setPhase i (.returned e)) else none

omit [DecidableEq ι] in
/-- The Ready loop applies the next entry. An error stops the loop, a panic the process. -/
def apply (M : Merge) (s : Leader ι) (env : Env) : Option (Leader ι) :=
  if s.loopStopped then none
  else
    match s.log[s.applied]? with
    | none => none
    | some entry =>
      match Fsm.apply M s.store env entry.command with
      | .ok store => some { s with store, applied := s.applied + 1 }
      | .error .panicked => some s.terminate
      | .error _ => some { s with loopStopped := true }

/-- One step of the system. -/
def step (M : Merge) (s : Leader ι) (a : Action ι) : Option (Leader ι) :=
  if s.exited then none
  else
    match a with
    | .beginTxn i kind => s.beginTxn i kind
    | .markRead i => s.markRead i
    | .waitOk i => s.waitOk i
    | .waitErr i => s.waitErr i
    | .read i q env => s.read i q env
    | .write i op env => s.write i op env
    | .fail i e => s.fail i e
    | .discard i => s.discard i
    | .commit i readings => s.commit i readings
    | .doneCommit i => s.doneCommit i
    | .propose i => s.propose i
    | .ack i => s.finish i none
    | .timeout i => s.finish i (some .proposeTimeout)
    | .apply env => s.apply M env
    | .saveBound upperBound => some { s with
        tso := { s.tso with toClock := s.tso.toClock.resetSaved upperBound } }

omit [DecidableEq ι] in
/-- Where `Discard` is called, and where it leads. -/
theorem phaseAfterDiscard_cases {c : Call} {p : Phase} (h : phaseAfterDiscard c = some p) :
    c.phase = .running ∧ p = .running ∨
      c.phase = .leaving .committed ∧ p = (if c.command.isSome then .ready else .returned none) ∨
      ∃ e, c.phase = .leaving (.failed e) ∧ p = .returned (some e) := by
  unfold phaseAfterDiscard at h
  split at h
  next hp => exact .inl ⟨hp, (Option.some.inj h).symm⟩
  next hp => exact .inr (.inl ⟨hp, (Option.some.inj h).symm⟩)
  next e hp => exact .inr (.inr ⟨e, hp, (Option.some.inj h).symm⟩)
  next => cases h

/-- Replacing one call by a related one, for a relation that every call is in with itself. -/
theorem rel_setCall {R : Call → Call → Prop} (hR : ∀ c, R c c) {s : Leader ι} {i : ι} {c : Call}
    (h : R c (s.calls i)) (j : ι) : R ((s.setCall i c).calls j) (s.calls j) := by
  by_cases hj : j = i
  · subst hj
    simpa [setCall] using h
  · simpa [setCall, Function.update_of_ne hj] using hR _

/-! ## The step function as a relation -/

/-- What a step can do. -/
inductive Effect (M : Merge) (s : Leader ι) : Action ι → Leader ι → Prop
  /-- A call gets its read timestamp. -/
  | beginTxn (i : ι) (kind : Kind) (h : (s.calls i).phase = .idle) :
      Effect M s (.beginTxn i kind)
        { s.setCall i ⟨kind, .recorded, Txn.beginTxn s.tso.currentReadTs true, []⟩ with
          tso := { s.tso with readers := insert s.tso.currentReadTs s.tso.readers } }
  /-- A pending read is marked. -/
  | markRead (i : ι) (m : WaterMark) (h : (s.calls i).phase = .recorded)
      (hm : s.tso.readMark.beginMark (s.calls i).txn.readTs = some m) :
      Effect M s (.markRead i)
        { s.setPhase i .begun with tso := { s.tso with readMark := m } }
  /-- The wait for earlier commits ends. -/
  | waitOk (i : ι) (h : (s.calls i).phase = .begun)
      (hw : s.tso.txnMark.Waited (s.calls i).txn.readTs) :
      Effect M s (.waitOk i) (s.setPhase i .running)
  /-- The wait for earlier commits fails. -/
  | waitErr (i : ι) (m : WaterMark) (h : (s.calls i).phase = .begun)
      (hm : s.tso.readMark.doneMark (s.calls i).txn.readTs = some m) :
      Effect M s (.waitErr i)
        { s.setPhase i (.returned (some .ctxDone)) with tso := { s.tso with readMark := m } }
  /-- The body reads. -/
  | read (i : ι) (q : Query) (env : Env) (h : (s.calls i).phase = .running) :
      Effect M s (.read i q env) (s.setCall i { s.calls i with
        txn := ((s.calls i).txn.read s.store env q).1
        readLog := (s.calls i).readLog ++ [(q, env, ((s.calls i).txn.read s.store env q).2)] })
  /-- The body writes, and goes on. -/
  | write (i : ι) (op : WriteOp) (env : Env) (h : (s.calls i).phase = .running)
      (hk : (s.calls i).kind = .single → (s.calls i).txn.subCommands = []) :
      Effect M s (.write i op env) (s.setCall i { s.calls i with
        txn := ((s.calls i).txn.write s.store env op).1 })
  /-- The only write of the body fails. -/
  | writeErr (i : ι) (op : WriteOp) (env : Env) (e : Err) (h : (s.calls i).phase = .running)
      (hk : (s.calls i).txn.subCommands = []) :
      Effect M s (.write i op env) (s.setCall i { s.calls i with
        txn := ((s.calls i).txn.write s.store env op).1
        phase := .leaving (.failed e) })
  /-- The body, or `Commit` without a timestamp, ends in an error. -/
  | failed (a : Action ι) (i : ι) (e : Err) (h : (s.calls i).phase = .running) (hc : a.caller = some i) :
      Effect M s a (s.setPhase i (.leaving (.failed e)))
  /-- The transaction is discarded. -/
  | discard (i : ι) (p : Phase) (tso : Tso) (hp : phaseAfterDiscard (s.calls i) = some p)
      (ht : s.discardRead i = some tso) :
      Effect M s (.discard i) { s.setCall i { s.calls i with
        phase := p
        txn := { (s.calls i).txn with discarded := true } } with tso }
  /-- The transaction gets its commit timestamp. -/
  | stamp (i : ι) (readings : List ℤ) (ts : ℕ) (tso : Tso) (h : (s.calls i).phase = .running)
      (hk : (s.calls i).kind = .single → (s.calls i).txn.subCommands ≠ [])
      (hd : (s.calls i).txn.discarded = false) (hl : s.writeChLock = none)
      (hts : s.tso.newCommitTs (s.calls i).txn readings = .ok ts tso) :
      Effect M s (.commit i readings) { s.setCall i { s.calls i with
          phase := .stamped
          txn := { (s.calls i).txn with commitTs := ts } } with
        tso
        writeChLock := some i
        history := s.history ++ [(s.calls i).txn.stamp i ts] }
  /-- The commit timestamp is done. -/
  | doneCommit (i : ι) (m : WaterMark) (h : (s.calls i).phase = .stamped)
      (hm : s.tso.txnMark.doneMark (s.calls i).txn.commitTs = some m) :
      Effect M s (.doneCommit i) { s.setPhase i (.leaving .committed) with
        tso := { s.tso with txnMark := m }
        writeChLock := none }
  /-- The command is in the log. -/
  | propose (i : ι) (cmd : Command) (h : (s.calls i).phase = .ready)
      (hc : (s.calls i).command = some cmd) :
      Effect M s (.propose i) { s.setPhase i .proposed with log := s.log ++ [⟨some i, cmd⟩] }
  /-- The command cannot be encoded. -/
  | unencodable (i : ι) (cmd : Command) (e : Err) (h : (s.calls i).phase = .ready)
      (hc : (s.calls i).command = some cmd) (he : cmd.encode = .error e) :
      Effect M s (.propose i) (s.setPhase i (.returned (some e)))
  /-- The call returns from `proposeAndWait`. -/
  | finish (a : Action ι) (i : ι) (e : Option Err) (h : (s.calls i).phase = .proposed) (hc : a.caller = some i) :
      Effect M s a (s.setPhase i (.returned e))
  /-- An entry is applied. -/
  | apply (env : Env) (entry : LogEntry ι) (store : Store)
      (h : s.log[s.applied]? = some entry)
      (ha : Fsm.apply M s.store env entry.command = .ok store) :
      Effect M s (.apply env) { s with store, applied := s.applied + 1 }
  /-- An entry cannot be applied. -/
  | stop (env : Env) : Effect M s (.apply env) { s with loopStopped := true }
  /-- The upper bound of the clock is raised. -/
  | saveBound (upperBound : ℤ) :
      Effect M s (.saveBound upperBound) { s with
        tso := { s.tso with toClock := s.tso.toClock.resetSaved upperBound } }
  /-- The process terminates. -/
  | exit (a : Action ι) : Effect M s a s.terminate

variable {M : Merge} {s t : Leader ι} {i : ι}

/-- The effect of a write of the body. -/
theorem effect_of_write {op : WriteOp} {env : Env} (h : s.write i op env = some t) :
    Effect M s (.write i op env) t := by
  unfold write at h
  dsimp only at h
  split at h
  · rename_i hp hk
    obtain rfl := Option.some.inj h
    exact .write i op env hp (by simp [hk])
  · rename_i hp hk _
    split_ifs at h with hsub
    obtain rfl := Option.some.inj h
    exact .write i op env hp fun _ => hsub
  · rename_i e hp hk _
    split_ifs at h with hsub
    obtain rfl := Option.some.inj h
    exact .writeErr i op env e hp hsub
  · simp at h

/-- The effect of a commit. -/
theorem effect_of_commit {readings : List ℤ} (h : s.commit i readings = some t) :
    Effect M s (.commit i readings) t := by
  unfold commit at h
  dsimp only at h
  split_ifs at h with hp hd hw hb hl
  · obtain rfl := Option.some.inj h
    exact .failed _ i _ (by tauto) rfl
  · obtain rfl := Option.some.inj h
    exact .failed _ i _ (by tauto) rfl
  · obtain rfl := Option.some.inj h
    exact .failed _ i _ (by tauto) rfl
  · push Not at hp
    split at h
    · obtain rfl := Option.some.inj h
      exact .failed _ i _ hp.1 rfl
    · simp at h
    · obtain rfl := Option.some.inj h
      exact .exit _
    · rename_i ts tso hts
      obtain rfl := Option.some.inj h
      exact .stamp i readings ts tso hp.1 hp.2 (by simpa using hd) (by simpa using hl) hts

/-- The effect of a proposal. -/
theorem effect_of_propose (h : s.propose i = some t) : Effect M s (.propose i) t := by
  unfold propose at h
  split at h
  · rename_i cmd hp hc
    obtain rfl := Option.some.inj h
    obtain ⟨cmd', hc', he⟩ := Option.map_eq_some_iff.mp hc
    unfold Command.encode at he
    split_ifs at he
    obtain rfl := Except.ok.inj he
    exact .propose i cmd' hp hc'
  · rename_i e hp hc
    obtain rfl := Option.some.inj h
    obtain ⟨cmd', hc', he⟩ := Option.map_eq_some_iff.mp hc
    exact .unencodable i cmd' e hp hc' he
  · simp at h

/-- The effect of a discard. -/
theorem effect_of_discard (h : s.discard i = some t) : Effect M s (.discard i) t := by
  unfold discard at h
  split at h
  · simp at h
  · obtain rfl := Option.some.inj h
    exact .exit _
  · rename_i p tso hp ht
    obtain rfl := Option.some.inj h
    exact .discard i p tso hp ht

omit [DecidableEq ι] in
/-- The effect of applying an entry. -/
theorem effect_of_apply [DecidableEq ι] {env : Env} (h : s.apply M env = some t) :
    Effect M s (.apply env) t := by
  unfold apply at h
  split_ifs at h
  split at h
  · simp at h
  · rename_i entry he
    split at h
    · rename_i store ha
      obtain rfl := Option.some.inj h
      exact .apply env entry store he ha
    · obtain rfl := Option.some.inj h
      exact .exit _
    · obtain rfl := Option.some.inj h
      exact .stop env

/-- The effect of a step of `ReadTs`. -/
theorem effect_of_markRead (h : s.markRead i = some t) : Effect M s (.markRead i) t := by
  unfold markRead at h
  split_ifs at h with hp
  split at h
  · obtain rfl := Option.some.inj h
    exact .exit _
  · rename_i m hm
    obtain rfl := Option.some.inj h
    exact .markRead i m hp hm

/-- The effect of the error path of `ReadTs`. -/
theorem effect_of_waitErr (h : s.waitErr i = some t) : Effect M s (.waitErr i) t := by
  unfold waitErr at h
  split_ifs at h with hp
  split at h
  · obtain rfl := Option.some.inj h
    exact .exit _
  · rename_i m hm
    obtain rfl := Option.some.inj h
    exact .waitErr i m hp hm

/-- The effect of `DoneCommit`. -/
theorem effect_of_doneCommit (h : s.doneCommit i = some t) : Effect M s (.doneCommit i) t := by
  unfold doneCommit at h
  split_ifs at h with hp
  split at h
  · obtain rfl := Option.some.inj h
    exact .exit _
  · rename_i m hm
    obtain rfl := Option.some.inj h
    exact .doneCommit i m hp hm

/-- Every step has one of the effects, from a state whose process runs. -/
theorem effect_of_step {a : Action ι} (h : s.step M a = some t) : Effect M s a t := by
  unfold step at h
  split_ifs at h
  cases a with
  | beginTxn i kind =>
    simp only [beginTxn] at h
    split_ifs at h with hp
    obtain rfl := Option.some.inj h
    exact .beginTxn i kind hp
  | markRead i => exact effect_of_markRead h
  | waitOk i =>
    simp only [waitOk] at h
    split_ifs at h with hp
    obtain rfl := Option.some.inj h
    exact .waitOk i hp.1 hp.2
  | waitErr i => exact effect_of_waitErr h
  | read i q env =>
    simp only [read] at h
    split_ifs at h with hp
    obtain rfl := Option.some.inj h
    exact .read i q env hp.1
  | write i op env => exact effect_of_write h
  | fail i e =>
    simp only [fail] at h
    split_ifs at h with hp
    obtain rfl := Option.some.inj h
    exact .failed _ i e hp.1 rfl
  | discard i => exact effect_of_discard h
  | commit i readings => exact effect_of_commit h
  | doneCommit i => exact effect_of_doneCommit h
  | propose i => exact effect_of_propose h
  | ack i =>
    simp only [finish] at h
    split_ifs at h with hp
    obtain rfl := Option.some.inj h
    exact .finish _ i none hp rfl
  | timeout i =>
    simp only [finish] at h
    split_ifs at h with hp
    obtain rfl := Option.some.inj h
    exact .finish _ i _ hp rfl
  | apply env => exact effect_of_apply h
  | saveBound upperBound =>
    obtain rfl := Option.some.inj h
    exact .saveBound upperBound

/-! ## What a step does to one part of the state -/

/-- The moves of a call that change its phase only, or discard its transaction. -/
inductive Next : Phase → Phase → Prop
  /-- The pending read is marked. -/
  | markRead : Next .recorded .begun
  /-- The wait for earlier commits ends. -/
  | waitOk : Next .begun .running
  /-- The wait for earlier commits fails. -/
  | waitErr : Next .begun (.returned (some .ctxDone))
  /-- The body discards its transaction. -/
  | discarded : Next .running .running
  /-- The body or `Commit` ends in an error. -/
  | failed (e : Err) : Next .running (.leaving (.failed e))
  /-- The commit timestamp is done. -/
  | doneCommit : Next .stamped (.leaving .committed)
  /-- The command is to be proposed. -/
  | ready : Next (.leaving .committed) .ready
  /-- There is no command to propose. -/
  | nothing : Next (.leaving .committed) (.returned none)
  /-- The error is returned. -/
  | left (e : Err) : Next (.leaving (.failed e)) (.returned (some e))
  /-- The command is in the log. -/
  | proposed : Next .ready .proposed
  /-- The command cannot be encoded. -/
  | unencodable (e : Err) : Next .ready (.returned (some e))
  /-- `proposeAndWait` returns. -/
  | finished (e : Option Err) : Next .proposed (.returned e)

omit [DecidableEq ι] in
/-- A call moves on after it has begun. -/
theorem Next.ne_idle {p p' : Phase} (h : Next p p') : p ≠ .idle ∧ p' ≠ .idle := by
  cases h <;> simp

/-- What a step can do to the call `j`. -/
inductive CallStep (s t : Leader ι) : Action ι → ι → Call → Prop
  /-- It is another call's step. -/
  | same (a : Action ι) (j : ι) : CallStep s t a j (s.calls j)
  /-- The call begins. -/
  | beginTxn (j : ι) (kind : Kind) (h : (s.calls j).phase = .idle) :
      CallStep s t (.beginTxn j kind) j
        ⟨kind, .recorded, Txn.beginTxn s.tso.currentReadTs true, []⟩
  /-- Its body reads. -/
  | read (j : ι) (q : Query) (env : Env) (h : (s.calls j).phase = .running) :
      CallStep s t (.read j q env) j { s.calls j with
        txn := ((s.calls j).txn.read s.store env q).1
        readLog := (s.calls j).readLog ++ [(q, env, ((s.calls j).txn.read s.store env q).2)] }
  /-- Its body writes. -/
  | write (j : ι) (op : WriteOp) (env : Env) (p : Phase) (h : (s.calls j).phase = .running)
      (hk : (s.calls j).kind = .single → (s.calls j).txn.subCommands = [])
      (hp : p = (s.calls j).phase ∨ ∃ e, p = .leaving (.failed e)) :
      CallStep s t (.write j op env) j { s.calls j with
        txn := ((s.calls j).txn.write s.store env op).1
        phase := p }
  /-- It gets its commit timestamp. -/
  | stamp (j : ι) (readings : List ℤ) (ts : ℕ) (tso : Tso) (h : (s.calls j).phase = .running)
      (hk : (s.calls j).kind = .single → (s.calls j).txn.subCommands ≠ [])
      (hts : s.tso.newCommitTs (s.calls j).txn readings = .ok ts tso)
      (hh : t.history = s.history ++ [(s.calls j).txn.stamp j ts]) :
      CallStep s t (.commit j readings) j { s.calls j with
        phase := .stamped
        txn := { (s.calls j).txn with commitTs := ts } }
  /-- It moves to another phase. -/
  | move (a : Action ι) (j : ι) (p : Phase) (d : Bool) (h : Next (s.calls j).phase p)
      (hw : (s.calls j).phase = .begun → p = .running → a = .waitOk j)
      (hd : (s.calls j).phase = .leaving .committed → p = .returned none →
        (s.calls j).command.isSome = false)
      (hr : (s.calls j).phase = .ready → ∃ cmd, a = .propose j ∧ (s.calls j).command = some cmd ∧
        (t.log = s.log ++ [⟨some j, cmd⟩] ∨ ∃ e, cmd.encode = .error e))
      (hc : a.caller = some j) :
      CallStep s t a j { s.calls j with
        phase := p
        txn := { (s.calls j).txn with discarded := d } }

/-- Every step does one of these to a call. -/
theorem callStep_of_step {a : Action ι} (h : s.step M a = some t) (j : ι) :
    CallStep s t a j (t.calls j) := by
  -- A step that replaces the call `i`, as the call `j` sees it.
  have hset : ∀ (i : ι) (c : Call), (i = j → CallStep s t a j c) →
      CallStep s t a j ((s.setCall i c).calls j) := by
    intro i c hc
    by_cases hij : j = i
    · subst hij
      simpa [setCall] using hc rfl
    · simpa [setCall, Function.update_of_ne hij] using CallStep.same a j
  -- A step that moves the call `i` on. Only `Discard` moves a call that has committed, see below.
  have hmove : ∀ (i : ι) (p : Phase), a.caller = some i → Next (s.calls i).phase p →
      ((s.calls i).phase = .begun → p = .running → a = .waitOk i) →
      ((s.calls i).phase = .ready → ∃ cmd, a = .propose i ∧ (s.calls i).command = some cmd ∧
        (t.log = s.log ++ [⟨some i, cmd⟩] ∨ ∃ e, cmd.encode = .error e)) →
      (s.calls i).phase ≠ .leaving .committed → CallStep s t a j ((s.setPhase i p).calls j) := by
    intro i p hc hn hw hr hl
    apply hset
    rintro rfl
    exact CallStep.move a i p (s.calls i).txn.discarded hn hw (fun h => absurd h hl) hr hc
  cases effect_of_step h with
  | beginTxn i kind hp => exact hset i _ (by rintro rfl; exact .beginTxn i kind hp)
  | markRead i m hp hm => exact hmove i _ rfl (hp ▸ .markRead) (by simp) (by simp [hp]) (by simp [hp])
  | waitOk i hp hw => exact hmove i _ rfl (hp ▸ .waitOk) (fun _ _ => rfl) (by simp [hp]) (by simp [hp])
  | waitErr i m hp hm => exact hmove i _ rfl (hp ▸ .waitErr) (by simp) (by simp [hp]) (by simp [hp])
  | read i q env hp => exact hset i _ (by rintro rfl; exact .read i q env hp)
  | write i op env hp hk =>
    refine hset i _ ?_
    rintro rfl
    exact .write i op env _ hp hk (.inl rfl)
  | writeErr i op env e hp hk =>
    refine hset i _ ?_
    rintro rfl
    exact .write i op env _ hp (fun _ => hk) (.inr ⟨e, rfl⟩)
  | failed _ i e hp hc => exact hmove i _ hc (hp ▸ .failed e) (by simp) (by simp [hp]) (by simp [hp])
  | discard i p tso hp ht =>
    refine hset i _ ?_
    rintro rfl
    refine .move _ i p true ?_ ?_ ?_ ?_ rfl
    · obtain ⟨hphase, rfl⟩ | ⟨hphase, rfl⟩ | ⟨e, hphase, rfl⟩ := phaseAfterDiscard_cases hp
      · exact hphase ▸ .discarded
      · rw [hphase]
        split_ifs
        · exact .ready
        · exact .nothing
      · exact hphase ▸ .left e
    · intro hb
      simp [phaseAfterDiscard, hb] at hp
    · intro hl hp'
      by_contra hcmd
      simp [phaseAfterDiscard, hl, hcmd, hp'] at hp
    · intro hr
      simp [phaseAfterDiscard, hr] at hp
  | stamp i readings ts tso hp hk hd hl hts =>
    exact hset i _ (by rintro rfl; exact .stamp i readings ts tso hp hk hts rfl)
  | doneCommit i m hp hm =>
    exact hmove i _ rfl (hp ▸ .doneCommit) (by simp) (by simp [hp]) (by simp [hp])
  | propose i cmd hp hc =>
    exact hmove i _ rfl (hp ▸ .proposed) (by simp) (fun _ => ⟨cmd, rfl, hc, .inl rfl⟩) (by simp [hp])
  | unencodable i cmd e hp hc he =>
    exact hmove i _ rfl (hp ▸ .unencodable e) (by simp) (fun _ => ⟨cmd, rfl, hc, .inr ⟨e, he⟩⟩)
      (by simp [hp])
  | finish _ i e hp hc => exact hmove i _ hc (hp ▸ .finished e) (by simp) (by simp [hp]) (by simp [hp])
  | apply | stop | saveBound | exit => exact .same ..

/-- A step of a call leaves the other calls as they are, and so does one that is no call's. -/
theorem calls_of_caller_ne {a : Action ι} (h : s.step M a = some t) (hi : a.caller ≠ some i) :
    t.calls i = s.calls i := by
  have hstep := callStep_of_step h i
  generalize t.calls i = c at hstep ⊢
  cases hstep with
  | same => rfl
  | move _ _ p d hn hw hd hr hc => exact absurd hc hi
  | _ => exact absurd rfl hi

/-- A call that has begun keeps its read timestamp. -/
theorem readTs_step {a : Action ι} (h : s.step M a = some t) (hi : (s.calls i).phase ≠ .idle) :
    (t.calls i).phase ≠ .idle ∧ (t.calls i).txn.readTs = (s.calls i).txn.readTs := by
  have hstep := callStep_of_step h i
  generalize t.calls i = c at hstep ⊢
  cases hstep with
  | same => exact ⟨hi, rfl⟩
  | beginTxn _ kind hp => exact absurd hp hi
  | read _ q env hp => exact ⟨hi, (Txn.read_grows _ _ _ _).readTs⟩
  | write _ op env p hp hk hp' =>
    refine ⟨?_, (Txn.write_grows _ _ _ _).readTs⟩
    rcases hp' with rfl | ⟨e, rfl⟩ <;> simp [hp]
  | stamp _ readings ts tso hp hk hts hh => exact ⟨by simp, rfl⟩
  | move _ _ p d hn => exact ⟨hn.ne_idle.2, rfl⟩

/-- A call begins only by taking the current timestamp. -/
theorem begins_step {a : Action ι} (h : s.step M a = some t) (hi : (s.calls i).phase = .idle)
    (ht : (t.calls i).phase ≠ .idle) :
    (∃ kind, a = .beginTxn i kind) ∧ (t.calls i).txn.readTs = s.tso.currentReadTs := by
  have hstep := callStep_of_step h i
  generalize t.calls i = c at hstep ht ⊢
  cases hstep with
  | same => exact absurd hi ht
  | beginTxn _ kind hp => exact ⟨⟨kind, rfl⟩, rfl⟩
  | read _ q env hp | write _ op env p hp hk hp' | stamp _ readings ts tso hp hk hts hh => simp [hi] at hp
  | move _ _ p d hn => exact absurd hi hn.ne_idle.1

/-- The log grows by the command of a call that is ready. -/
theorem log_step {a : Action ι} (h : s.step M a = some t) :
    t.log = s.log ∨ ∃ j cmd, (s.calls j).phase = .ready ∧ (s.calls j).command = some cmd ∧
      a = .propose j ∧ t.log = s.log ++ [⟨some j, cmd⟩] ∧ t.store = s.store ∧
      (t.calls j).phase = .proposed := by
  cases effect_of_step h with
  | propose j cmd hp hc => exact .inr ⟨j, cmd, hp, hc, rfl, rfl, rfl, by simp [setPhase, setCall]⟩
  | _ => exact .inl rfl

/-- The store changes by applying the next entry of the log. -/
theorem store_step {a : Action ι} (h : s.step M a = some t) :
    (t.store = s.store ∧ t.applied = s.applied) ∨
    ∃ env entry, a = .apply env ∧ s.log[s.applied]? = some entry ∧
      Fsm.apply M s.store env entry.command = .ok t.store ∧ t.applied = s.applied + 1 ∧
      t.log = s.log ∧ t.history = s.history ∧ t.calls = s.calls := by
  cases effect_of_step h with
  | apply env entry store he ha => exact .inr ⟨env, entry, rfl, he, ha, rfl, rfl, rfl, rfl⟩
  | _ => exact .inl ⟨rfl, rfl⟩

/-- The history grows by a successful `newCommitTs`. -/
theorem history_step {a : Action ι} (h : s.step M a = some t) :
    t.history = s.history ∨ ∃ j readings ts tso, a = .commit j readings ∧
      (s.calls j).phase = .running ∧ (s.calls j).txn.discarded = false ∧
      s.tso.newCommitTs (s.calls j).txn readings = .ok ts tso ∧ t.tso = tso ∧
      (t.calls j).phase = .stamped ∧ (t.calls j).txn = { (s.calls j).txn with commitTs := ts } ∧
      (t.calls j).readLog = (s.calls j).readLog ∧ (t.calls j).kind = (s.calls j).kind ∧
      t.history = s.history ++ [(s.calls j).txn.stamp j ts] ∧ t.log = s.log ∧
      t.store = s.store := by
  cases effect_of_step h with
  | stamp j readings ts tso hp hk hd hl hts =>
    exact .inr ⟨j, readings, ts, tso, rfl, hp, hd, hts, rfl, by simp [setCall], by simp [setCall],
      by simp [setCall], by simp [setCall], rfl, rfl, rfl⟩
  | _ => exact .inl rfl

end Leader

end Omashu
