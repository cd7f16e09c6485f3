import Omashu.Leader.System

/-!
# A call that runs alone

While nothing else runs, a call that makes one write goes through its phases one after the other:
`nextAction` is its next step and `serve` takes its steps until it returns. A leader at rest has no call under
way, nothing pending in its watermarks and the whole log applied. `serve_applied` says what a call does to a
leader at rest if its command is applied without an error, and `serve_failed` what it does if its write fails:
in both cases the call returns and the leader is at rest again.
-/

namespace Omashu

open Lib

/-- What a client asks for, and the surroundings of the call. -/
structure Request where
  /-- How the call reaches the leader. -/
  kind : Kind
  /-- The write of its body. -/
  op : WriteOp
  /-- The surroundings of the body. -/
  bodyEnv : Env
  /-- The surroundings of `Apply`. -/
  applyEnv : Env
  /-- The readings of the clock that `allocate` makes. -/
  readings : List ℤ

/-- What the call proposes for its only sub-command. -/
def Request.body (q : Request) (sub : SubCommand) : Body :=
  match q.kind with
  | .single => .single sub
  | .transaction => .transaction [sub]

/-- Nothing is pending in the oracle, and nothing that it keeps is above the last timestamp. -/
structure Tso.Rested (tso : Tso) : Prop where
  /-- No commit is pending. -/
  txnMark : tso.txnMark.pending = [] ∧ tso.txnMark.doneUntil ≤ tso.currentReadTs
  /-- No read is pending. -/
  readMark : tso.readMark.pending = [] ∧ tso.readMark.doneUntil ≤ tso.currentReadTs
  /-- The records are of timestamps that were handed out. -/
  committedTxns : ∀ c ∈ tso.committedTxns, c.ts ≤ tso.currentReadTs

namespace Leader

variable {ι : Type*} [DecidableEq ι]

omit [DecidableEq ι] in
/-- The next step of a call that runs alone, if it has not returned. -/
def nextAction (s : Leader ι) (i : ι) (q : Request) : Option (Action ι) :=
  match (s.calls i).phase with
  | .idle => some (.beginTxn i q.kind)
  | .recorded => some (.markRead i)
  | .begun => some (.waitOk i)
  -- The body makes its write, and then the transaction is committed.
  | .running =>
    if (s.calls i).txn.subCommands = [] then some (.write i q.op q.bodyEnv)
    else some (.commit i q.readings)
  | .stamped => some (.doneCommit i)
  | .leaving _ => some (.discard i)
  | .ready => some (.propose i)
  -- The response arrives once the command is applied.
  | .proposed => if s.applied < s.log.length then some (.apply q.applyEnv) else some (.ack i)
  | .returned _ => none

/-- The steps of a call that runs alone, until it returns; no more than the given number. -/
def serve (M : Merge) (i : ι) (q : Request) : ℕ → Leader ι → Option (Leader ι)
  | 0, s => some s
  | n + 1, s =>
    match s.nextAction i q with
    | none => some s
    | some a => (s.step M a).bind (serve M i q n)

omit [DecidableEq ι] in
/-- The leader runs, with no commit under way, nothing pending and every entry applied. -/
structure Rested (s : Leader ι) : Prop where
  /-- The process runs. -/
  exited : s.exited = false
  /-- The Ready loop runs. -/
  loopStopped : s.loopStopped = false
  /-- No commit holds the lock. -/
  writeChLock : s.writeChLock = none
  /-- Every entry is applied. -/
  applied : s.applied = s.log.length
  /-- Nothing is pending in the oracle. -/
  tso : s.tso.Rested

/-- The state while a call is in its body: the call is as given, and its read is pending. -/
def inBody (s : Leader ι) (i : ι) (c : Call) (m : WaterMark) : Leader ι :=
  { s with
    calls := Function.update s.calls i c
    tso := { s.tso with readers := insert s.tso.currentReadTs s.tso.readers, readMark := m } }

variable {M : Merge} {s : Leader ι} {i : ι} {q : Request} {n : ℕ} {txn : Txn} {m : WaterMark}

/-- A call that has a next step takes it. -/
theorem serve_succ {a : Action ι} {t : Leader ι} (ha : s.nextAction i q = some a)
    (h : s.step M a = some t) : serve M i q (n + 1) s = serve M i q n t := by
  simp only [serve, ha, h, Option.bind_some]

/-- From a leader at rest, a call comes to its body. -/
theorem serve_begin (hs : s.Rested) (hi : (s.calls i).phase = .idle) :
    ∃ m : WaterMark, m.pending = [(s.tso.currentReadTs, 1)] ∧
      serve M i q (n + 3) s =
        serve M i q n (s.inBody i ⟨q.kind, .running, Txn.beginTxn s.tso.currentReadTs true, []⟩ m) := by
  obtain ⟨m, hm, hpending⟩ := WaterMark.exists_beginMark hs.tso.readMark.1 hs.tso.readMark.2
  refine ⟨m, hpending, ?_⟩
  have hwait : s.tso.txnMark.Waited s.tso.currentReadTs := by
    intro p hp
    rw [hs.tso.txnMark.1] at hp
    exact absurd hp List.not_mem_nil
  simp [serve, nextAction, hi, step, hs.exited, beginTxn, markRead, waitOk, setCall, setPhase, inBody,
    Txn.beginTxn, hm, hwait]

/-- A call that has returned takes no further step. -/
theorem serve_of_returned {e : Option Err} (h : (s.calls i).phase = .returned e) :
    serve M i q n s = some s := by
  cases n with
  | zero => rfl
  | succ n => simp only [serve, nextAction, h]

/-- What a call leaves behind when it has returned. -/
structure Served (s t : Leader ι) (i : ι) (e : Option Err) : Prop where
  /-- The call has returned. -/
  phase : (t.calls i).phase = .returned e
  /-- The leader is at rest. -/
  rested : t.Rested
  /-- The other calls are as they were. -/
  calls : ∀ j, j ≠ i → t.calls j = s.calls j

/-- A single write that fails is discarded, and the call returns its error. -/
theorem serve_failed {e : Err} (hs : s.Rested) (hi : (s.calls i).phase = .idle) (hkind : q.kind = .single)
    (hwrite : (Txn.beginTxn s.tso.currentReadTs true).write s.store q.bodyEnv q.op = (txn, .error e)) :
    ∃ t, serve M i q 10 s = some t ∧ Served s t i (some e) ∧ t.store = s.store ∧
      t.tso.toClock = s.tso.toClock := by
  obtain ⟨m, hpending, hbegin⟩ := serve_begin (M := M) (n := 7) hs hi
  obtain ⟨m', hm', hpending', hbound⟩ := WaterMark.exists_doneMark hpending
  have hgrows := Txn.write_grows (Txn.beginTxn s.tso.currentReadTs true) s.store q.bodyEnv q.op
  rw [hwrite] at hgrows
  have hreadTs : txn.readTs = s.tso.currentReadTs := hgrows.readTs
  have hopen : txn.discarded = false := hgrows.discarded
  -- The write, and the deferred `Discard`.
  have hleave : (s.inBody i ⟨q.kind, .running, Txn.beginTxn s.tso.currentReadTs true, []⟩ m).step M
      (.write i q.op q.bodyEnv) = some (s.inBody i ⟨q.kind, .leaving (.failed e), txn, []⟩ m) := by
    have hsubs : (Txn.beginTxn s.tso.currentReadTs true).subCommands = [] := rfl
    simp [step, write, inBody, hs.exited, hkind, hwrite, hsubs, setCall]
  obtain ⟨t, ht, hdiscard⟩ : ∃ t, t = { s with
        calls := Function.update s.calls i
          ⟨q.kind, .returned (some e), { txn with discarded := true }, []⟩
        tso := { s.tso with
          readers := (insert s.tso.currentReadTs s.tso.readers).erase s.tso.currentReadTs
          readMark := m' } } ∧
      (s.inBody i ⟨q.kind, .leaving (.failed e), txn, []⟩ m).step M (.discard i) = some t := by
    refine ⟨_, rfl, ?_⟩
    simp [step, discard, inBody, hs.exited, phaseAfterDiscard, discardRead, hopen, Tso.doneRead, hreadTs,
      hm', setCall]
  have hphase : (t.calls i).phase = .returned (some e) := by simp [ht]
  refine ⟨t, ?_, ⟨hphase, ?_, ?_⟩, ?_, ?_⟩
  · rw [hbegin, serve_succ (by simp [nextAction, inBody, Txn.beginTxn]) hleave,
      serve_succ (by simp [nextAction, inBody]) hdiscard, serve_of_returned hphase]
  · rw [ht]
    exact ⟨hs.exited, hs.loopStopped, hs.writeChLock, hs.applied,
      ⟨hs.tso.txnMark, ⟨hpending', hbound.le⟩, hs.tso.committedTxns⟩⟩
  · intro j hj
    rw [ht]
    exact Function.update_of_ne hj _ _
  · rw [ht]
  · rw [ht]

/-- With nothing pending, `newCommitTs` of a transaction at the last timestamp meets no conflict and hands out
what the clock allocates. -/
theorem exists_newCommitTs (tso : Tso) (txn : Txn) {c : Clock} (htxnMark : tso.txnMark.pending = [])
    (hbound : tso.txnMark.doneUntil ≤ c.current.compose)
    (hrecords : ∀ x ∈ tso.committedTxns, x.ts ≤ txn.readTs) (hreader : txn.readTs ∈ tso.readers)
    (hpending : tso.readMark.pending = [(txn.readTs, 1)]) (hclock : tso.toClock.allocate q.readings = some c)
    (hle : txn.readTs ≤ c.current.compose) :
    ∃ tso', tso.newCommitTs txn q.readings = .ok c.current.compose tso' ∧ tso'.toClock = c ∧
      tso'.txnMark.pending = [(c.current.compose, 1)] ∧ txn.readTs ∉ tso'.readers ∧
      tso'.readMark.pending = [] ∧ tso'.readMark.doneUntil = txn.readTs ∧
      ∀ x ∈ tso'.committedTxns, x.ts ≤ c.current.compose := by
  have hconflict : tso.hasConflict txn = false := by
    rw [← Bool.not_eq_true, Tso.hasConflict_iff]
    rintro ⟨x, hx, hlt, -⟩
    exact absurd (hrecords x hx) (not_le.mpr hlt)
  obtain ⟨m, hm, hmpending, hmbound⟩ := WaterMark.exists_doneMark hpending
  obtain ⟨m', hm', hmpending'⟩ := WaterMark.exists_beginMark htxnMark hbound
  have hdone : tso.doneRead txn.readTs =
      some { tso with readMark := m, readers := tso.readers.erase txn.readTs } := by
    simp only [Tso.doneRead, if_pos hreader, hm, Option.map_some]
  obtain ⟨tso', htso'⟩ : ∃ tso', tso.newCommitTs txn q.readings = .ok c.current.compose tso' := by
    obtain ⟨hfclock, hftxn, -, -⟩ := Tso.cleanup_frame
      { tso with readMark := m, readers := tso.readers.erase txn.readTs }
    simp only [Tso.newCommitTs, hconflict, hdone, hfclock, hftxn, hclock, hm']
    exact ⟨_, rfl⟩
  obtain ⟨-, tso₁, hdone', hclock', -, hbegin, hreadMark, hreaders, hcommitted⟩ := Tso.newCommitTs_ok htso'
  rw [hdone] at hdone'
  obtain rfl := Option.some.inj hdone'
  refine ⟨tso', htso', ?_, ?_, ?_, ?_, ?_, ?_⟩
  · rw [hclock] at hclock'
    exact (Option.some.inj hclock').symm
  · rw [hm'] at hbegin
    rw [← Option.some.inj hbegin]
    exact hmpending'
  · rw [hreaders]
    exact Finset.notMem_erase _ _
  · rw [hreadMark]
    exact hmpending
  · rw [hreadMark]
    exact hmbound
  · intro x hx
    rw [hcommitted] at hx
    rcases List.mem_append.mp hx with hx | hx
    · have hmem := Tso.mem_of_mem_cleanup hx
      exact (hrecords x hmem).trans hle
    · rw [List.mem_singleton.mp hx]

/-- The state of a call between its commit timestamp and its proposal. -/
def committing (s : Leader ι) (i : ι) (c : Call) (tso : Tso) (lock : Option ι) : Leader ι :=
  { s with
    tso
    writeChLock := lock
    calls := Function.update s.calls i c
    history := s.history ++ [c.txn.stamp i c.txn.commitTs] }

/-- The command of a call that has one sub-command. -/
theorem command_of_request {c : Call} {sub : SubCommand} (hkind : c.kind = q.kind)
    (hsub : c.txn.subCommands = [sub]) : c.command = some ⟨c.txn.readTs, c.txn.commitTs, q.body sub⟩ := by
  unfold Call.command Request.body
  rw [hkind, hsub]
  cases q.kind <;> rfl

/-- From the end of its body, a transaction with one sub-command gets its commit timestamp and comes to its
proposal. -/
theorem serve_commit {sub : SubCommand} {c : Clock} (hs : s.Rested)
    (hpending : m.pending = [(s.tso.currentReadTs, 1)]) (hreadTs : txn.readTs = s.tso.currentReadTs)
    (hopen : txn.discarded = false) (hsub : txn.subCommands = [sub])
    (hclock : s.tso.toClock.allocate q.readings = some c) (hle : s.tso.currentReadTs ≤ c.current.compose) :
    ∃ tso : Tso, tso.Rested ∧ tso.toClock = c ∧
      serve M i q (n + 3) (s.inBody i ⟨q.kind, .running, txn, []⟩ m) =
        serve M i q n (s.committing i
          ⟨q.kind, .ready, { txn with commitTs := c.current.compose, discarded := true }, []⟩ tso none) := by
  obtain ⟨tso, hts, htclock, htxn, hreader, hread, hreadBound, hrecords⟩ :=
    exists_newCommitTs (s.inBody i ⟨q.kind, .running, txn, []⟩ m).tso txn (q := q)
      hs.tso.txnMark.1 (hs.tso.txnMark.2.trans hle) (fun x hx => hreadTs ▸ hs.tso.committedTxns x hx)
      (hreadTs ▸ Finset.mem_insert_self _ _) (hreadTs ▸ hpending) hclock (hreadTs ▸ hle)
  obtain ⟨m', hm', hpending', hbound'⟩ := WaterMark.exists_doneMark htxn
  have hts' : tso.currentReadTs = c.current.compose := by rw [Tso.currentReadTs, htclock]
  have hrest : Tso.Rested { tso with txnMark := m' } := by
    refine ⟨⟨hpending', ?_⟩, ⟨hread, ?_⟩, fun x hx => ?_⟩
    · exact (hbound'.trans hts'.symm).le
    · exact hreadBound.le.trans (hts' ▸ hreadTs ▸ hle)
    · exact (hrecords x hx).trans hts'.ge
  refine ⟨{ tso with txnMark := m' }, hrest, htclock, ?_⟩
  have hcalls : (s.inBody i ⟨q.kind, .running, txn, []⟩ m).calls i = ⟨q.kind, .running, txn, []⟩ :=
    Function.update_self ..
  have hcommit : (s.inBody i ⟨q.kind, .running, txn, []⟩ m).step M (.commit i q.readings) =
      some (s.committing i ⟨q.kind, .stamped, { txn with commitTs := c.current.compose }, []⟩ tso (some i)) := by
    have hexited : (s.inBody i ⟨q.kind, .running, txn, []⟩ m).exited = false := hs.exited
    have hlock : (s.inBody i ⟨q.kind, .running, txn, []⟩ m).writeChLock = none := hs.writeChLock
    simp only [step, hexited, commit, hcalls, hlock, hts, hsub, hopen]
    simp [MaxBatchSize, setCall, inBody, committing, Txn.stamp, hsub]
  have hdone : (s.committing i ⟨q.kind, .stamped, { txn with commitTs := c.current.compose }, []⟩ tso
      (some i)).step M (.doneCommit i) = some (s.committing i
        ⟨q.kind, .leaving .committed, { txn with commitTs := c.current.compose }, []⟩
        { tso with txnMark := m' } none) := by
    simp [step, doneCommit, committing, hs.exited, hm', setPhase, setCall]
  have hdiscard : (s.committing i ⟨q.kind, .leaving .committed, { txn with commitTs := c.current.compose }, []⟩
      { tso with txnMark := m' } none).step M (.discard i) = some (s.committing i
        ⟨q.kind, .ready, { txn with commitTs := c.current.compose, discarded := true }, []⟩
        { tso with txnMark := m' } none) := by
    -- The transaction has a command, and its read is done already.
    have hcommand : ∀ b, (Call.command ⟨q.kind, .leaving .committed,
        { txn with commitTs := c.current.compose, discarded := b }, []⟩).isSome = true := by
      intro b
      rw [command_of_request (q := q) rfl hsub]
      rfl
    simp [step, discard, committing, hs.exited, phaseAfterDiscard, hcommand, discardRead, hopen, Tso.doneRead,
      hreader, setCall, Txn.stamp]
  have hnext : (s.inBody i ⟨q.kind, .running, txn, []⟩ m).nextAction i q = some (.commit i q.readings) := by
    simp only [nextAction, hcalls, hsub, List.cons_ne_nil, if_false]
  rw [serve_succ hnext hcommit, serve_succ (by simp [nextAction, committing]) hdone,
    serve_succ (by simp [nextAction, committing]) hdiscard]

/-- From its proposal, a call whose command is applied without an error returns. -/
theorem serve_propose (txn : Txn) (tso : Tso) {sub : SubCommand} {store : Store} (hs : s.Rested)
    (hsub : txn.subCommands = [sub]) (henc : sub.encodable = true)
    (happly : Fsm.apply M s.store q.applyEnv ⟨txn.readTs, txn.commitTs, q.body sub⟩ = .ok store) :
    serve M i q (n + 3) (s.committing i ⟨q.kind, .ready, txn, []⟩ tso none) =
      some { s.committing i ⟨q.kind, .returned none, txn, []⟩ tso none with
        log := s.log ++ [⟨some i, ⟨txn.readTs, txn.commitTs, q.body sub⟩⟩]
        applied := s.applied + 1
        store } := by
  have hcommand := command_of_request (q := q) (c := ⟨q.kind, .ready, txn, []⟩) rfl hsub
  have hencode : Command.encode ⟨txn.readTs, txn.commitTs, q.body sub⟩ =
      .ok ⟨txn.readTs, txn.commitTs, q.body sub⟩ := by
    unfold Command.encode Request.body
    cases q.kind <;> simp [Body.subCommands, henc]
  have hpropose : (s.committing i ⟨q.kind, .ready, txn, []⟩ tso none).step M (.propose i) =
      some { s.committing i ⟨q.kind, .proposed, txn, []⟩ tso none with
        log := s.log ++ [⟨some i, ⟨txn.readTs, txn.commitTs, q.body sub⟩⟩] } := by
    simp [step, propose, committing, hs.exited, hcommand, hencode, setPhase, setCall]
  have happlied : ({ s.committing i ⟨q.kind, .proposed, txn, []⟩ tso none with
        log := s.log ++ [⟨some i, ⟨txn.readTs, txn.commitTs, q.body sub⟩⟩] } : Leader ι).step M
          (.apply q.applyEnv) =
      some { s.committing i ⟨q.kind, .proposed, txn, []⟩ tso none with
        log := s.log ++ [⟨some i, ⟨txn.readTs, txn.commitTs, q.body sub⟩⟩]
        applied := s.applied + 1
        store } := by
    simp [step, apply, committing, hs.exited, hs.loopStopped, hs.applied, happly]
  have hack : ({ s.committing i ⟨q.kind, .proposed, txn, []⟩ tso none with
        log := s.log ++ [⟨some i, ⟨txn.readTs, txn.commitTs, q.body sub⟩⟩]
        applied := s.applied + 1
        store } : Leader ι).step M (.ack i) =
      some { s.committing i ⟨q.kind, .returned none, txn, []⟩ tso none with
        log := s.log ++ [⟨some i, ⟨txn.readTs, txn.commitTs, q.body sub⟩⟩]
        applied := s.applied + 1
        store } := by
    simp [step, finish, committing, hs.exited, setPhase, setCall]
  rw [serve_succ (by simp [nextAction, committing]) hpropose,
    serve_succ (by simp [nextAction, committing, hs.applied]) happlied,
    serve_succ (by simp [nextAction, committing, hs.applied]) hack,
    serve_of_returned (e := none) (by simp [committing])]

/-- A call whose write is buffered and whose command is applied without an error returns without one, and the
store is the one that `Apply` has made. -/
theorem serve_applied {sub : SubCommand} {c : Clock} {store : Store} (hs : s.Rested)
    (hi : (s.calls i).phase = .idle)
    (hwrite : (Txn.beginTxn s.tso.currentReadTs true).write s.store q.bodyEnv q.op = (txn, .ok ()))
    (hsub : txn.subCommands = [sub]) (henc : sub.encodable = true)
    (hclock : s.tso.toClock.allocate q.readings = some c) (hle : s.tso.currentReadTs ≤ c.current.compose)
    (happly : Fsm.apply M s.store q.applyEnv ⟨s.tso.currentReadTs, c.current.compose, q.body sub⟩ = .ok store) :
    ∃ t, serve M i q 10 s = some t ∧ Served s t i none ∧ t.store = store ∧ t.tso.toClock = c := by
  obtain ⟨m, hpending, hbegin⟩ := serve_begin (M := M) (q := q) (n := 7) hs hi
  have hgrows := Txn.write_grows (Txn.beginTxn s.tso.currentReadTs true) s.store q.bodyEnv q.op
  rw [hwrite] at hgrows
  have hreadTs : txn.readTs = s.tso.currentReadTs := hgrows.readTs
  have hopen : txn.discarded = false := hgrows.discarded
  have hbuffer : (s.inBody i ⟨q.kind, .running, Txn.beginTxn s.tso.currentReadTs true, []⟩ m).step M
      (.write i q.op q.bodyEnv) = some (s.inBody i ⟨q.kind, .running, txn, []⟩ m) := by
    have hsubs : (Txn.beginTxn s.tso.currentReadTs true).subCommands = [] := rfl
    cases hkind : q.kind with
    | single => simp [step, write, inBody, hs.exited, hwrite, hsubs, setCall]
    | transaction => simp [step, write, inBody, hs.exited, hwrite, setCall]
  obtain ⟨tso, hrest, hclock', hcommit⟩ :=
    serve_commit (M := M) (i := i) (n := 3) hs hpending hreadTs hopen hsub hclock hle
  have hpropose := serve_propose (M := M) (i := i) (q := q) (n := 0)
    { txn with commitTs := c.current.compose, discarded := true } tso hs hsub henc (hreadTs.symm ▸ happly)
  have hnext : (s.inBody i ⟨q.kind, .running, Txn.beginTxn s.tso.currentReadTs true, []⟩ m).nextAction i q =
      some (.write i q.op q.bodyEnv) := by
    simp [nextAction, inBody, Txn.beginTxn]
  have hserve := hbegin.trans ((serve_succ hnext hbuffer).trans (hcommit.trans hpropose))
  refine ⟨_, hserve, ⟨?_, ⟨hs.exited, hs.loopStopped, rfl, ?_, hrest⟩, fun j hj => ?_⟩, rfl, hclock'⟩
  · simp [committing]
  · simp [hs.applied]
  · exact Function.update_of_ne hj _ _

end Leader

end Omashu
