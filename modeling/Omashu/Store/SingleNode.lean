import Omashu.Store.Counter
import Omashu.Store.Json
import Omashu.Store.PrefixDeletion

/-!
# Concurrent transactions on a single node

Without a cluster the store is a plain `Badger`, opened in Badger's own mode. `NewTransaction` opens a transaction,
runs the caller's function in it and commits; `IncrBy`, `UpdateJson` and the others are such functions of one
operation. Goroutines run them at the same time. Badger opens a transaction at the timestamp of the last commit,
remembers the fingerprints of the keys that it looks up in the store, and refuses the commit where one of them has been
committed since, if `DetectConflicts` is on: that is its default, which the code does not change, and what the results
here ask for. A transaction that has written nothing just ends.

The functions here are those that look up, set and delete single keys; a prefix scan remembers the keys that it finds
and not the ones that it misses.

`transactions_serializable` says that this is a sequential store for all interleavings: what has been committed is what
the transactions make of the store one after the other, each returning the same. `counters_exact` draws the
consequence for counters: the increments and decrements that have returned no error are in the counter, all of them and
once. For the counters of the distributed store see `Leader/Counters.lean`.
-/

namespace Omashu

open Lib

namespace TxnScript

variable {α : Type}

/-- `Badger.UpdateJsonWithTxn`. -/
def updateJsonWithTxn {G : Type} (C : JsonCodec G) (env : Env) (key : Key) (delta : G) (ttl : Option ℤ)
    (next : Except Err Unit → TxnScript α) : TxnScript α :=
  rewriteWithTxn env key ttl (fun stored => C.merge stored delta) next

/-- `UpdateJsonWithTxn` as a step of a function. -/
theorem perform_updateJsonWithTxn {G : Type} {env : Env} {txn : BTxn} {next : Except Err Unit → TxnScript α}
    (C : JsonCodec G) (key : Key) (delta : G) (ttl : Option ℤ) :
    (updateJsonWithTxn C env key delta ttl next).perform txn = resume next txn (do
      let stored ← txn.getWithTxn env key
      let merged ← C.merge stored delta
      txn.setWithTxn env key merged ttl) :=
  perform_rewriteWithTxn key ttl _

end TxnScript

namespace Badger

variable {α : Type}

/-- `Badger.NewTransaction`, with nothing else going on. -/
def newTransaction (s : Badger) (performOps : TxnScript α) : Badger × Except Err α :=
  match performOps.perform (BTxn.newTransactionAt s.db s.ts) with
  | .error e => (s, .error e)
  | .ok (r, txn) =>
    -- `Commit` returns at once if there are no writes.
    (if txn.pendingWrites.isEmpty then s else ⟨txn.commitAt (s.ts + 1), s.ts + 1⟩, .ok r)

/-- Several calls of `NewTransaction`, one after the other. -/
def newTransactions (s : Badger) : List (TxnScript α) → Badger × List (Except Err α)
  | [] => (s, [])
  | p :: ps =>
    (((s.newTransaction p).1.newTransactions ps).1,
      (s.newTransaction p).2 :: ((s.newTransaction p).1.newTransactions ps).2)

/-- The store, for the transactions on it. -/
def mvcc (s : Badger) : Mvcc Key Entry := ⟨s.db, s.ts⟩

end Badger

/-- A single-node store and the goroutines that run transactions on it. -/
abbrev SingleNode (ι α : Type) := Occ ι UInt64 Key Entry Err α

/-- The store. -/
def SingleNode.badger {ι α : Type} (s : SingleNode ι α) : Badger := ⟨s.store.versions, s.store.ts⟩

/-- One step of a goroutine, with the check that the options ask for. -/
def SingleNode.step {ι α : Type} [DecidableEq ι] (O : DbOptions) (memHash : Key → UInt64) :
    SingleNode ι α → OccAction ι Key Entry Err α → Option (SingleNode ι α) :=
  Occ.step O.detectConflicts memHash

namespace Badger

variable {α : Type}

/-- One call of `NewTransaction` is one script on the store. -/
theorem mvcc_newTransaction (s : Badger) (p : TxnScript α) :
    s.mvcc.alone p = ((s.newTransaction p).1.mvcc, (s.newTransaction p).2) := by
  have hperform := TxnScript.perform_eq_exec p (BTxn.newTransactionAt s.db s.ts)
  unfold newTransaction Mvcc.alone
  cases hexec : p.exec (s.mvcc.view s.mvcc.ts) [] with
  | error e =>
    have herror : p.perform (BTxn.newTransactionAt s.db s.ts) = .error e :=
      hperform.trans (congrArg (Except.map _) hexec)
    rw [herror]
  | ok x =>
    have hok : p.perform (BTxn.newTransactionAt s.db s.ts) =
        .ok (x.1, { BTxn.newTransactionAt s.db s.ts with pendingWrites := x.2 }) :=
      hperform.trans (congrArg (Except.map _) hexec)
    rw [hok]
    dsimp only
    split_ifs with hempty
    · rfl
    · rfl

/-- Several calls are several scripts. -/
theorem mvcc_newTransactions (s : Badger) (ps : List (TxnScript α)) :
    s.mvcc.serial ps = ((s.newTransactions ps).1.mvcc, (s.newTransactions ps).2) := by
  induction ps generalizing s with
  | nil => rfl
  | cons p ps ih =>
    unfold Mvcc.serial newTransactions
    rw [mvcc_newTransaction]
    dsimp only
    rw [ih]

/-- A store is what the transactions on it see. -/
theorem mvcc_injective : Function.Injective mvcc := by
  rintro ⟨db, ts⟩ ⟨db', ts'⟩ h
  cases h
  rfl

end Badger

/-! ## Transactions -/

namespace SingleNode

variable {ι α : Type} [DecidableEq ι] {O : DbOptions} {memHash : Key → UInt64} {b : Badger} {s : SingleNode ι α}
  {acts : List (OccAction ι Key Entry Err α)}

/-- The store is what the committed transactions make of it one after the other. -/
theorem newTransactions_history (hdetect : O.detectConflicts = true) (hb : b.Current)
    (h : run (step O memHash) (Occ.init b.mvcc) acts = some s) :
    b.newTransactions (s.history.map Prod.fst) = (s.badger, s.history.map fun c => .ok c.2) := by
  rw [step, hdetect] at h
  have hsound : Occ.Sound memHash b.mvcc s := Occ.sound_of_run hb h
  have hserial := hsound.serial
  rw [b.mvcc_newTransactions] at hserial
  obtain ⟨hstore, hresults⟩ := Prod.mk.inj hserial
  have hbadger : (b.newTransactions (s.history.map Prod.fst)).1 = s.badger := Badger.mvcc_injective hstore
  exact Prod.ext hbadger hresults

/-- A transaction that has written nothing, or has failed, returns what it returns after the commits that it has
seen. -/
theorem newTransactions_placed (hdetect : O.detectConflicts = true) (hb : b.Current)
    (h : run (step O memHash) (Occ.init b.mvcc) acts = some s) {f : Finished Key Entry Err α} (hf : f ∈ s.finished)
    {r : Except Err α} (hr : r ∈ f.outcome.unwritten) :
    ∃ before, before <+: s.history.map Prod.fst ∧ (b.newTransactions before).1.ts = f.readTs ∧
      (b.newTransactions before).1.newTransaction f.body = ((b.newTransactions before).1, r) := by
  rw [step, hdetect] at h
  have hsound : Occ.Sound memHash b.mvcc s := Occ.sound_of_run hb h
  obtain ⟨before, hbefore, hts, halone⟩ := hsound.placed f hf r hr
  rw [b.mvcc_newTransactions] at hts halone
  rw [Badger.mvcc_newTransaction] at halone
  obtain ⟨hstore, hresult⟩ := Prod.mk.inj halone
  exact ⟨before, hbefore, hts, Prod.ext (Badger.mvcc_injective hstore) hresult⟩

/-- For all interleavings of transactions on a single node that checks them for conflicts: the store is what the
committed ones make of it one after the other, in the order of their commits, each with the result that it has in the
run. Those that have written nothing or have failed have the result that they have after the commits up to the one they
read at. -/
theorem transactions_serializable (hdetect : O.detectConflicts = true) (hb : b.Current)
    (h : run (step O memHash) (Occ.init b.mvcc) acts = some s) :
    b.newTransactions (s.history.map Prod.fst) = (s.badger, s.history.map fun c => .ok c.2) ∧
      ∀ f ∈ s.finished, ∀ r ∈ f.outcome.unwritten, ∃ before, before <+: s.history.map Prod.fst ∧
        (b.newTransactions before).1.ts = f.readTs ∧
        (b.newTransactions before).1.newTransaction f.body = ((b.newTransactions before).1, r) :=
  ⟨newTransactions_history hdetect hb h, fun _ hf _ hr => newTransactions_placed hdetect hb h hf hr⟩

/-- The function that reads the key `k`, and sets it to what it has found and one byte more. -/
def appendByte (env : Env) : TxnScript (Option Bytes) :=
  .getWithTxn env [107] fun
    | .error e => .done (.error e)
    | .ok found => .setWithTxn env [107] (found.getD [] ++ [1]) none fun r => .done (r.map fun _ => found)

/-- Two goroutines read the key before the first one commits. The second one has a conflict, and tries again. -/
def twoAppends : List (OccAction Two Key Entry Err (Option Bytes)) :=
  [.start .first (appendByte ⟨0, none⟩), .start .second (appendByte ⟨0, none⟩), .advance .first, .advance .second,
    .advance .second, .advance .first, .finish .first, .finish .second, .start .second (appendByte ⟨0, none⟩),
    .advance .second, .advance .second, .finish .second]

/-- Both bytes are there in the end. -/
theorem transactions_serializable_twoAppends :
    ∃ s : SingleNode Two (Option Bytes),
      run (step .byDefault fun key => key.length.toUInt64) (Occ.init (⟨[], 0⟩ : Badger).mvcc) twoAppends = some s ∧
      s.finished.length = 3 ∧ s.history.map Prod.snd = [none, some [1]] ∧
      (⟨[], 0⟩ : Badger).newTransactions (s.history.map Prod.fst) =
        (s.badger, s.history.map fun c => .ok c.2) := by
  have hrun :
      run (step .byDefault fun key => key.length.toUInt64) (Occ.init (⟨[], 0⟩ : Badger).mvcc) twoAppends = some _ :=
    run_final (by decide)
  exact ⟨_, hrun, by decide, by decide, (transactions_serializable rfl (by decide) hrun).1⟩

end SingleNode

/-! ## Counters -/

/-- The function that `Badger.IncrBy` and `Badger.DecrBy` run in their transaction, with the operation as its
result. -/
def counterScript (env : Env) : SubCommand → Option (TxnScript SubCommand)
  | .incrBy key delta => some (.incrByWithTxn env key delta fun r => .done (r.map fun _ => .incrBy key delta))
  | .decrBy key delta => some (.decrByWithTxn env key delta fun r => .done (r.map fun _ => .decrBy key delta))
  | _ => none

/-- A function that returns what its one operation returns. -/
theorem TxnScript.resume_done {α : Type} (a : α) (txn : BTxn) (r : Except Err BTxn) :
    resume (fun r => .done (r.map fun _ => a)) txn r = r.map fun txn' => (a, txn') := by
  cases r with
  | ok txn' => rfl
  | error e =>
    by_cases he : e = .panicked
    · subst he
      rfl
    · exact if_neg he

/-- A counter's function does what the operation does in a transaction of the state machine. -/
theorem perform_counterScript (M : Merge) {env : Env} {c : SubCommand} {p : TxnScript SubCommand}
    (h : counterScript env c = some p) (txn : BTxn) :
    p.perform txn = (Fsm.applySub M env txn c).map fun txn' => (c, txn') := by
  cases c with
  | incrBy key delta =>
    obtain rfl := Option.some.inj h
    rw [TxnScript.perform_incrByWithTxn, TxnScript.resume_done]
    rfl
  | decrBy key delta =>
    obtain rfl := Option.some.inj h
    rw [TxnScript.perform_decrByWithTxn, TxnScript.resume_done]
    rfl
  | _ => cases h

/-- A counter's function is an increment or a decrement. -/
theorem countsAt_of_counterScript {env : Env} {c : SubCommand} {p : TxnScript SubCommand}
    (h : counterScript env c = some p) (k : Key) : c.CountsAt k ∧ ∀ pre, c ≠ .deleteByPrefix pre := by
  cases c with
  | incrBy | decrBy => exact ⟨trivial, fun pre => nofun⟩
  | _ => cases h

/-- An increment or decrement that succeeds returns the operation and commits what it has written. -/
theorem Badger.newTransaction_counterScript {b b' : Badger} {env : Env} {c r : SubCommand} {p : TxnScript SubCommand}
    (hp : counterScript env c = some p) (h : b.newTransaction p = (b', .ok r)) :
    r = c ∧ ∃ txn, Fsm.applySub rejectDeltas env (BTxn.newTransactionAt b.db b.ts) c = .ok txn ∧
      b' = ⟨txn.commitAt (b.ts + 1), b.ts + 1⟩ := by
  unfold newTransaction at h
  rw [perform_counterScript rejectDeltas hp] at h
  cases happly : Fsm.applySub rejectDeltas env (BTxn.newTransactionAt b.db b.ts) c with
  | error e =>
    rw [happly] at h
    cases h
  | ok txn =>
    rw [happly] at h
    obtain ⟨key, e, -, -, htxn⟩ := Fsm.applySub_eq_ok_iff.mp happly
    -- The operation has written its key, so the transaction does not just end.
    have hwritten : txn.pendingWrites.isEmpty = false := by
      rw [htxn]
      rfl
    change ((if txn.pendingWrites.isEmpty then b else ⟨txn.commitAt (b.ts + 1), b.ts + 1⟩ : Badger), Except.ok c) =
      (b', .ok r) at h
    rw [hwritten] at h
    obtain ⟨hstore, hresult⟩ := Prod.mk.inj h
    exact ⟨(Except.ok.inj hresult).symm, txn, rfl, hstore.symm⟩

/-- One increment or decrement that succeeds, on a store with nothing above its last commit: the counter is the one
that the operation makes of the one before. -/
theorem Badger.newTransaction_counter {b b' : Badger} {env : Env} {c r : SubCommand} {p : TxnScript SubCommand}
    {k : Key} {v : ℕ} (hb : b.Current) (hp : counterScript env c = some p)
    (h : b.newTransaction p = (b', .ok r)) (hv : CounterEntry v ((Versions.newest b.db k b.ts).map Version.val)) :
    b'.Current ∧ CounterEntry (r.onStored k v) ((Versions.newest b'.db k b'.ts).map Version.val) := by
  obtain ⟨hcounts, hsingle⟩ := countsAt_of_counterScript hp k
  obtain ⟨rfl, txn, happly, rfl⟩ := newTransaction_counterScript hp h
  -- It is the command of a state machine that reads at the last commit and commits above it.
  have hcommand : Fsm.apply rejectDeltas b.db env ⟨b.ts, b.ts + 1, .single r⟩ = .ok (txn.commitAt (b.ts + 1)) := by
    rw [Fsm.apply_eq_newTransactionAt]
    show (Fsm.perform rejectDeltas env (BTxn.newTransactionAt b.db b.ts) (.single r)).map _ = _
    rw [Fsm.perform_single hsingle, happly]
    rfl
  constructor
  · obtain ⟨ws, hws, -⟩ := Fsm.apply_spec hcommand
    intro x hx
    change x ∈ txn.commitAt (b.ts + 1) at hx
    rw [hws] at hx
    rcases Versions.mem_install hx with ⟨hts, -⟩ | hx
    · exact le_of_eq hts
    · exact Nat.le_succ_of_le (hb x hx)
  · refine Fsm.apply_counter (k := k) hcommand ?_ (fun x hx _ => hb x hx) (Nat.le_succ _) le_rfl hv
    intro sub hsub
    obtain rfl := List.mem_singleton.mp hsub
    exact hcounts

/-- Several of them, one after the other. -/
theorem Badger.newTransactions_counter {b b' : Badger} {cs : List (TxnScript SubCommand × SubCommand)} {k : Key}
    {v : ℕ} (hb : b.Current) (hcs : ∀ c ∈ cs, ∃ env sub, counterScript env sub = some c.1)
    (h : b.newTransactions (cs.map Prod.fst) = (b', cs.map fun c => .ok c.2))
    (hv : CounterEntry v ((Versions.newest b.db k b.ts).map Version.val)) :
    CounterEntry (storedAfter k v (cs.map Prod.snd)) ((Versions.newest b'.db k b'.ts).map Version.val) := by
  induction cs generalizing b v with
  | nil =>
    cases h
    exact hv
  | cons c cs ih =>
    obtain ⟨hstore, hresults⟩ := Prod.mk.inj h
    obtain ⟨hresult, hrest⟩ := List.cons.inj hresults
    obtain ⟨env, sub, hsub⟩ := hcs c List.mem_cons_self
    obtain ⟨hbounded, hcounter⟩ := newTransaction_counter hb hsub (Prod.ext rfl hresult) hv
    exact ih hbounded (fun c' hc' => hcs c' (List.mem_cons_of_mem _ hc')) (Prod.ext hstore hrest) hcounter

namespace SingleNode

variable {ι : Type} [DecidableEq ι] {O : DbOptions} {memHash : Key → UInt64} {b : Badger} {s : SingleNode ι SubCommand}
  {acts : List (OccAction ι Key Entry Err SubCommand)}

/-- The committed calls are calls that have been made. -/
theorem counterScript_of_history (h : run (step O memHash) (Occ.init b.mvcc) acts = some s)
    (hcalls : ∀ i p, .start i p ∈ acts → ∃ env c, counterScript env c = some p) :
    ∀ c ∈ s.history, ∃ env sub, counterScript env sub = some c.1 := by
  intro c hc
  obtain ⟨f, hf, hcommit⟩ := List.mem_filterMap.mp hc
  have hbody : f.body = c.1 := by
    unfold Finished.commit? at hcommit
    split at hcommit
    · exact congrArg Prod.fst (Option.some.inj hcommit)
    · cases hcommit
  rw [← hbody]
  exact Occ.forall_finished_of_run hcalls h f hf

/-- For all interleavings of `IncrBy` and `DecrBy` on a single node that checks them for conflicts: a call that returns
no error has committed, and the counter under each key is what the committed calls, in the order of their commits, make
of it. -/
theorem counters_exact {k : Key} {v : ℕ} (hdetect : O.detectConflicts = true) (hb : b.Current)
    (h : run (step O memHash) (Occ.init b.mvcc) acts = some s)
    (hcalls : ∀ i p, .start i p ∈ acts → ∃ env c, counterScript env c = some p)
    (hv : CounterEntry v ((Versions.newest b.db k b.ts).map Version.val)) :
    (∀ f ∈ s.finished, ∀ c, f.outcome ≠ .readOnly c) ∧
      ∀ now, s.badger.db.counter now k s.badger.ts = some (storedAfter k v (s.history.map Prod.snd)) := by
  have hhistory := counterScript_of_history h hcalls
  constructor
  · -- A call that has written nothing would have left a store on which it commits.
    intro f hf c hc
    obtain ⟨env, sub, hsub⟩ := Occ.forall_finished_of_run hcalls h f hf
    have hunwritten : .ok c ∈ f.outcome.unwritten := by
      rw [hc]
      rfl
    obtain ⟨before, -, -, hplace⟩ := newTransactions_placed hdetect hb h hf hunwritten
    obtain ⟨-, txn, -, hstore⟩ := Badger.newTransaction_counterScript hsub hplace
    have hts : (b.newTransactions before).1.ts = (b.newTransactions before).1.ts + 1 := congrArg Badger.ts hstore
    exact Nat.succ_ne_self _ hts.symm
  · intro now
    exact counter_eq (Badger.newTransactions_counter hb hhistory (newTransactions_history hdetect hb h) hv) now

/-- An increment of the counter under `k`. -/
def incrK : TxnScript SubCommand :=
  .incrByWithTxn ⟨0, none⟩ [107] 5 fun r => .done (r.map fun _ => .incrBy [107] 5)

/-- A decrement of it. -/
def decrK : TxnScript SubCommand :=
  .decrByWithTxn ⟨0, none⟩ [107] 2 fun r => .done (r.map fun _ => .decrBy [107] 2)

/-- Both read the counter before the first of them commits. The second one has a conflict, and tries again. -/
def twoCounts : List (OccAction Two Key Entry Err SubCommand) :=
  [.start .first incrK, .start .second decrK, .advance .first, .advance .second, .advance .first, .advance .second,
    .finish .first, .finish .second, .start .second decrK, .advance .second, .advance .second, .finish .second]

/-- The counter is what both make of it. -/
theorem counters_exact_twoCounts :
    ∃ s : SingleNode Two SubCommand,
      run (step .byDefault fun key => key.length.toUInt64) (Occ.init (⟨[], 0⟩ : Badger).mvcc) twoCounts = some s ∧
      s.finished.length = 3 ∧ s.history.map Prod.snd = [.incrBy [107] 5, .decrBy [107] 2] ∧
      s.badger.db.counter 0 [107] s.badger.ts = some (storedAfter [107] 0 (s.history.map Prod.snd)) := by
  have hrun :
      run (step .byDefault fun key => key.length.toUInt64) (Occ.init (⟨[], 0⟩ : Badger).mvcc) twoCounts = some _ :=
    run_final (by decide)
  refine ⟨_, hrun, by decide, by decide, (counters_exact rfl (by decide) hrun ?_ rfl).2 0⟩
  intro i p hp
  simp only [twoCounts, List.mem_cons, OccAction.start.injEq, reduceCtorEq, List.not_mem_nil, or_false, false_or] at hp
  rcases hp with ⟨-, rfl⟩ | ⟨-, rfl⟩ | ⟨-, rfl⟩
  · exact ⟨⟨0, none⟩, .incrBy [107] 5, rfl⟩
  · exact ⟨⟨0, none⟩, .decrBy [107] 2, rfl⟩
  · exact ⟨⟨0, none⟩, .decrBy [107] 2, rfl⟩

end SingleNode

end Omashu
