import Omashu.Leader.Txn
import Omashu.Store.Json

/-!
# Reads of a transaction after its own writes

The body of a transaction is a sequence of calls. `Badger.NewTransaction` gives it a `badger.Txn`, whose
reads see the pending writes. `DistributedBadger.NewTransaction` gives it a `Txn`, which keeps the writes as
sub-commands, and `GetWithTxn` reads the store at the read timestamp without them.

`badgerGets` and `distributedGets` are the results of the calls of `GetWithTxn` in a body that runs alone and
returns at the first error. `distributed_gets_iff` says for which bodies and stores those of the distributed
store are those of Badger: where the writes before a read leave its key with the value that it has in the
store.
-/

namespace Omashu

open Lib

variable {G : Type}

/-- A writing call of a transaction. -/
inductive TxnWrite (G : Type)
  /-- `SetWithTxn`. -/
  | set (key : Key) (value : Bytes) (ttl : Option ℤ)
  /-- `DeleteWithTxn`. -/
  | delete (key : Key)
  /-- `IncrByWithTxn`. -/
  | incrBy (key : Key) (delta : UInt64)
  /-- `DecrByWithTxn`. -/
  | decrBy (key : Key) (delta : UInt64)
  /-- `UpdateJsonWithTxn`. -/
  | updateJson (key : Key) (delta : G) (ttl : Option ℤ)

/-- A call of a transaction. -/
inductive TxnCall (G : Type)
  /-- `GetWithTxn`. -/
  | get (key : Key)
  | write (w : TxnWrite G)

namespace TxnWrite

/-- The key that the call writes. -/
def key : TxnWrite G → Key
  | .set key .. | .delete key | .incrBy key _ | .decrBy key _ | .updateJson key .. => key

/-- The call on a single-node store. -/
def onBadger (C : JsonCodec G) (env : Env) (txn : BTxn) : TxnWrite G → Except Err BTxn
  | .set key value ttl => txn.setWithTxn env key value ttl
  | .delete key => txn.deleteWithTxn key
  | .incrBy key delta => txn.incrByWithTxn env key delta
  | .decrBy key delta => txn.decrByWithTxn env key delta
  | .updateJson key delta ttl => do
    let stored ← txn.getWithTxn env key
    let merged ← C.merge stored delta
    txn.setWithTxn env key merged ttl

/-- The call on the distributed store. -/
def op (C : JsonCodec G) : TxnWrite G → WriteOp
  | .set key value ttl => .set key value ttl
  | .delete key => .delete key
  | .incrBy key delta => .incrBy key delta
  | .decrBy key delta => .decrBy key delta
  | .updateJson key delta ttl => .updateJson key (C.marshal delta) ttl

/-- What the call means for the store, given the values before it. -/
def written (C : JsonCodec G) (env : Env) (values : Key → Option Bytes) :
    TxnWrite G → Option (Key × Entry)
  | .set key value ttl => some (key, .value value (expiry env ttl))
  | .delete key => some (key, .tombstone)
  | .incrBy key delta => SubCommand.counterWrite key delta.toNat (· + delta.toNat) (values key)
  | .decrBy key delta =>
    SubCommand.counterWrite key 0 (fun v => if v < delta.toNat then 0 else v - delta.toNat) (values key)
  | .updateJson key delta ttl =>
    match C.merge (values key) delta with
    | .ok merged => some (key, .value merged (expiry env ttl))
    | .error _ => none

end TxnWrite

/-- The results of `GetWithTxn` in a body on a single-node store, up to the first error. -/
def badgerGets (C : JsonCodec G) (env : Env) :
    BTxn → List (TxnCall G) → List (Except Err (Option Bytes))
  | _, [] => []
  | txn, .get key :: calls =>
    match txn.getWithTxn env key with
    | .error e => [.error e]
    | .ok v => .ok v :: badgerGets C env txn calls
  | txn, .write w :: calls =>
    match w.onBadger C env txn with
    | .error _ => []
    | .ok txn => badgerGets C env txn calls

/-- The value in the answer to a point read. -/
def Answer.found : Answer → Option Bytes
  | .value v => v
  | _ => none

/-- The results of `GetWithTxn` in a body on the distributed store, up to the first error. -/
def distributedGets (C : JsonCodec G) (db : Store) (env : Env) :
    Txn → List (TxnCall G) → List (Except Err (Option Bytes))
  | _, [] => []
  | txn, .get key :: calls =>
    match txn.read db env (.get key) with
    | (_, .error e) => [.error e]
    | (txn, .ok a) => .ok a.found :: distributedGets C db env txn calls
  | txn, .write w :: calls =>
    match txn.write db env (w.op C) with
    | (_, .error _) => []
    | (txn, .ok ()) => distributedGets C db env txn calls

/-- Each read that the body comes to is of a key whose value, after the calls before it, is the one that it
had at first. -/
def ReadsUnchanged (C : JsonCodec G) (env : Env) (initial : Key → Option Bytes) :
    (Key → Option Bytes) → List (TxnCall G) → Prop
  | _, [] => True
  | values, .get key :: calls =>
    -- A read of the empty key is an error on both stores.
    key ≠ [] → values key = initial key ∧ ReadsUnchanged C env initial values calls
  | values, .write w :: calls =>
    ∀ key e, w.written C env values = some (key, e) → AcceptsKey key →
      ReadsUnchanged C env initial (Function.update values key (e.live env.now)) calls

variable {C : JsonCodec G} {env : Env} {db : Store}

namespace TxnWrite

/-- On a single-node store a call succeeds exactly where it writes something under a key that Badger accepts,
and that is what it does. -/
theorem onBadger_eq_ok_iff {txn txn' : BTxn} {w : TxnWrite G} :
    w.onBadger C env txn = .ok txn' ↔
      ∃ key e, w.written C env (txn.lookup env.now) = some (key, e) ∧ AcceptsKey key ∧
        txn' = txn.withWrite key e := by
  cases w with
  | set key value ttl => simp [onBadger, written, BTxn.setWithTxn_eq_ok_iff]
  | delete key => simp [onBadger, written, BTxn.deleteWithTxn, BTxn.modify_eq_ok_iff]
  | incrBy | decrBy =>
    exact Fsm.counter_eq_ok_iff rfl (fun b hb => by simp [hb]) fun b v hb => by simp [hb]
  | updateJson key delta ttl =>
    show ((txn.getWithTxn env key).bind fun stored => (C.merge stored delta).bind fun merged =>
      txn.setWithTxn env key merged ttl) = .ok txn' ↔ _
    rw [BTxn.getWithTxn_bind_eq_ok_iff]
    simp only [written]
    cases C.merge (txn.lookup env.now key) delta with
    | error e => simp [Except.bind]
    | ok merged =>
      show key ≠ [] ∧ txn.setWithTxn env key merged ttl = .ok txn' ↔ _
      rw [BTxn.ne_nil_and_setWithTxn_iff]
      simp

/-- What a call writes is under its own key. -/
theorem written_key {values : Key → Option Bytes} {w : TxnWrite G} {key : Key} {e : Entry}
    (h : w.written C env values = some (key, e)) : key = w.key := by
  cases w with
  | set | delete => exact (congrArg Prod.fst (Option.some.inj h)).symm
  | incrBy | decrBy => exact (SubCommand.key_of_counterWrite h).symm
  | updateJson key' delta ttl =>
    simp only [written] at h
    split at h
    · exact (congrArg Prod.fst (Option.some.inj h)).symm
    · cases h

/-- A call that succeeds on a single-node store is buffered by the distributed one. -/
theorem write_op (db : Store) {values : Key → Option Bytes} {w : TxnWrite G} {key : Key} {e : Entry}
    {txn : Txn} (hw : w.written C env values = some (key, e)) (hkey : AcceptsKey key)
    (hupdate : txn.update = true) (hopen : txn.discarded = false) :
    ∃ txn', txn.write db env (w.op C) = (txn', .ok ()) ∧ txn'.readTs = txn.readTs ∧
      txn'.update = true ∧ txn'.discarded = false := by
  have hne : w.key ≠ [] := written_key hw ▸ hkey.1
  -- The key passes `validate`, and there is a sub-command to buffer.
  have buffered : ∀ sub : SubCommand, ∃ txn', txn.buffer w.key (.ok sub) = (txn', .ok ()) ∧
      txn'.readTs = txn.readTs ∧ txn'.update = true ∧ txn'.discarded = false := by
    intro sub
    unfold Txn.buffer Txn.validate
    simp [hupdate, hopen, hne, Txn.addSubCommand]
  cases w with
  | updateJson key' delta ttl =>
    simp only [written] at hw
    split at hw
    · next merged hmerge =>
      obtain ⟨d, hd⟩ := JsonCodec.exists_marshal_of_merge hmerge
      simp only [op, Txn.write, hd]
      exact buffered _
    · cases hw
  | _ => exact buffered _

end TxnWrite

/-- A point read of the distributed store is a read of the store at the read timestamp. -/
theorem read_get (db : Store) (env : Env) (txn : Txn) (key : Key) (hkey : key ≠ []) :
    ∃ txn', txn.read db env (.get key) =
        (txn', .ok (.value ((BTxn.newTransactionAt db txn.readTs).lookup env.now key))) ∧
      txn'.readTs = txn.readTs ∧ txn'.update = txn.update ∧ txn'.discarded = txn.discarded := by
  have heval : (Query.get key).eval db env txn.readTs =
      .ok (.value ((BTxn.newTransactionAt db txn.readTs).lookup env.now key)) := by
    simp [Query.eval, Store.getAt, BTxn.getWithTxn, hkey, Except.map]
  unfold Txn.read
  rw [heval]
  exact ⟨_, rfl, rfl, rfl, rfl⟩

/-- The reads of a body from any of its calls on: those of the distributed store are those of Badger exactly
where each is of a key that has the value of the store. -/
theorem gets_iff {calls : List (TxnCall G)} {btxn : BTxn} {txn : Txn} (hupdate : txn.update = true)
    (hopen : txn.discarded = false) :
    badgerGets C env btxn calls <+: distributedGets C db env txn calls ↔
      ReadsUnchanged C env ((BTxn.newTransactionAt db txn.readTs).lookup env.now)
        (btxn.lookup env.now) calls := by
  induction calls generalizing btxn txn with
  | nil => simp [badgerGets, ReadsUnchanged]
  | cons call calls ih =>
    cases call with
    | get key =>
      by_cases hkey : key = []
      · -- Both reads fail.
        simp [badgerGets, distributedGets, ReadsUnchanged, hkey, BTxn.getWithTxn, Txn.read, Query.eval,
          Store.getAt, Except.map]
      · obtain ⟨txn', hread, hts, hupd, hdis⟩ := read_get db env txn key hkey
        have hget : btxn.getWithTxn env key = .ok (btxn.lookup env.now key) := if_neg hkey
        simp only [badgerGets, distributedGets, ReadsUnchanged, hread, hget, Answer.found,
          List.cons_prefix_cons, Except.ok.injEq]
        rw [ih (hupd.trans hupdate) (hdis.trans hopen), hts]
        simp [hkey]
    | write w =>
      simp only [badgerGets, distributedGets, ReadsUnchanged]
      cases hw : w.onBadger C env btxn with
      | error e =>
        -- The body on Badger has returned, and there is nothing left to compare.
        refine iff_of_true List.nil_prefix fun key entry hwritten hkey => ?_
        have hok := TxnWrite.onBadger_eq_ok_iff.mpr ⟨key, entry, hwritten, hkey, rfl⟩
        rw [hw] at hok
        cases hok
      | ok btxn' =>
        obtain ⟨key, entry, hwritten, hkey, rfl⟩ := TxnWrite.onBadger_eq_ok_iff.mp hw
        obtain ⟨txn', hwrite, hts, hupd, hdis⟩ :=
          TxnWrite.write_op db hwritten hkey hupdate hopen
        simp only [hwrite]
        rw [ih hupd hdis, hts, BTxn.lookup_withWrite]
        constructor
        · intro h key' entry' hwritten' _
          obtain ⟨rfl, rfl⟩ := Prod.mk.inj (Option.some.inj (hwritten.symm.trans hwritten'))
          exact h
        · intro h
          exact h key entry hwritten hkey

/-- In a body that runs alone, on any store, each `GetWithTxn` of the distributed store returns what the one of
Badger returns, as far as the body on Badger comes, exactly if each of them is of a key that the calls before
it leave with the value that it has in the store. -/
theorem distributed_gets_iff (C : JsonCodec G) (db : Store) (env : Env) (readTs : ℕ)
    (calls : List (TxnCall G)) :
    badgerGets C env (BTxn.newTransactionAt db readTs) calls <+:
        distributedGets C db env (Txn.beginTxn readTs true) calls ↔
      ReadsUnchanged C env ((BTxn.newTransactionAt db readTs).lookup env.now)
        ((BTxn.newTransactionAt db readTs).lookup env.now) calls :=
  gets_iff rfl rfl

/-- A codec that rejects everything, for bodies without JSON. -/
def noJson : JsonCodec Unit where
  marshal _ := .error .malformed
  unmarshal _ := .error .malformed
  empty := ()
  copy _ _ := .error .malformed
  marshal_copy := by simp

/-- A body that sets a key and reads it: Badger returns the new value, and the distributed store the one that
was stored before. -/
theorem distributed_gets_stale :
    badgerGets noJson someEnv (BTxn.newTransactionAt [⟨[107], 1, .value [1] 0⟩] 1)
        [.write (.set [107] [2] none), .get [107]] = [.ok (some [2])] ∧
      distributedGets noJson [⟨[107], 1, .value [1] 0⟩] someEnv (Txn.beginTxn 1 true)
        [.write (.set [107] [2] none), .get [107]] = [.ok (some [1])] := by
  decide +kernel

end Omashu
