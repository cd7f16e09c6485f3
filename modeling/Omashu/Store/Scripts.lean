import Omashu.Lib.Optimistic
import Omashu.Store.Fsm

/-!
# Functions in a transaction

A transaction of Badger is given a function, which looks keys up, sets and deletes them, and goes on by what it has
found. Such a function is a script here: its lookups and writes one after the other (`TxnScript`). The operations of
`badger.go` are written as scripts that go on with a continuation, and `perform_incrByWithTxn` and the others say that
they do in a transaction what the operations of `BTxn` do.

A script has the keys that it looks up in the store (`Script.reads`), which Badger remembers for its conflict check.
The functions that the state machine runs for a command are `Fsm.script`.
-/

namespace Omashu

open Lib

/-- What a transaction sees of the store that it was opened on. -/
abbrev BTxn.view (txn : BTxn) : Key → Option Entry := Mvcc.view ⟨txn.db, txn.readTs⟩ txn.readTs

/-- A function that is run in a transaction, with what it leaves to its caller. -/
abbrev TxnScript (α : Type) := Script Key Entry Err α

namespace TxnScript

variable {α : Type}

/-- `Badger.GetWithTxn`, and what the function does with the result. -/
def getWithTxn (env : Env) (key : Key) (next : Except Err (Option Bytes) → TxnScript α) : TxnScript α :=
  -- Badger rejects the empty key before it looks it up.
  if key = [] then next (.error .emptyKey) else .read key fun e => next (.ok (e.bind (·.live env.now)))

/-- `txn.modify`, and what the function does then. -/
def modify (key : Key) (e : Entry) (next : Except Err Unit → TxnScript α) : TxnScript α :=
  match BTxn.checkKey key with
  | .error err => next (.error err)
  | .ok () => .write key e (next (.ok ()))

/-- `Badger.SetWithTxn`. -/
def setWithTxn (env : Env) (key : Key) (value : Bytes) (ttl : Option ℤ) (next : Except Err Unit → TxnScript α) :
    TxnScript α :=
  match ttl with
  | none => modify key (.value value 0) next
  | some d => modify key (.value value (unixSecond (env.now + d))) next

/-- `Badger.DeleteWithTxn`. -/
def deleteWithTxn (key : Key) (next : Except Err Unit → TxnScript α) : TxnScript α := modify key .tombstone next

/-- A value that is looked up, computed anew and set. -/
def rewriteWithTxn (env : Env) (key : Key) (ttl : Option ℤ) (f : Option Bytes → Except Err Bytes)
    (next : Except Err Unit → TxnScript α) : TxnScript α :=
  getWithTxn env key fun
    | .error e => next (.error e)
    | .ok stored =>
      match f stored with
      -- A panic leaves the function, and the deferred `Discard` drops the transaction.
      | .error .panicked => .done (.error .panicked)
      | .error e => next (.error e)
      | .ok value => setWithTxn env key value ttl next

/-- A counter that is computed anew from the stored one. -/
def counterValue (absent : ℕ) (f : ℕ → ℕ) : Option Bytes → Except Err Bytes
  | some b =>
    match bytesToUint64 b with
    | none => .error .panicked
    | some currentVal => .ok (uint64ToBytes (f currentVal))
  | none => .ok (uint64ToBytes absent)

/-- `Badger.IncrByWithTxn`. -/
def incrByWithTxn (env : Env) (key : Key) (delta : UInt64) (next : Except Err Unit → TxnScript α) : TxnScript α :=
  rewriteWithTxn env key none (counterValue delta.toNat fun currentVal => currentVal + delta.toNat) next

/-- `Badger.DecrByWithTxn`. -/
def decrByWithTxn (env : Env) (key : Key) (delta : UInt64) (next : Except Err Unit → TxnScript α) : TxnScript α :=
  rewriteWithTxn env key none
    (counterValue 0 fun currentVal => if currentVal < delta.toNat then 0 else currentVal - delta.toNat) next

/-- Runs the function in a transaction. -/
def perform : TxnScript α → BTxn → Except Err (α × BTxn)
  | .done r, txn => r.map fun a => (a, txn)
  | .read key next, txn => perform (next (txn.entry key)) txn
  | .write key e next, txn => perform next { txn with pendingWrites := (key, e) :: txn.pendingWrites }

/-! ## The operations of a function -/

section Perform

variable {env : Env} {txn : BTxn} {next : Except Err Unit → TxnScript α}

/-- A function that goes on after an operation: with the transaction that it leaves, or with its error. -/
def resume (next : Except Err Unit → TxnScript α) (txn : BTxn) : Except Err BTxn → Except Err (α × BTxn)
  | .ok txn' => (next (.ok ())).perform txn'
  | .error e => if e = .panicked then .error .panicked else (next (.error e)).perform txn

/-- The checks of a key do not panic. -/
theorem ne_panicked_of_checkKey {key : Key} {e : Err} (h : BTxn.checkKey key = .error e) : e ≠ .panicked := by
  rintro rfl
  unfold BTxn.checkKey at h
  split_ifs at h <;> cases h

/-- `txn.modify` as a step of a function. -/
theorem perform_modify (key : Key) (e : Entry) :
    (modify key e next).perform txn = resume next txn (txn.modify key e) := by
  unfold modify BTxn.modify
  cases hcheck : BTxn.checkKey key with
  | ok u => rfl
  | error err => exact (if_neg (ne_panicked_of_checkKey hcheck)).symm

/-- `SetWithTxn` as a step of a function. -/
theorem perform_setWithTxn (key : Key) (value : Bytes) (ttl : Option ℤ) :
    (setWithTxn env key value ttl next).perform txn = resume next txn (txn.setWithTxn env key value ttl) := by
  cases ttl with
  | none | some => exact perform_modify key _

/-- `DeleteWithTxn` as a step of a function. -/
theorem perform_deleteWithTxn (key : Key) :
    (deleteWithTxn key next).perform txn = resume next txn (txn.deleteWithTxn key) :=
  perform_modify key _

/-- `GetWithTxn` as a step of a function. -/
theorem perform_getWithTxn (key : Key) (next : Except Err (Option Bytes) → TxnScript α) :
    (getWithTxn env key next).perform txn = (next (txn.getWithTxn env key)).perform txn := by
  unfold getWithTxn BTxn.getWithTxn
  split_ifs with hkey
  · rfl
  · rfl

/-- A value that is looked up, computed anew and set, in a transaction. -/
def rewriteIn (txn : BTxn) (env : Env) (key : Key) (ttl : Option ℤ) (f : Option Bytes → Except Err Bytes) :
    Except Err BTxn :=
  (txn.getWithTxn env key).bind fun stored => (f stored).bind fun value => txn.setWithTxn env key value ttl

/-- A value that is looked up, computed anew and set, as a step of a function. -/
theorem perform_rewriteWithTxn (key : Key) (ttl : Option ℤ) (f : Option Bytes → Except Err Bytes) :
    (rewriteWithTxn env key ttl f next).perform txn =
      resume next txn (rewriteIn txn env key ttl f) := by
  unfold rewriteWithTxn rewriteIn
  rw [perform_getWithTxn]
  cases hget : txn.getWithTxn env key with
  | error e =>
    have hempty : e = .emptyKey := by
      unfold BTxn.getWithTxn at hget
      split_ifs at hget
      exact (Except.error.inj hget).symm
    subst hempty
    rfl
  | ok stored =>
    show (match f stored with
      | .error .panicked => .done (.error .panicked)
      | .error e => next (.error e)
      | .ok value => setWithTxn env key value ttl next : TxnScript α).perform txn =
      resume next txn ((f stored).bind fun value => txn.setWithTxn env key value ttl)
    cases hf : f stored with
    | ok value => exact perform_setWithTxn key value ttl
    | error e =>
      cases e with
      | panicked => rfl
      | _ => rfl

/-- `IncrByWithTxn` computes the counter anew. -/
theorem incrByWithTxn_eq (key : Key) (delta : UInt64) :
    txn.incrByWithTxn env key delta =
      rewriteIn txn env key none (counterValue delta.toNat fun currentVal => currentVal + delta.toNat) := by
  refine congrArg (Except.bind (txn.getWithTxn env key)) (funext fun stored => ?_)
  cases stored with
  | none => rfl
  | some b =>
    dsimp only [counterValue]
    cases bytesToUint64 b with
    | none => rfl
    | some v => rfl

/-- `DecrByWithTxn` computes the counter anew. -/
theorem decrByWithTxn_eq (key : Key) (delta : UInt64) :
    txn.decrByWithTxn env key delta = rewriteIn txn env key none
      (counterValue 0 fun currentVal => if currentVal < delta.toNat then 0 else currentVal - delta.toNat) := by
  refine congrArg (Except.bind (txn.getWithTxn env key)) (funext fun stored => ?_)
  cases stored with
  | none => rfl
  | some b =>
    dsimp only [counterValue]
    cases bytesToUint64 b with
    | none => rfl
    | some v => rfl

/-- `IncrByWithTxn` as a step of a function. -/
theorem perform_incrByWithTxn (key : Key) (delta : UInt64) :
    (incrByWithTxn env key delta next).perform txn = resume next txn (txn.incrByWithTxn env key delta) := by
  rw [incrByWithTxn_eq]
  exact perform_rewriteWithTxn key none _

/-- `DecrByWithTxn` as a step of a function. -/
theorem perform_decrByWithTxn (key : Key) (delta : UInt64) :
    (decrByWithTxn env key delta next).perform txn = resume next txn (txn.decrByWithTxn env key delta) := by
  rw [decrByWithTxn_eq]
  exact perform_rewriteWithTxn key none _

/-- A transaction sees its own writes, and the store under them. -/
theorem entry_eq_seen (txn : BTxn) (key : Key) : txn.entry key = seen txn.view txn.pendingWrites key := by
  unfold BTxn.entry seen
  cases Versions.latest txn.pendingWrites key with
  | none | some => rfl

/-- A function in a transaction is its run on what the transaction sees. -/
theorem perform_eq_exec (p : TxnScript α) (txn : BTxn) :
    p.perform txn = (p.exec txn.view txn.pendingWrites).map
      fun x => (x.1, { txn with pendingWrites := x.2 }) := by
  induction p generalizing txn with
  | done r =>
    cases r with
    | error e => rfl
    | ok a => rfl
  | read key next ih =>
    show perform (next (txn.entry key)) txn = _
    rw [entry_eq_seen]
    exact ih _ txn
  | write key e next ih => exact ih { txn with pendingWrites := (key, e) :: txn.pendingWrites }

end Perform

end TxnScript

/-! ## The functions of the state machine -/

namespace TxnScript

variable {α : Type} {env : Env} {txn : BTxn} {rest : TxnScript α}

/-- A function that returns the error of its operation, and goes on if there is none. -/
def andThen (rest : TxnScript α) : Except Err Unit → TxnScript α
  | .ok () => rest
  | .error e => .done (.error e)

/-- The loop of `Badger.DeleteByPrefixWithTxn`. The iterator hands out a key, which Badger remembers as read, and the
key is deleted. -/
def deleteKeys (rest : TxnScript α) : List Key → TxnScript α
  | [] => rest
  | key :: keys => .read key fun _ => deleteWithTxn key (andThen (deleteKeys rest keys))

/-- After an operation such a function goes on with the transaction that the operation leaves. -/
theorem resume_andThen (r : Except Err BTxn) : resume (andThen rest) txn r = r.bind rest.perform := by
  cases r with
  | ok txn' => rfl
  | error e =>
    show (if e = .panicked then .error .panicked else .error e) = Except.error e
    split_ifs with he
    · rw [he]
    · rfl

/-- The loop of a prefix deletion as a step of a function. -/
theorem perform_deleteKeys (keys : List Key) :
    (deleteKeys rest keys).perform txn = (txn.deleteKeys keys).bind rest.perform := by
  induction keys generalizing txn with
  | nil => rfl
  | cons key keys ih =>
    show (deleteWithTxn key (andThen (deleteKeys rest keys))).perform txn = _
    rw [perform_deleteWithTxn, resume_andThen, BTxn.deleteKeys]
    cases txn.deleteWithTxn key with
    | ok txn' => exact ih
    | error e => rfl

end TxnScript

namespace Fsm

variable (M : Merge) (env : Env) {txn : BTxn}

/-- A delta that is decoded, merged into what is stored and set, with a codec. -/
def mergeScript {α : Type} (rest : TxnScript α) (decoded : Except Err Unit) (key : Key) (ttl : Option ℤ)
    (merge : Option Bytes → Except Err Bytes) : TxnScript α :=
  match decoded with
  | .error e => .done (.error e)
  | .ok () => .rewriteWithTxn env key ttl merge (.andThen rest)

/-- One turn of the loop of `applyTransaction`, and what follows. -/
def subScript {α : Type} (rest : TxnScript α) : SubCommand → TxnScript α
  | .set key value ttl => .setWithTxn env key value ttl (.andThen rest)
  | .update key delta .protobuf messageName ttl =>
    mergeScript env rest (M.unmarshalUpdateDelta .protobuf messageName delta) key ttl
      fun stored => M.protobuf messageName stored delta
  | .update key delta .json messageName ttl =>
    mergeScript env rest (M.unmarshalUpdateDelta .json messageName delta) key ttl fun stored => M.json stored delta
  | .update _ _ .unknownDelta _ _ => .done (.error .unknownOp)
  | .delete key => .deleteWithTxn key (.andThen rest)
  | .incrBy key delta => .incrByWithTxn env key delta (.andThen rest)
  | .decrBy key delta => .decrByWithTxn env key delta (.andThen rest)
  | .deleteByPrefix _ => .done (.error .unknownOp)
  | .unknown => .done (.error .unknownOp)

/-- The loop of `applyTransaction`. -/
def subsScript : List SubCommand → TxnScript Unit
  | [] => .done (.ok ())
  | c :: cs => subScript M env (subsScript cs) c

/-- The function that `FSM.Apply` runs for a command, in the transaction that it opens. -/
def script (txn : BTxn) : Body → TxnScript Unit
  | .single (.deleteByPrefix pre) => .deleteKeys (.done (.ok ())) (txn.keysVisited env pre)
  | .single c => subScript M env (.done (.ok ())) c
  | .transaction cs => subsScript M env cs

variable {M env}

/-- A merge as a step of a function. -/
theorem perform_mergeScript {α : Type} {rest : TxnScript α} (decoded : Except Err Unit) (key : Key) (ttl : Option ℤ)
    (merge : Option Bytes → Except Err Bytes) :
    (mergeScript env rest decoded key ttl merge).perform txn =
      (decoded.bind fun _ => TxnScript.rewriteIn txn env key ttl merge).bind rest.perform := by
  cases decoded with
  | error e => rfl
  | ok _ =>
    show (TxnScript.rewriteWithTxn env key ttl merge (.andThen rest)).perform txn = _
    rw [TxnScript.perform_rewriteWithTxn, TxnScript.resume_andThen]
    rfl

/-- One turn of the loop of `applyTransaction` as a step of a function. -/
theorem perform_subScript {α : Type} {rest : TxnScript α} (sub : SubCommand) :
    (subScript M env rest sub).perform txn = (applySub M env txn sub).bind rest.perform := by
  cases sub with
  | set key value ttl => exact (TxnScript.perform_setWithTxn key value ttl).trans (TxnScript.resume_andThen _)
  | update key delta deltaType messageName ttl =>
    cases deltaType with
    | protobuf => exact perform_mergeScript _ key ttl _
    | json => exact perform_mergeScript _ key ttl _
    | unknownDelta => rfl
  | delete key => exact (TxnScript.perform_deleteWithTxn key).trans (TxnScript.resume_andThen _)
  | incrBy key delta => exact (TxnScript.perform_incrByWithTxn key delta).trans (TxnScript.resume_andThen _)
  | decrBy key delta => exact (TxnScript.perform_decrByWithTxn key delta).trans (TxnScript.resume_andThen _)
  | deleteByPrefix | unknown => rfl

/-- The loop of `applyTransaction` as a function. -/
theorem perform_subsScript (subs : List SubCommand) :
    (subsScript M env subs).perform txn = (applySubs M env txn subs).map fun txn' => ((), txn') := by
  induction subs generalizing txn with
  | nil => rfl
  | cons sub subs ih =>
    show (subScript M env (subsScript M env subs) sub).perform txn = _
    rw [perform_subScript, applySubs]
    cases applySub M env txn sub with
    | ok txn' => exact ih
    | error e => rfl

/-- But for a prefix deletion, the function of an operation is that of a transaction. -/
theorem script_single {sub : SubCommand} (h : ∀ pre, sub ≠ .deleteByPrefix pre) :
    script M env txn (.single sub) = subScript M env (.done (.ok ())) sub := by
  cases sub with
  | deleteByPrefix pre => exact absurd rfl (h pre)
  | _ => rfl

/-- The function of a command does what the operations of the command do. -/
theorem perform_script (txn : BTxn) (b : Body) :
    (script M env txn b).perform txn = (perform M env txn b).map fun txn' => ((), txn') := by
  have hend : ∀ r : Except Err BTxn, r.bind (TxnScript.perform (.done (.ok ()))) = r.map fun txn' => ((), txn') := by
    intro r
    cases r with
    | ok | error => rfl
  cases b with
  | transaction subs => exact perform_subsScript subs
  | single sub =>
    cases sub with
    | deleteByPrefix pre => exact (TxnScript.perform_deleteKeys _).trans (hend _)
    | _ => rw [script_single (by simp), perform_subScript, hend, perform_single (by simp)]

end Fsm

end Omashu
