import Omashu.Leader.Txn

/-!
# Writes that fail

`validate` both checks and records: it refuses a transaction that is read-only or discarded and an empty
key, and otherwise adds the key to the conflict set and to the writes. Each write method calls it at a point
of its own. Where it is the only check, a method that fails leaves the transaction as it was. `UpdateJson`
and `UpdateProtobuf` call it before they encode the delta and look up the message, so a failure there leaves
the key behind. `DeleteByPrefix` calls it once for each key it finds, so with no such key it is not called
at all.

`write_noTrace_iff` says which calls leave no trace when they fail, and fail where the transaction cannot be
written.
-/

namespace Omashu

open Lib

namespace Txn

variable {txn : Txn} {key : Key}

/-- The transaction may write and has not been discarded. -/
def Usable (txn : Txn) : Prop := txn.update = true ∧ txn.discarded = false

instance (txn : Txn) : Decidable txn.Usable := inferInstanceAs (Decidable (_ ∧ _))

/-- What a commit makes use of is the same in both transactions. -/
def SameWrites (txn txn' : Txn) : Prop :=
  txn'.conflictKeys = txn.conflictKeys ∧ txn'.writes = txn.writes ∧ txn'.subCommands = txn.subCommands

/-- A write method returns an error on a transaction that cannot be written, and whenever it returns an
error it has left no trace. -/
def NoTrace (txn : Txn) (r : Txn × Except Err Unit) : Prop :=
  (¬txn.Usable → ∃ e, r.2 = .error e) ∧ ((∃ e, r.2 = .error e) → txn.SameWrites r.1)

/-- `validate` succeeds where the transaction can be written and the key is not empty. -/
theorem exists_validate_iff : (∃ txn', txn.validate key = .ok txn') ↔ txn.Usable ∧ key ≠ [] := by
  unfold validate Usable
  split_ifs with hupdate hdiscarded hempty
  · simp [hupdate]
  · simp [hdiscarded]
  · simp [hempty]
  · simp [hupdate, hdiscarded, hempty]

/-- Recording a key is a trace. -/
theorem not_sameWrites_of_validate {txn' : Txn} (h : txn.validate key = .ok txn') : ¬txn.SameWrites txn' := by
  rintro ⟨-, hwrites, -⟩
  rw [validate_eq_ok h] at hwrites
  exact absurd hwrites (by simp)

/-- A method that validates its key first and then fails to build its sub-command leaves a trace, and no
other one does. -/
theorem buffer_noTrace_iff (txn : Txn) (key : Key) (c : Except Err SubCommand) :
    txn.NoTrace (txn.buffer key c) ↔ (∃ e, c = .error e) → ¬(txn.Usable ∧ key ≠ []) := by
  rw [← exists_validate_iff, buffer]
  cases hvalidate : txn.validate key with
  | error e =>
    -- The check fails before anything is recorded.
    exact iff_of_true ⟨fun _ => ⟨e, rfl⟩, fun _ => ⟨rfl, rfl, rfl⟩⟩ (by simp)
  | ok txn' =>
    have husable : txn.Usable := (exists_validate_iff.mp ⟨txn', hvalidate⟩).1
    cases c with
    | error e =>
      refine iff_of_false (fun h => ?_) fun h => h ⟨e, rfl⟩ ⟨txn', rfl⟩
      exact not_sameWrites_of_validate hvalidate (h.2 ⟨e, rfl⟩)
    | ok c =>
      refine iff_of_true ⟨fun hnot => absurd husable hnot, ?_⟩ (by simp)
      rintro ⟨e, he⟩
      exact absurd he (by simp)


/-- The keys that `getKeysByPrefixAt` returns are strictly increasing. -/
theorem pairwise_getKeysByPrefixAt {db : Store} {env : Env} {pre : Bytes} {r : ℕ} {keys : List Key}
    (h : db.getKeysByPrefixAt env pre r = .ok keys) : keys.Pairwise (· < ·) := by
  have hscan : scan pre ((BTxn.newTransactionAt db r).liveKeys env.now) = keys := by
    simp only [Store.getKeysByPrefixAt, BTxn.getKeysByPrefixWithTxn] at h
    split at h
    · exact Except.ok.inj h
    · split_ifs at h
      exact Except.ok.inj h
  rw [← hscan, scan_eq_filter (liveKeys_pairwise _ _)]
  exact (liveKeys_pairwise _ _).filter _

/-- The loop of `DeleteByPrefix` over keys in order fails at the first of them or not at all, so that a
failure leaves no trace. -/
theorem validateAll_noTrace {keys : List Key} (hne : keys ≠ []) (hsorted : keys.Pairwise (· < ·)) :
    txn.NoTrace (txn.validateAll keys) := by
  cases keys with
  | nil => exact absurd rfl hne
  | cons k keys =>
    rw [validateAll]
    cases hvalidate : txn.validate k with
    | error e => exact ⟨fun _ => ⟨e, rfl⟩, fun _ => ⟨rfl, rfl, rfl⟩⟩
    | ok txn' =>
      obtain ⟨husable, -⟩ := exists_validate_iff.mp ⟨txn', hvalidate⟩
      -- The keys after the first are not empty.
      have hkeys : ∀ k' ∈ keys, k' ≠ [] := by
        rintro k' hk' rfl
        exact List.not_lt_nil k ((List.pairwise_cons.mp hsorted).1 [] hk')
      have hsame : txn'.update = txn.update ∧ txn'.discarded = txn.discarded := by
        rw [validate_eq_ok hvalidate]
        exact ⟨rfl, rfl⟩
      obtain ⟨txn'', hall⟩ : ∃ txn'', txn'.validateAll keys = (txn'', .ok ()) :=
        exists_validateAll (hsame.1.trans husable.1) (hsame.2.trans husable.2) hkeys
      simp only [hall]
      refine ⟨fun hnot => absurd husable hnot, ?_⟩
      rintro ⟨e, he⟩
      exact absurd he (by simp)

/-- `DeleteByPrefix` fails without a trace, and on a transaction that cannot be written, unless it finds no
key there. -/
theorem deleteByPrefix_noTrace_iff (txn : Txn) (db : Store) (env : Env) (pre : Bytes) :
    txn.NoTrace (txn.deleteByPrefix db env pre) ↔
      (¬txn.Usable → db.getKeysByPrefixAt env pre txn.readTs ≠ .ok []) := by
  unfold deleteByPrefix
  cases hkeys : db.getKeysByPrefixAt env pre txn.readTs with
  | error e => exact iff_of_true ⟨fun _ => ⟨e, rfl⟩, fun _ => ⟨rfl, rfl, rfl⟩⟩ (by simp)
  | ok keys =>
    dsimp only
    by_cases hnil : keys = []
    · -- No key is validated, and there is no error.
      subst hnil
      simp [validateAll, NoTrace]
    · have hloop : (txn.addReadKeys keys).NoTrace ((txn.addReadKeys keys).validateAll keys) :=
        validateAll_noTrace hnil (pairwise_getKeysByPrefixAt hkeys)
      refine iff_of_true ?_ fun _ heq => hnil (Except.ok.inj heq)
      cases hall : (txn.addReadKeys keys).validateAll keys with
      | mk txn' result =>
        rw [hall] at hloop
        cases result with
        | error e => exact hloop
        | ok _ =>
          refine ⟨hloop.1, ?_⟩
          rintro ⟨e, he⟩
          exact absurd he (by simp)

/-- Where a write method fails as it should: `DeleteByPrefix` finds a key if the transaction cannot be
written; `UpdateJson` and `UpdateProtobuf` do not fail after `validate`; `AddWriteKey`, which cannot fail,
is called on a transaction that can be written. -/
def FailsCleanly (txn : Txn) (db : Store) (env : Env) : WriteOp → Prop
  | .deleteByPrefix pre => ¬txn.Usable → db.getKeysByPrefixAt env pre txn.readTs ≠ .ok []
  | .updateJson key delta _ => (∃ e, delta = .error e) → ¬(txn.Usable ∧ key ≠ [])
  | .updateProtobuf key delta messageName valid ttl =>
    (∃ e, protobufUpdate key delta messageName valid ttl = .error e) → ¬(txn.Usable ∧ key ≠ [])
  | .addWriteKey _ => txn.Usable
  | _ => True

/-- A call of a write method, with any arguments, in any state of the transaction and on any store, fails
where the transaction cannot be written and leaves no trace when it fails, exactly if it fails cleanly. -/
theorem write_noTrace_iff (txn : Txn) (db : Store) (env : Env) (op : WriteOp) :
    txn.NoTrace (txn.write db env op) ↔ txn.FailsCleanly db env op := by
  cases op with
  | deleteByPrefix pre => exact deleteByPrefix_noTrace_iff txn db env pre
  | updateJson key delta ttl =>
    have hdelta : (∃ e, (delta.map fun b => SubCommand.update key b .json [] ttl) = .error e) ↔
        ∃ e, delta = .error e := by
      cases delta with
      | error e => simp [Except.map]
      | ok b => simp [Except.map]
    exact (buffer_noTrace_iff txn key _).trans (imp_congr_left hdelta)
  | updateProtobuf key delta messageName valid ttl => exact buffer_noTrace_iff txn key _
  | addWriteKey key => simp [write, NoTrace, FailsCleanly]
  | incrBy key delta => exact (buffer_noTrace_iff txn key _).trans (by simp [FailsCleanly])
  | decrBy key delta => exact (buffer_noTrace_iff txn key _).trans (by simp [FailsCleanly])
  | set key value ttl | delete key => exact (buffer_noTrace_iff txn key _).trans (by simp [FailsCleanly])

/-- `UpdateJson` with a delta that cannot be encoded returns an error and leaves its key in the conflict
set; `DeleteByPrefix` without a matching key adds its sub-command to a read-only transaction, and to one
that was discarded. -/
theorem failed_writes_leave_trace :
    ((beginTxn 1 true).write [] ⟨0, none⟩ (.updateJson [1] (.error .malformed) none)).2 = .error .malformed ∧
      ((beginTxn 1 true).write [] ⟨0, none⟩ (.updateJson [1] (.error .malformed) none)).1.conflictKeys = {[1]} ∧
      ((beginTxn 1 false).write [] ⟨0, none⟩ (.deleteByPrefix [1])).2 = .ok () ∧
      ((beginTxn 1 false).write [] ⟨0, none⟩ (.deleteByPrefix [1])).1.subCommands = [.deleteByPrefix [1]] ∧
      ({ beginTxn 1 true with discarded := true }.write [] ⟨0, none⟩ (.deleteByPrefix [1])).2 = .ok () := by
  refine ⟨rfl, rfl, rfl, rfl, rfl⟩

end Txn

end Omashu
