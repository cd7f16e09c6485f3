import Omashu.Leader.System
import Omashu.Store.PrefixDeletion

/-!
# What the conflict set covers

The oracle finds conflicts by the `conflictKeys` of a transaction, which its methods collect through `validate`
when an operation is buffered. What the operation writes is determined when the command is applied, for a
prefix deletion by a second scan.

`conflict_set_covers_iff` is about every sequence of calls of the methods of a transaction. The sub-commands
are the calls that succeed, in their order. All keys in `writes` are in the conflict set exactly if every key
that is given to `AddWriteKey` is validated by some other call, since `AddWriteKey` leaves the conflict set
alone. And all keys that the application of the command writes are in the conflict set exactly if a prefix
deletion that is committed on its own reaches no key that was not validated. It can reach one where its clock is
behind that of the call, for a key that had expired for the call.
-/

namespace Omashu

open Lib

/-- A value is a success. -/
@[simp]
theorem isOk_ok {α : Type} (a : α) : (.ok a : Except Err α).isOk = true := rfl

/-- An error is none. -/
@[simp]
theorem isOk_error {α : Type} (e : Err) : (.error e : Except Err α).isOk = false := rfl

/-- The keys that a write validates, one after the other. -/
def WriteOp.keys (db : Store) (env : Env) (readTs : ℕ) : WriteOp → Except Err (List Key)
  | .incrBy key _ | .decrBy key _ | .set key _ _ | .delete key | .updateJson key _ _
  | .updateProtobuf key _ _ _ _ => .ok [key]
  | .deleteByPrefix pre => db.getKeysByPrefixAt env pre readTs
  | .addWriteKey _ => .ok []

/-- The key that is given to `AddWriteKey`. -/
def WriteOp.added : WriteOp → List Key
  | .addWriteKey key => [key]
  | _ => []

/-- The keys of a write that `validate` takes in an open update transaction: it stops at an empty one. -/
def WriteOp.validated (db : Store) (env : Env) (readTs : ℕ) (op : WriteOp) : List Key :=
  ((op.keys db env readTs).toOption.getD []).takeWhile (· ≠ [])

/-- A call of a method of a transaction. -/
inductive MethodCall
  /-- A method that writes, or `AddWriteKey`, with the store and the surroundings it runs in. -/
  | write (db : Store) (env : Env) (op : WriteOp)
  /-- `Discard`, which `Commit` ends with. -/
  | discard

namespace MethodCall

/-- The sub-command that the call buffers if it succeeds. -/
def subCommand : MethodCall → Option SubCommand
  | .write _ _ op => op.subCommand
  | .discard => none

/-- The key that the call gives to `AddWriteKey`. -/
def added : MethodCall → List Key
  | .write _ _ op => op.added
  | .discard => []

/-- The keys that the calls validate in an open update transaction: those before the first `Discard`. -/
def validated (readTs : ℕ) : List MethodCall → List Key
  | [] => []
  | .write db env op :: cs => op.validated db env readTs ++ validated readTs cs
  | .discard :: _ => []

end MethodCall

namespace Txn

/-- A call, and what it returns. -/
def perform (txn : Txn) : MethodCall → Txn × Except Err Unit
  | .write db env op => txn.write db env op
  | .discard => ({ txn with discarded := true }, .ok ())

/-- The transaction after several calls. -/
def performAll (txn : Txn) : List MethodCall → Txn
  | [] => txn
  | c :: cs => (txn.perform c).1.performAll cs

/-- The sub-commands of the calls that succeed, in program order. -/
def successes (txn : Txn) : List MethodCall → List SubCommand
  | [] => []
  | c :: cs =>
    (if (txn.perform c).2.isOk then c.subCommand.toList else []) ++ (txn.perform c).1.successes cs

/-- The keys that pass `validate`, up to the first one that does not. -/
def accepted (txn : Txn) (keys : List Key) : List Key :=
  if txn.update = true ∧ txn.discarded = false then keys.takeWhile (· ≠ []) else []

/-- The transaction with more keys in its conflict set and its writes. -/
def withKeys (txn : Txn) (keys : List Key) : Txn :=
  { txn with conflictKeys := txn.conflictKeys ∪ keys.toFinset, writes := txn.writes ++ keys }

/-! ## One call -/

variable {txn txn' : Txn} {key : Key} {keys : List Key}

/-- A key that fails `validate` ends the loop. -/
theorem accepted_of_validate_error {e : Err} (h : txn.validate key = .error e) :
    txn.accepted (key :: keys) = [] := by
  unfold accepted
  split_ifs with hopen
  · by_cases hkey : key = []
    · simp [hkey]
    · rw [validate_eq_ok_of_ne_nil hopen.1 hopen.2 hkey] at h
      exact absurd h (by simp)
  · rfl

/-- A key that passes `validate` is accepted, and the loop goes on. -/
theorem accepted_of_validate_ok (h : txn.validate key = .ok txn') :
    txn.accepted (key :: keys) = key :: txn'.accepted keys := by
  have heq := validate_eq_ok h
  unfold validate at h
  split_ifs at h with hupdate hdiscarded hkey
  have hopen : txn.update = true ∧ txn.discarded = false :=
    ⟨Bool.eq_true_of_not_eq_false hupdate, Bool.eq_false_of_not_eq_true hdiscarded⟩
  subst heq
  simp only [accepted]
  rw [if_pos hopen, if_pos hopen, List.takeWhile_cons_of_pos (by simpa using hkey)]

/-- The loop over the keys of a write adds the accepted ones. -/
theorem validateAll_fst (txn : Txn) (keys : List Key) :
    (txn.validateAll keys).1 = txn.withKeys (txn.accepted keys) := by
  induction keys generalizing txn with
  | nil => simp [validateAll, accepted, withKeys]
  | cons key keys ih =>
    unfold validateAll
    cases hv : txn.validate key with
    | error e => simp [accepted_of_validate_error hv, withKeys]
    | ok txn' =>
      rw [accepted_of_validate_ok hv]
      dsimp only
      rw [ih, validate_eq_ok hv]
      simp [withKeys, Finset.insert_union]

/-- The loop over the keys of a write succeeds only if all are accepted. -/
theorem accepted_of_validateAll_ok (h : (txn.validateAll keys).2.isOk = true) :
    txn.accepted keys = keys := by
  induction keys generalizing txn with
  | nil => simp [accepted]
  | cons key keys ih =>
    unfold validateAll at h
    cases hv : txn.validate key with
    | error e =>
      rw [hv] at h
      exact absurd h (by simp)
    | ok txn' =>
      rw [hv] at h
      rw [accepted_of_validate_ok hv, ih h]

/-- What a call of a write does to the transaction: it takes the accepted ones of its keys, then the key that
is given to `AddWriteKey`, and the sub-command if it succeeds. -/
structure Buffers (txn : Txn) (keys added : List Key) (sub : Option SubCommand) (r : Txn × Except Err Unit) :
    Prop where
  /-- The conflict set. -/
  conflictKeys : r.1.conflictKeys = txn.conflictKeys ∪ (txn.accepted keys).toFinset
  /-- The written keys. -/
  writes : r.1.writes = txn.writes ++ txn.accepted keys ++ added
  subCommands : r.1.subCommands = txn.subCommands ++ if r.2.isOk then sub.toList else []
  /-- The read timestamp stays. -/
  readTs : r.1.readTs = txn.readTs
  /-- It may write as before. -/
  update : r.1.update = txn.update
  /-- It is as discarded as before. -/
  discarded : r.1.discarded = txn.discarded
  /-- All keys of a call that succeeds are accepted. -/
  ok : r.2.isOk = true → txn.accepted keys = keys

/-- A method that validates one key buffers its sub-command. -/
theorem buffer_buffers (txn : Txn) (key : Key) (c : Except Err SubCommand) :
    txn.Buffers [key] [] c.toOption (txn.buffer key c) := by
  unfold buffer
  cases hv : txn.validate key with
  | error e =>
    have haccepted : txn.accepted [key] = [] := accepted_of_validate_error hv
    constructor <;> simp [haccepted]
  | ok txn' =>
    have haccepted : txn.accepted [key] = [key] := by
      rw [accepted_of_validate_ok hv]
      simp [accepted]
    obtain rfl := validate_eq_ok hv
    cases c with
    | error e => constructor <;> simp [haccepted]
    | ok sub => constructor <;> simp [haccepted, addSubCommand, Except.toOption]

/-- `DeleteByPrefix` validates the keys it finds. -/
theorem deleteByPrefix_buffers (txn : Txn) (db : Store) (env : Env) (pre : Bytes) :
    txn.Buffers ((db.getKeysByPrefixAt env pre txn.readTs).toOption.getD []) []
      (some (.deleteByPrefix pre)) (txn.deleteByPrefix db env pre) := by
  unfold deleteByPrefix
  cases hkeys : db.getKeysByPrefixAt env pre txn.readTs with
  | error e => constructor <;> simp [accepted, Except.toOption]
  | ok keys =>
    have hfst := validateAll_fst (txn.addReadKeys keys) keys
    have haccepted : (txn.addReadKeys keys).accepted keys = txn.accepted keys := rfl
    rw [haccepted] at hfst
    cases hall : (txn.addReadKeys keys).validateAll keys with
    | mk txn' r =>
      obtain rfl : txn' = _ := by simpa only [hall] using hfst
      cases r with
      | error e =>
        dsimp only
        rw [hall]
        constructor <;>
          simp [withKeys, addReadKeys, Except.toOption]
      | ok u =>
        have hok : ((txn.addReadKeys keys).validateAll keys).2.isOk = true := by
          rw [hall]
          rfl
        have hkeys := accepted_of_validateAll_ok hok
        rw [haccepted] at hkeys
        dsimp only
        rw [hall]
        constructor <;>
          simp [withKeys, addReadKeys, addSubCommand, hkeys, Except.toOption]

/-- What the methods that write do. -/
theorem write_buffers (txn : Txn) (db : Store) (env : Env) (op : WriteOp) :
    txn.Buffers ((op.keys db env txn.readTs).toOption.getD []) op.added op.subCommand
      (txn.write db env op) := by
  cases op with
  | deleteByPrefix pre => exact deleteByPrefix_buffers txn db env pre
  | addWriteKey key =>
    constructor <;>
      simp [write, accepted, WriteOp.keys, WriteOp.added, WriteOp.subCommand,
        Except.toOption]
  | incrBy key delta => exact buffer_buffers txn key (.ok (.incrBy key delta))
  | decrBy key delta => exact buffer_buffers txn key (.ok (.decrBy key delta))
  | set key value ttl => exact buffer_buffers txn key (.ok (.set key value ttl))
  | delete key => exact buffer_buffers txn key (.ok (.delete key))
  | updateJson | updateProtobuf => exact buffer_buffers ..

/-- A write that succeeds has found its keys. -/
theorem exists_keys_of_write_ok {db : Store} {env : Env} {op : WriteOp}
    (h : (txn.write db env op).2.isOk = true) : ∃ keys, op.keys db env txn.readTs = .ok keys := by
  cases op with
  | deleteByPrefix pre =>
    simp only [write, deleteByPrefix] at h
    cases hkeys : db.getKeysByPrefixAt env pre txn.readTs with
    | error e =>
      rw [hkeys] at h
      exact absurd h (by simp)
    | ok keys => exact ⟨keys, hkeys⟩
  | _ => exact ⟨_, rfl⟩

/-! ## A sequence of calls -/

/-- A call keeps the read timestamp. -/
theorem perform_readTs (txn : Txn) (c : MethodCall) : (txn.perform c).1.readTs = txn.readTs := by
  cases c with
  | write db env op => exact (write_buffers txn db env op).readTs
  | discard => rfl

/-- A call only adds to the conflict set. -/
theorem conflictKeys_subset_perform (txn : Txn) (c : MethodCall) :
    txn.conflictKeys ⊆ (txn.perform c).1.conflictKeys := by
  cases c with
  | write db env op =>
    show _ ⊆ (txn.write db env op).1.conflictKeys
    rw [(write_buffers txn db env op).conflictKeys]
    exact Finset.subset_union_left
  | discard => exact Finset.Subset.refl _

/-- The calls only add to the conflict set. -/
theorem conflictKeys_subset_performAll (txn : Txn) (cs : List MethodCall) :
    txn.conflictKeys ⊆ (txn.performAll cs).conflictKeys := by
  induction cs generalizing txn with
  | nil => exact Finset.Subset.refl _
  | cons c cs ih => exact (conflictKeys_subset_perform txn c).trans (ih _)

/-- The calls keep the read timestamp. -/
theorem performAll_readTs (txn : Txn) (cs : List MethodCall) : (txn.performAll cs).readTs = txn.readTs := by
  induction cs generalizing txn with
  | nil => rfl
  | cons c cs ih => exact (ih _).trans (perform_readTs txn c)

/-- The sub-commands are the calls that succeed, in their order. -/
theorem performAll_subCommands (txn : Txn) (cs : List MethodCall) :
    (txn.performAll cs).subCommands = txn.subCommands ++ txn.successes cs := by
  induction cs generalizing txn with
  | nil => exact (List.append_nil _).symm
  | cons c cs ih =>
    have hstep : (txn.perform c).1.subCommands =
        txn.subCommands ++ if (txn.perform c).2.isOk then c.subCommand.toList else [] := by
      cases c with
      | write db env op => exact (write_buffers txn db env op).subCommands
      | discard => simp [perform, MethodCall.subCommand]
    show ((txn.perform c).1.performAll cs).subCommands = _
    rw [ih, hstep, successes, List.append_assoc]

/-- Once the transaction is discarded, only `AddWriteKey` has an effect on the written keys, and no call on the
conflict set. -/
theorem performAll_of_discarded (hd : txn.discarded = true) (cs : List MethodCall) :
    (txn.performAll cs).conflictKeys = txn.conflictKeys ∧
      (txn.performAll cs).writes = txn.writes ++ cs.flatMap MethodCall.added := by
  induction cs generalizing txn with
  | nil => exact ⟨rfl, (List.append_nil _).symm⟩
  | cons c cs ih =>
    cases c with
    | discard => exact ih rfl
    | write db env op =>
      have hb := write_buffers txn db env op
      have hnone : ∀ keys, txn.accepted keys = [] := fun keys => by simp [accepted, hd]
      obtain ⟨hconflict, hwrites⟩ := ih (hb.discarded.trans hd)
      refine ⟨hconflict.trans ?_, hwrites.trans ?_⟩
      · rw [hb.conflictKeys, hnone]
        simp
      · rw [hb.writes, hnone]
        simp [MethodCall.added]

/-- The conflict set and the written keys after the calls. The induction is on the calls up to the first
`Discard`. -/
theorem performAll_keys (hupdate : txn.update = true) (hopen : txn.discarded = false) (cs : List MethodCall)
    (k : Key) :
    (k ∈ (txn.performAll cs).conflictKeys ↔ k ∈ txn.conflictKeys ∨ k ∈ MethodCall.validated txn.readTs cs) ∧
      (k ∈ (txn.performAll cs).writes ↔
        k ∈ txn.writes ∨ k ∈ MethodCall.validated txn.readTs cs ∨ k ∈ cs.flatMap MethodCall.added) := by
  induction cs generalizing txn with
  | nil => simp [performAll, MethodCall.validated]
  | cons c cs ih =>
    cases c with
    | discard =>
      have hd : ({ txn with discarded := true } : Txn).discarded = true := rfl
      obtain ⟨hconflict, hwrites⟩ := performAll_of_discarded hd cs
      show (k ∈ (performAll { txn with discarded := true } cs).conflictKeys ↔ _) ∧
        (k ∈ (performAll { txn with discarded := true } cs).writes ↔ _)
      rw [hconflict, hwrites]
      simp [MethodCall.validated, MethodCall.added]
    | write db env op =>
      have hb := write_buffers txn db env op
      have haccepted : txn.accepted ((op.keys db env txn.readTs).toOption.getD []) =
          op.validated db env txn.readTs := if_pos ⟨hupdate, hopen⟩
      have hrec := ih (hb.update.trans hupdate) (hb.discarded.trans hopen)
      rw [hb.conflictKeys, hb.writes, hb.readTs, haccepted] at hrec
      show (k ∈ ((txn.write db env op).1.performAll cs).conflictKeys ↔ _) ∧
        (k ∈ ((txn.write db env op).1.performAll cs).writes ↔ _)
      rw [hrec.1, hrec.2]
      simp only [MethodCall.validated, MethodCall.added, List.flatMap_cons, List.mem_append, Finset.mem_union,
        List.mem_toFinset]
      exact ⟨or_assoc, by simp only [or_assoc, or_left_comm]⟩

/-- A sub-command comes from a write that succeeded, all of whose keys are in the conflict set. -/
theorem exists_of_mem_successes {sub : SubCommand} {cs : List MethodCall} (h : sub ∈ txn.successes cs) :
    ∃ db env op keys, MethodCall.write db env op ∈ cs ∧ op.subCommand = some sub ∧
      op.keys db env txn.readTs = .ok keys ∧ ∀ k ∈ keys, k ∈ (txn.performAll cs).conflictKeys := by
  induction cs generalizing txn with
  | nil => exact absurd h List.not_mem_nil
  | cons c cs ih =>
    rcases List.mem_append.mp h with hnow | hlater
    · cases c with
      | discard => simp [MethodCall.subCommand] at hnow
      | write db env op =>
        split_ifs at hnow with hok
        · obtain ⟨keys, hkeys⟩ := exists_keys_of_write_ok hok
          have hb := write_buffers txn db env op
          have hsub : op.subCommand = some sub := Option.mem_toList.mp hnow
          refine ⟨db, env, op, keys, List.mem_cons_self, hsub, hkeys, fun k hk => ?_⟩
          apply conflictKeys_subset_performAll (txn.write db env op).1 cs
          have hall := hb.ok hok
          rw [hkeys] at hall
          rw [hb.conflictKeys, hkeys, hall]
          exact Finset.mem_union_right _ (List.mem_toFinset.mpr hk)
        · exact absurd hnow List.not_mem_nil
    · obtain ⟨db, env, op, keys, hmem, hsub, hkeys, hcovered⟩ := ih hlater
      rw [perform_readTs] at hkeys
      exact ⟨db, env, op, keys, List.mem_cons_of_mem _ hmem, hsub, hkeys, hcovered⟩

/-- The command that `Commit` returns, with its timestamp. -/
def command (txn : Txn) (kind : Kind) (commitTs : ℕ) : Option Command :=
  Call.command ⟨kind, .ready, { txn with commitTs }, []⟩

end Txn

/-! ## What an application writes -/

/-- The keys that a prefix deletion reaches: all that the scan finds, up to where the context is done. -/
def Store.keysReached (db : Store) (env : Env) (readTs : ℕ) (pre : Bytes) : List Key :=
  (BTxn.newTransactionAt db readTs).keysVisited env pre

namespace Fsm

variable {M : Merge} {db db' : Store} {env : Env} {c : Command} {k : Key}

/-- The keys that `apply` writes, the latest first; none if it fails. -/
def writtenKeys (M : Merge) (db : Store) (env : Env) (c : Command) : List Key :=
  ((perform M env (BTxn.newTransactionAt db c.readTs) c.body).toOption.map fun txn =>
    txn.pendingWrites.map Prod.fst).getD []

/-- A transaction with a prefix deletion fails. -/
theorem ne_deleteByPrefix_of_applySubs {txn txn' : BTxn} {subs : List SubCommand}
    (h : applySubs M env txn subs = .ok txn') : ∀ sub ∈ subs, ∀ pre, sub ≠ .deleteByPrefix pre := by
  induction subs generalizing txn with
  | nil => simp
  | cons sub subs ih =>
    obtain ⟨txn₁, hsub, hrest⟩ := bind_eq_ok h
    refine List.forall_mem_cons.mpr ⟨?_, ih hrest⟩
    rintro pre rfl
    exact absurd hsub (by simp [applySub])

/-- A command other than a prefix deletion writes only keys of sub-commands with one key. -/
theorem exists_touches_of_mem_writtenKeys (hbody : ∀ pre, c.body ≠ .single (.deleteByPrefix pre))
    (hk : k ∈ writtenKeys M db env c) :
    ∃ sub ∈ c.body.subCommands, (∀ pre, sub ≠ .deleteByPrefix pre) ∧ sub.Touches k := by
  unfold writtenKeys at hk
  rw [perform_eq_applySubs hbody] at hk
  cases hsubs : applySubs M env (BTxn.newTransactionAt db c.readTs) c.body.subCommands with
  | error e => simp [hsubs, Except.toOption] at hk
  | ok txn =>
    rw [hsubs] at hk
    obtain ⟨w, hw, rfl⟩ := List.mem_map.mp hk
    obtain ⟨-, -, ws, hws, htouches⟩ := applySubs_extends hsubs
    rw [hws] at hw
    have hmem : w ∈ ws := by simpa [BTxn.newTransactionAt] using hw
    obtain ⟨sub, hsub, htouch⟩ := htouches w hmem
    exact ⟨sub, hsub, ne_deleteByPrefix_of_applySubs hsubs sub hsub, htouch⟩

/-- A prefix deletion writes the keys it reaches, if Badger accepts them all. -/
theorem mem_writtenKeys_deleteByPrefix {readTs commitTs : ℕ} {pre : Bytes} :
    k ∈ writtenKeys M db env ⟨readTs, commitTs, .single (.deleteByPrefix pre)⟩ ↔
      (∀ k ∈ db.keysReached env readTs pre, AcceptsKey k) ∧ k ∈ db.keysReached env readTs pre := by
  have hperform : perform M env (BTxn.newTransactionAt db readTs) (.single (.deleteByPrefix pre)) =
      (BTxn.newTransactionAt db readTs).deleteKeys (db.keysReached env readTs pre) := rfl
  unfold writtenKeys
  dsimp only
  rw [hperform]
  constructor
  · intro hk
    cases hdelete : (BTxn.newTransactionAt db readTs).deleteKeys (db.keysReached env readTs pre) with
    | error e => simp [hdelete, Except.toOption] at hk
    | ok txn =>
      obtain ⟨haccepts, rfl⟩ := BTxn.deleteKeys_eq_ok_iff.mp hdelete
      rw [hdelete] at hk
      refine ⟨haccepts, ?_⟩
      simpa [Except.toOption, BTxn.newTransactionAt, Function.comp_def] using hk
  · rintro ⟨haccepts, hk⟩
    rw [BTxn.deleteKeys_eq_ok_iff.mpr ⟨haccepts, rfl⟩]
    simpa [Except.toOption, BTxn.newTransactionAt, Function.comp_def] using hk

end Fsm

/-! ## The conflict set -/

/-- A write buffers a prefix deletion, or a sub-command of the one key that it validates. -/
theorem WriteOp.subCommand_cases {op : WriteOp} {sub : SubCommand} (h : op.subCommand = some sub) :
    (∃ pre, op = .deleteByPrefix pre ∧ sub = .deleteByPrefix pre) ∨
      (∀ pre, sub ≠ .deleteByPrefix pre) ∧ ∃ key, (∀ k, sub.Touches k → k = key) ∧
        ∀ db env readTs, op.keys db env readTs = .ok [key] := by
  cases op with
  | deleteByPrefix pre => exact .inl ⟨pre, rfl, (Option.some.inj h).symm⟩
  | addWriteKey key => exact absurd h (by simp [subCommand])
  | updateJson key delta ttl =>
    cases delta with
    | error e => exact absurd h (by simp [subCommand, Except.map, Except.toOption])
    | ok b =>
      obtain rfl := Option.some.inj h
      exact .inr ⟨by simp, key, fun k hk => hk.symm, fun _ _ _ => rfl⟩
  | updateProtobuf key delta messageName valid ttl =>
    cases delta with
    | error e => exact absurd h (by simp [subCommand, Txn.protobufUpdate, Except.toOption])
    | ok b =>
      cases valid with
      | false => exact absurd h (by simp [subCommand, Txn.protobufUpdate, Except.toOption])
      | true =>
        obtain rfl := Option.some.inj h
        exact .inr ⟨by simp, key, fun k hk => hk.symm, fun _ _ _ => rfl⟩
  | incrBy key delta | decrBy key delta | set key value ttl | delete key =>
    obtain rfl := Option.some.inj h
    exact .inr ⟨by simp, key, fun k hk => hk.symm, fun _ _ _ => rfl⟩

namespace Txn

variable {M : Merge} {db : Store} {env : Env} {readTs commitTs : ℕ} {cs : List MethodCall} {k : Key}

/-- The conflict set of a transaction holds the keys that its calls validate. -/
theorem mem_conflictKeys_performAll :
    k ∈ ((beginTxn readTs true).performAll cs).conflictKeys ↔ k ∈ MethodCall.validated readTs cs := by
  have hopen : (beginTxn readTs true).discarded = false := rfl
  rw [(performAll_keys rfl hopen cs k).1]
  exact or_iff_right (Finset.notMem_empty k)

/-- The written keys of a transaction are those that its calls validate and those that they add. -/
theorem mem_writes_performAll :
    k ∈ ((beginTxn readTs true).performAll cs).writes ↔
      k ∈ MethodCall.validated readTs cs ∨ k ∈ cs.flatMap MethodCall.added := by
  have hopen : (beginTxn readTs true).discarded = false := rfl
  rw [(performAll_keys rfl hopen cs k).2]
  exact or_iff_right List.not_mem_nil

/-- The sub-commands of a transaction are its calls that succeed. -/
theorem subCommands_performAll :
    ((beginTxn readTs true).performAll cs).subCommands = (beginTxn readTs true).successes cs :=
  performAll_subCommands (beginTxn readTs true) cs

/-- The command of a client's transaction has all its sub-commands. -/
theorem command_transaction : ((beginTxn readTs true).performAll cs).command .transaction commitTs =
    some ⟨readTs, commitTs, .transaction ((beginTxn readTs true).successes cs)⟩ := by
  have hreadTs := performAll_readTs (beginTxn readTs true) cs
  rw [← subCommands_performAll]
  unfold command Call.command
  dsimp only
  rw [hreadTs]
  rfl

/-- The command of a single operation is its first sub-command. -/
theorem command_single : ((beginTxn readTs true).performAll cs).command .single commitTs =
    ((beginTxn readTs true).successes cs).head?.map fun sub => ⟨readTs, commitTs, .single sub⟩ := by
  have hreadTs := performAll_readTs (beginTxn readTs true) cs
  rw [← subCommands_performAll]
  unfold command Call.command
  dsimp only
  rw [hreadTs]
  cases ((beginTxn readTs true).performAll cs).subCommands with
  | nil | cons => rfl

/-- But for a prefix deletion on its own, the application of the command writes only keys in the conflict set.
-/
theorem mem_conflictKeys_of_mem_writtenKeys {kind : Kind} {c : Command}
    (hc : c ∈ ((beginTxn readTs true).performAll cs).command kind commitTs)
    (hbody : ∀ pre, c.body ≠ .single (.deleteByPrefix pre)) (hk : k ∈ Fsm.writtenKeys M db env c) :
    k ∈ ((beginTxn readTs true).performAll cs).conflictKeys := by
  obtain ⟨sub, hsub, hpre, htouches⟩ := Fsm.exists_touches_of_mem_writtenKeys hbody hk
  have hsuccess : sub ∈ (beginTxn readTs true).successes cs := by
    cases kind with
    | transaction =>
      obtain rfl := Option.some.inj (command_transaction.symm.trans hc)
      exact hsub
    | single =>
      obtain ⟨first, hfirst, rfl⟩ := Option.map_eq_some_iff.mp (command_single.symm.trans hc)
      obtain rfl := List.mem_singleton.mp hsub
      exact List.mem_of_mem_head? hfirst
  obtain ⟨db', env', op, keys, -, hop, hkeys, hcovered⟩ := exists_of_mem_successes hsuccess
  obtain ⟨pre, -, rfl⟩ | ⟨-, key, hkey, hop⟩ := WriteOp.subCommand_cases hop
  · exact absurd rfl (hpre pre)
  · obtain rfl := Except.ok.inj ((hop db' env' _).symm.trans hkeys)
    exact hcovered k (List.mem_singleton.mpr (hkey k htouches))

/-- For every sequence of calls on an update transaction, the sub-commands are the write calls that succeed, in
program order. The conflict set covers the written keys and whatever the application of the command writes
exactly if every key that is given to `AddWriteKey` is validated by another call, and, for a prefix deletion
that is committed on its own and whose keys Badger accepts, so is every key that it reaches. -/
theorem conflict_set_covers_iff (M : Merge) (kind : Kind) (readTs commitTs : ℕ) (cs : List MethodCall) (db : Store)
    (env : Env) :
    ((beginTxn readTs true).performAll cs).subCommands = (beginTxn readTs true).successes cs ∧
      (((∀ k ∈ ((beginTxn readTs true).performAll cs).writes,
            k ∈ ((beginTxn readTs true).performAll cs).conflictKeys) ∧
          ∀ c ∈ ((beginTxn readTs true).performAll cs).command kind commitTs, ∀ k ∈ Fsm.writtenKeys M db env c,
            k ∈ ((beginTxn readTs true).performAll cs).conflictKeys) ↔
        (∀ k ∈ cs.flatMap MethodCall.added, k ∈ MethodCall.validated readTs cs) ∧
          ∀ pre, kind = .single → ((beginTxn readTs true).successes cs).head? = some (.deleteByPrefix pre) →
            (∀ k ∈ db.keysReached env readTs pre, AcceptsKey k) →
              ∀ k ∈ db.keysReached env readTs pre, k ∈ MethodCall.validated readTs cs) := by
  refine ⟨subCommands_performAll, and_congr ?_ ?_⟩
  · simp only [mem_writes_performAll, mem_conflictKeys_performAll]
    exact ⟨fun h k hk => h k (.inr hk), fun h k hk => hk.elim id (h k)⟩
  constructor
  · rintro h pre rfl hhead haccepts k hk
    rw [← mem_conflictKeys_performAll]
    -- The command is the prefix deletion, which writes what it reaches.
    refine h ⟨readTs, commitTs, .single (.deleteByPrefix pre)⟩ ?_ k
      (Fsm.mem_writtenKeys_deleteByPrefix.mpr ⟨haccepts, hk⟩)
    rw [command_single, hhead]
    rfl
  · intro h c hc k hk
    by_cases hbody : ∃ pre, c.body = .single (.deleteByPrefix pre)
    · obtain ⟨pre, hpre⟩ := hbody
      cases kind with
      | transaction =>
        obtain rfl := Option.some.inj (command_transaction.symm.trans hc)
        exact absurd hpre (by simp)
      | single =>
        obtain ⟨sub, hhead, rfl⟩ := Option.map_eq_some_iff.mp (command_single.symm.trans hc)
        obtain rfl : sub = .deleteByPrefix pre := Body.single.inj hpre
        obtain ⟨haccepts, hreached⟩ := Fsm.mem_writtenKeys_deleteByPrefix.mp hk
        exact mem_conflictKeys_performAll.mpr (h pre rfl hhead haccepts k hreached)
    · exact mem_conflictKeys_of_mem_writtenKeys hc (not_exists.mp hbody) hk

/-- A key that is given to `AddWriteKey` alone is a written key and not in the conflict set. And a prefix
deletion on a replica whose clock is behind that of the call deletes a key that had expired for the call, and
that is not in the conflict set. -/
theorem added_key_not_covered :
    ([1] ∈ ((beginTxn 1 true).performAll [.write [] someEnv (.addWriteKey [1])]).writes ∧
        [1] ∉ ((beginTxn 1 true).performAll [.write [] someEnv (.addWriteKey [1])]).conflictKeys) ∧
      ((beginTxn 1 true).performAll
          [.write [⟨[1], 1, .value [7] 5⟩] ⟨5 * 10^9, none⟩ (.deleteByPrefix [1])]).command .single 2 =
        some ⟨1, 2, .single (.deleteByPrefix [1])⟩ ∧
      Fsm.writtenKeys rejectDeltas [⟨[1], 1, .value [7] 5⟩] someEnv ⟨1, 2, .single (.deleteByPrefix [1])⟩ = [[1]] ∧
      [1] ∉ ((beginTxn 1 true).performAll
          [.write [⟨[1], 1, .value [7] 5⟩] ⟨5 * 10^9, none⟩ (.deleteByPrefix [1])]).conflictKeys := by
  decide +kernel

end Txn

end Omashu
