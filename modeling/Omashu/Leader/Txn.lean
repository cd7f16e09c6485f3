import Mathlib.Data.Finset.Insert
import Omashu.Store.Fsm
import Omashu.Store.Reads

/-!
# Transactions of the distributed store

`Txn` of `txn.go` buffers the writes of a transaction as sub-commands and collects the keys that the
oracle's conflict check needs: `reads` for the keys it has read, `conflictKeys` for those it writes.
The reads of `distributed.go` go to the local store at the read timestamp, and register only the
keys that they find.

A method returns the transaction and its result, since some of them leave a trace in the transaction
before they fail.
-/

namespace Omashu

/-- `Txn`, with the sub-commands of its command. -/
structure Txn where
  /-- The timestamp it reads at. -/
  readTs : ℕ
  /-- The timestamp it commits at, once it has one. -/
  commitTs : ℕ
  /-- The keys it has read. -/
  reads : List Key
  /-- The keys it writes. -/
  conflictKeys : Finset Key
  /-- The keys it writes, in order. -/
  writes : List Key
  /-- The sub-commands of its command. -/
  subCommands : List SubCommand
  /-- Whether it may write. -/
  update : Bool
  /-- Whether it has been discarded. -/
  discarded : Bool

/-- A write of a transaction. -/
inductive WriteOp
  /-- `Txn.IncrBy`. -/
  | incrBy (key : Key) (delta : UInt64)
  /-- `Txn.DecrBy`. -/
  | decrBy (key : Key) (delta : UInt64)
  /-- `Txn.Set`. -/
  | set (key : Key) (value : Bytes) (ttl : Option ℤ)
  /-- `Txn.Delete`. -/
  | delete (key : Key)
  /-- `Txn.DeleteByPrefix`. -/
  | deleteByPrefix (pre : Bytes)
  /-- `Txn.UpdateJson`, with the result of marshalling the delta. -/
  | updateJson (key : Key) (delta : Except Err Bytes) (ttl : Option ℤ)
  /-- `Txn.UpdateProtobuf`, with the result of marshalling the delta, and whether the descriptor
  store knows the message. -/
  | updateProtobuf (key : Key) (delta : Except Err Bytes) (messageName : Bytes) (valid : Bool)
    (ttl : Option ℤ)
  /-- `Txn.AddWriteKey`. -/
  | addWriteKey (key : Key)

namespace Txn

/-- The transaction that `BeginTxn` opens. -/
def beginTxn (readTs : ℕ) (update : Bool) : Txn :=
  { readTs, commitTs := 0, reads := [], conflictKeys := ∅, writes := [], subCommands := [], update,
    discarded := false }

/-- `addReadKey`, for each of the keys. -/
def addReadKeys (txn : Txn) (keys : List Key) : Txn := { txn with reads := txn.reads ++ keys }

/-- `cmd.AddSubCommand`. -/
def addSubCommand (txn : Txn) (c : SubCommand) : Txn :=
  { txn with subCommands := txn.subCommands ++ [c] }

/-- `validate`: the transaction may write, is not discarded, and the key is not empty. -/
def validate (txn : Txn) (key : Key) : Except Err Txn :=
  if txn.update = false then .error .readOnlyTxn
  else if txn.discarded then .error .discardedTxn
  else if key = [] then .error .emptyKey
  else .ok { txn with
    conflictKeys := insert key txn.conflictKeys
    writes := txn.writes ++ [key] }

/-- The loop of `DeleteByPrefix` over the keys it has found. -/
def validateAll (txn : Txn) : List Key → Txn × Except Err Unit
  | [] => (txn, .ok ())
  | key :: keys =>
    match txn.validate key with
    | .error e => (txn, .error e)
    | .ok txn => txn.validateAll keys

/-- A method that validates a key and buffers a sub-command. -/
def buffer (txn : Txn) (key : Key) (c : Except Err SubCommand) : Txn × Except Err Unit :=
  match txn.validate key with
  | .error e => (txn, .error e)
  | .ok txn =>
    match c with
    | .error e => (txn, .error e)
    | .ok c => (txn.addSubCommand c, .ok ())

/-- The sub-command of `UpdateProtobuf`, where its checks pass. -/
def protobufUpdate (key : Key) (delta : Except Err Bytes) (messageName : Bytes) (valid : Bool)
    (ttl : Option ℤ) : Except Err SubCommand :=
  match delta with
  | .error e => .error e
  | .ok delta =>
    if valid then .ok (.update key delta .protobuf messageName ttl) else .error .unknownProtoMsg

end Txn

/-- The sub-command that a write buffers, where its checks pass. -/
def WriteOp.subCommand : WriteOp → Option SubCommand
  | .incrBy key delta => some (.incrBy key delta)
  | .decrBy key delta => some (.decrBy key delta)
  | .set key value ttl => some (.set key value ttl)
  | .delete key => some (.delete key)
  | .deleteByPrefix pre => some (.deleteByPrefix pre)
  | .updateJson key delta ttl => (delta.map fun b => SubCommand.update key b .json [] ttl).toOption
  | .updateProtobuf key delta messageName valid ttl =>
    (Txn.protobufUpdate key delta messageName valid ttl).toOption
  | .addWriteKey _ => none

namespace Txn

/-- `DeleteByPrefix`: the keys found at the read timestamp are read keys and written keys. -/
def deleteByPrefix (txn : Txn) (db : Store) (env : Env) (pre : Bytes) : Txn × Except Err Unit :=
  match db.getKeysByPrefixAt env pre txn.readTs with
  | .error e => (txn, .error e)
  | .ok keys =>
    match (txn.addReadKeys keys).validateAll keys with
    | (txn, .error e) => (txn, .error e)
    | (txn, .ok ()) => (txn.addSubCommand (.deleteByPrefix pre), .ok ())

/-- The methods that write. -/
def write (txn : Txn) (db : Store) (env : Env) : WriteOp → Txn × Except Err Unit
  | .incrBy key delta => txn.buffer key (.ok (.incrBy key delta))
  | .decrBy key delta => txn.buffer key (.ok (.decrBy key delta))
  | .set key value ttl => txn.buffer key (.ok (.set key value ttl))
  | .delete key => txn.buffer key (.ok (.delete key))
  | .deleteByPrefix pre => txn.deleteByPrefix db env pre
  | .updateJson key delta ttl => txn.buffer key (delta.map fun b => .update key b .json [] ttl)
  | .updateProtobuf key delta messageName valid ttl =>
    txn.buffer key (protobufUpdate key delta messageName valid ttl)
  -- The key does not come into the conflict set.
  | .addWriteKey key => ({ txn with writes := txn.writes ++ [key] }, .ok ())

/-- The keys that a read registers: those it found. -/
def foundKeys : Query → Answer → List Key
  -- `GetWithTxn` returns before `addReadKey` if there is no value.
  | .get key, .value (some _) => [key]
  | _, .pairs l => l.map Prod.fst
  | _, .keys l => l
  | _, _ => []

/-- `GetWithTxn`, `GetByPrefixWithTxn` and `GetKeysByPrefixWithTxn`: the read at the transaction's
timestamp, which registers the keys it found. -/
def read (txn : Txn) (db : Store) (env : Env) (q : Query) : Txn × Except Err Answer :=
  match q.eval db env txn.readTs with
  | .error e => (txn, .error e)
  | .ok a => (txn.addReadKeys (foundKeys q a), .ok a)

/-- `txn'` is `txn` after more reads and writes of the same transaction. -/
structure Grows (txn txn' : Txn) : Prop where
  /-- The read timestamp stays. -/
  readTs : txn'.readTs = txn.readTs
  /-- The commit timestamp stays. -/
  commitTs : txn'.commitTs = txn.commitTs
  /-- The transaction is as discarded as before. -/
  discarded : txn'.discarded = txn.discarded

/-- A read only adds read keys. -/
theorem read_grows (txn : Txn) (db : Store) (env : Env) (q : Query) :
    txn.Grows (txn.read db env q).1 := by
  unfold read
  split
  · exact ⟨rfl, rfl, rfl⟩
  · exact ⟨rfl, rfl, rfl⟩

/-- What a successful `validate` does. -/
theorem validate_eq_ok {txn txn' : Txn} {key : Key} (h : txn.validate key = .ok txn') :
    txn' = { txn with
      conflictKeys := insert key txn.conflictKeys
      writes := txn.writes ++ [key] } := by
  unfold validate at h
  split_ifs at h
  exact (Except.ok.inj h).symm

/-- `validate` accepts a key that is not empty in a transaction that may write. -/
theorem validate_eq_ok_of_ne_nil {txn : Txn} {key : Key} (hupdate : txn.update = true)
    (hopen : txn.discarded = false) (hkey : key ≠ []) :
    txn.validate key = .ok { txn with
      conflictKeys := insert key txn.conflictKeys
      writes := txn.writes ++ [key] } := by
  unfold validate
  rw [if_neg (by simp [hupdate]), if_neg (by simp [hopen]), if_neg hkey]

/-- The loop of `DeleteByPrefix` succeeds on keys that are not empty. -/
theorem exists_validateAll {txn : Txn} {keys : List Key} (hupdate : txn.update = true)
    (hopen : txn.discarded = false) (hkeys : ∀ k ∈ keys, k ≠ []) :
    ∃ txn', txn.validateAll keys = (txn', .ok ()) := by
  induction keys generalizing txn with
  | nil => exact ⟨txn, rfl⟩
  | cons k keys ih =>
    unfold validateAll
    rw [validate_eq_ok_of_ne_nil hupdate hopen (hkeys k List.mem_cons_self)]
    exact ih hupdate hopen fun k' hk' => hkeys k' (List.mem_cons_of_mem _ hk')

/-- The loop of `DeleteByPrefix` keeps the timestamps. -/
theorem validateAll_grows (txn : Txn) (keys : List Key) : txn.Grows (txn.validateAll keys).1 := by
  induction keys generalizing txn with
  | nil => exact ⟨rfl, rfl, rfl⟩
  | cons key keys ih =>
    unfold validateAll
    split
    · exact ⟨rfl, rfl, rfl⟩
    · rename_i txn' hv
      have h := ih txn'
      rw [validate_eq_ok hv] at h ⊢
      exact ⟨h.readTs, h.commitTs, h.discarded⟩

/-- What buffering can do: nothing, or add the key and perhaps the sub-command. -/
theorem buffer_cases (txn : Txn) (key : Key) (c : Except Err SubCommand) :
    (txn.buffer key c).1 = txn ∨
    ∃ txn', txn.validate key = .ok txn' ∧
      ((txn.buffer key c).1 = txn' ∨
        ∃ sub, c = .ok sub ∧ (txn.buffer key c).1 = txn'.addSubCommand sub) := by
  unfold buffer
  split
  · exact .inl rfl
  · rename_i txn' hv
    split
    · exact .inr ⟨txn', hv, .inl rfl⟩
    · rename_i sub
      exact .inr ⟨txn', hv, .inr ⟨sub, rfl, rfl⟩⟩

/-- Buffering keeps the timestamps. -/
theorem buffer_grows (txn : Txn) (key : Key) (c : Except Err SubCommand) :
    txn.Grows (txn.buffer key c).1 := by
  obtain h | ⟨txn', hv, h | ⟨sub, -, h⟩⟩ := buffer_cases txn key c
  · rw [h]
    exact ⟨rfl, rfl, rfl⟩
  · rw [h, validate_eq_ok hv]
    exact ⟨rfl, rfl, rfl⟩
  · rw [h, validate_eq_ok hv]
    exact ⟨rfl, rfl, rfl⟩

/-- A write keeps the timestamps. -/
theorem write_grows (txn : Txn) (db : Store) (env : Env) (op : WriteOp) :
    txn.Grows (txn.write db env op).1 := by
  cases op with
  | deleteByPrefix pre =>
    show txn.Grows (txn.deleteByPrefix db env pre).1
    unfold deleteByPrefix
    split
    · exact ⟨rfl, rfl, rfl⟩
    · rename_i keys _
      have h := validateAll_grows (txn.addReadKeys keys) keys
      split
      · rename_i hv
        rw [hv] at h
        exact ⟨h.readTs, h.commitTs, h.discarded⟩
      · rename_i hv
        rw [hv] at h
        exact ⟨h.readTs, h.commitTs, h.discarded⟩
  | addWriteKey key => exact ⟨rfl, rfl, rfl⟩
  | _ => exact buffer_grows ..

/-- A read leaves the sub-commands as they are. -/
theorem read_subCommands (txn : Txn) (db : Store) (env : Env) (q : Query) :
    (txn.read db env q).1.subCommands = txn.subCommands := by
  unfold read
  split
  · rfl
  · rfl

/-- The loop of `DeleteByPrefix` leaves the sub-commands as they are. -/
theorem validateAll_subCommands (txn : Txn) (keys : List Key) :
    (txn.validateAll keys).1.subCommands = txn.subCommands := by
  induction keys generalizing txn with
  | nil => rfl
  | cons key keys ih =>
    unfold validateAll
    split
    · rfl
    · rename_i txn' hv
      rw [ih, validate_eq_ok hv]

/-- Buffering adds the sub-command or leaves the sub-commands as they are. -/
theorem buffer_subCommands (txn : Txn) (key : Key) (c : Except Err SubCommand) :
    (txn.buffer key c).1.subCommands = txn.subCommands ∨
      ∃ sub, c.toOption = some sub ∧
        (txn.buffer key c).1.subCommands = txn.subCommands ++ [sub] := by
  obtain h | ⟨txn', hv, h | ⟨sub, rfl, h⟩⟩ := buffer_cases txn key c
  · rw [h]
    exact .inl rfl
  · rw [h, validate_eq_ok hv]
    exact .inl rfl
  · rw [h, validate_eq_ok hv]
    exact .inr ⟨sub, rfl, rfl⟩

/-- `DeleteByPrefix` adds its sub-command or leaves the sub-commands as they are. -/
theorem deleteByPrefix_subCommands (txn : Txn) (db : Store) (env : Env) (pre : Bytes) :
    (txn.deleteByPrefix db env pre).1.subCommands = txn.subCommands ∨
      (txn.deleteByPrefix db env pre).1.subCommands = txn.subCommands ++ [.deleteByPrefix pre] := by
  unfold deleteByPrefix
  split
  · exact .inl rfl
  · rename_i keys _
    have h := validateAll_subCommands (txn.addReadKeys keys) keys
    split
    · rename_i hv
      rw [hv] at h
      exact .inl h
    · rename_i hv
      rw [hv] at h
      exact .inr (congrArg (· ++ [SubCommand.deleteByPrefix pre]) h)

/-- A write adds its sub-command or leaves the sub-commands as they are. -/
theorem write_subCommands (txn : Txn) (db : Store) (env : Env) (op : WriteOp) :
    (txn.write db env op).1.subCommands = txn.subCommands ∨
      ∃ sub, op.subCommand = some sub ∧
        (txn.write db env op).1.subCommands = txn.subCommands ++ [sub] := by
  cases op with
  | deleteByPrefix pre =>
    refine (deleteByPrefix_subCommands txn db env pre).imp_right fun h => ?_
    exact ⟨.deleteByPrefix pre, rfl, h⟩
  | addWriteKey key => exact .inl rfl
  | _ => exact buffer_subCommands ..

/-- Every key that a sub-command may write is among the keys of the conflict check. -/
def Covered (txn : Txn) : Prop :=
  ∀ sub ∈ txn.subCommands, ∀ k, sub.Touches k → k ∈ txn.conflictKeys

/-- Buffering a sub-command of the validated key keeps the written keys covered. -/
theorem Covered.buffer {txn : Txn} (h : txn.Covered) {key : Key} {c : Except Err SubCommand}
    (hc : ∀ sub, c = .ok sub → ∀ k, sub.Touches k → key = k) : (txn.buffer key c).1.Covered := by
  -- `validate` only adds to the conflict set.
  have hvalid : ∀ txn', txn.validate key = .ok txn' → txn'.Covered := by
    intro txn' hv sub hsub k hk
    rw [validate_eq_ok hv] at hsub ⊢
    exact Finset.mem_insert_of_mem (h sub hsub k hk)
  obtain heq | ⟨txn', hv, heq | ⟨sub, hsub, heq⟩⟩ := buffer_cases txn key c
  · rw [heq]
    exact h
  · rw [heq]
    exact hvalid txn' hv
  · rw [heq]
    intro sub' hsub' k hk
    rcases List.mem_append.mp hsub' with hmem | hmem
    · exact hvalid txn' hv sub' hmem k hk
    · -- The new sub-command writes the key that has just been validated.
      rw [List.mem_singleton.mp hmem] at hk
      rw [← hc sub hsub k hk, validate_eq_ok hv]
      exact Finset.mem_insert_self _ _

/-- Every write but that of a prefix keeps the written keys covered. -/
theorem Covered.write {txn : Txn} (h : txn.Covered) (db : Store) (env : Env) {op : WriteOp}
    (hop : ∀ pre, op ≠ .deleteByPrefix pre) : (txn.write db env op).1.Covered := by
  cases op with
  | deleteByPrefix pre => exact absurd rfl (hop pre)
  | addWriteKey key => exact h
  | updateJson key delta ttl =>
    apply h.buffer
    intro sub hsub k hk
    cases delta with
    | error e => simp [Except.map] at hsub
    | ok b =>
      obtain rfl := Except.ok.inj hsub
      exact hk
  | updateProtobuf key delta messageName valid ttl =>
    apply h.buffer
    intro sub hsub k hk
    unfold protobufUpdate at hsub
    split at hsub
    · simp at hsub
    · split_ifs at hsub
      obtain rfl := Except.ok.inj hsub
      exact hk
  | _ =>
    apply h.buffer
    intro sub hsub k hk
    obtain rfl := Except.ok.inj hsub
    exact hk

/-- A read keeps the written keys covered. -/
theorem Covered.read {txn : Txn} (h : txn.Covered) (db : Store) (env : Env) (q : Query) :
    (txn.read db env q).1.Covered := by
  unfold Txn.read
  split
  · exact h
  · exact h

end Txn

end Omashu
