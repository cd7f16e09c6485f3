import Omashu.Lib.Lift
import Omashu.Store.Badger

/-!
# Commands and the state machine

A command of the Raft log (`types/types.proto`) is one operation, or a transaction of several, with
the timestamp it reads at and the one it commits at. `Fsm.apply` is `FSM.Apply` of `fsm.go`: it
opens a managed transaction at the read timestamp, performs the operations, and commits them at the
commit timestamp. The switch of `applyTransaction` knows every kind of sub-command but
`DELETE_BY_PREFIX`.

The merge of an `UPDATE` delta into the stored value is the work of a JSON or Protobuf codec, which
the model takes as a parameter (`Merge`).

`apply_spec` is what the rest of the development uses: applying a command installs writes at its
commit timestamp, on keys that it touches, and changes nothing else.
-/

namespace Omashu

open Lib

/-- `UpdateDeltaType`. -/
inductive UpdateDeltaType
  | unknownDelta
  | json
  | protobuf
  deriving DecidableEq, Repr

/-- The operation of a `types.Command` that is not a transaction. -/
inductive SubCommand
  | set (key : Key) (value : Bytes) (ttl : Option ℤ)
  | update (key : Key) (delta : Bytes) (deltaType : UpdateDeltaType) (messageName : Bytes)
    (ttl : Option ℤ)
  | delete (key : Key)
  | deleteByPrefix (pre : Bytes)
  | incrBy (key : Key) (delta : UInt64)
  | decrBy (key : Key) (delta : UInt64)
  | unknown
  deriving DecidableEq, Repr

/-- What a command does: one operation, or a `TRANSACTION` of several. -/
inductive Body
  /-- One operation. -/
  | single (c : SubCommand)
  | transaction (subCommands : List SubCommand)
  deriving DecidableEq, Repr

/-- A command of the Raft log. -/
structure Command where
  /-- The timestamp it reads at. -/
  readTs : ℕ
  /-- The timestamp it commits at. -/
  commitTs : ℕ
  /-- What it does. -/
  body : Body
  deriving DecidableEq, Repr

/-- The keys that an operation may write. -/
def SubCommand.Touches (k : Key) : SubCommand → Prop
  | .set key .. => key = k
  | .update key .. => key = k
  | .delete key => key = k
  | .deleteByPrefix pre => pre <+: k
  | .incrBy key _ => key = k
  | .decrBy key _ => key = k
  | .unknown => False

instance (k : Key) : (c : SubCommand) → Decidable (c.Touches k)
  | .set key .. => inferInstanceAs (Decidable (key = k))
  | .update key .. => inferInstanceAs (Decidable (key = k))
  | .delete key => inferInstanceAs (Decidable (key = k))
  | .deleteByPrefix pre => inferInstanceAs (Decidable (pre <+: k))
  | .incrBy key _ => inferInstanceAs (Decidable (key = k))
  | .decrBy key _ => inferInstanceAs (Decidable (key = k))
  | .unknown => inferInstanceAs (Decidable False)

/-- The operations of a command. -/
def Body.subCommands : Body → List SubCommand
  | .single c => [c]
  | .transaction cs => cs

/-- The keys that a command may write. -/
def Command.Touches (k : Key) (c : Command) : Prop := ∃ sub ∈ c.body.subCommands, sub.Touches k

instance (k : Key) (c : Command) : Decidable (c.Touches k) :=
  inferInstanceAs (Decidable (∃ sub ∈ c.body.subCommands, sub.Touches k))

/-- The strings of an operation are valid UTF-8. -/
def SubCommand.encodable : SubCommand → Bool
  | .set key .. => utf8Valid key
  | .update key _ _ messageName _ => utf8Valid key && utf8Valid messageName
  | .delete key => utf8Valid key
  | .deleteByPrefix pre => utf8Valid pre
  | .incrBy key _ => utf8Valid key
  | .decrBy key _ => utf8Valid key
  | .unknown => true

/-- `Command.Encode`: Protobuf rejects strings that are not valid UTF-8, and otherwise
`DecodeCommand` gives the command back, so a command stands for its encoding. -/
def Command.encode (c : Command) : Except Err Command :=
  if c.body.subCommands.all SubCommand.encodable then .ok c else .error .malformed

/-- The codecs behind `UPDATE`. -/
structure Merge where
  /-- `UnmarshalUpdateDelta`: whether the delta decodes, given its type and message name. -/
  unmarshalUpdateDelta : UpdateDeltaType → Bytes → Bytes → Except Err Unit
  /-- The stored JSON document, if any, with the delta merged in. -/
  json : Option Bytes → Bytes → Except Err Bytes
  /-- The stored message, if any, of the given name, with the delta merged in. -/
  protobuf : Bytes → Option Bytes → Bytes → Except Err Bytes

/-- Codecs that reject every delta. -/
def rejectDeltas : Merge where
  unmarshalUpdateDelta _ _ _ := .error .malformed
  json _ _ := .error .malformed
  protobuf _ _ _ := .error .malformed

/-- The surroundings of an operation whose context is never done. -/
def someEnv : Env := ⟨0, none⟩

namespace Fsm

variable (M : Merge)

/-- `Badger.UpdateJsonWithTxn`. -/
def updateJsonWithTxn (env : Env) (txn : BTxn) (key : Key) (delta : Bytes) (ttl : Option ℤ) :
    Except Err BTxn := do
  let stored ← txn.getWithTxn env key
  let merged ← M.json stored delta
  txn.setWithTxn env key merged ttl

/-- `Badger.UpdateProtobufWithTxn`. -/
def updateProtobufWithTxn (env : Env) (txn : BTxn) (key : Key) (messageName delta : Bytes)
    (ttl : Option ℤ) : Except Err BTxn := do
  let stored ← txn.getWithTxn env key
  let merged ← M.protobuf messageName stored delta
  txn.setWithTxn env key merged ttl

/-- The switch on the delta type of an `UPDATE`, which `applyUpdate` and `applyTransaction`
share. -/
def updateWithTxn (env : Env) (txn : BTxn) (key : Key) (delta : Bytes) (deltaType : UpdateDeltaType)
    (messageName : Bytes) (ttl : Option ℤ) : Except Err BTxn :=
  match deltaType with
  | .protobuf => do
    M.unmarshalUpdateDelta deltaType messageName delta
    updateProtobufWithTxn M env txn key messageName delta ttl
  | .json => do
    M.unmarshalUpdateDelta deltaType messageName delta
    updateJsonWithTxn M env txn key delta ttl
  | .unknownDelta => .error .unknownOp

/-- One turn of the loop of `applyTransaction`. -/
def applySub (env : Env) (txn : BTxn) : SubCommand → Except Err BTxn
  | .set key value ttl => txn.setWithTxn env key value ttl
  | .update key delta deltaType messageName ttl =>
    updateWithTxn M env txn key delta deltaType messageName ttl
  | .delete key => txn.deleteWithTxn key
  | .incrBy key delta => txn.incrByWithTxn env key delta
  | .decrBy key delta => txn.decrByWithTxn env key delta
  -- The switch has no case for a prefix deletion.
  | .deleteByPrefix _ => .error .unknownOp
  | .unknown => .error .unknownOp

/-- The loop of `applyTransaction`. -/
def applySubs (env : Env) (txn : BTxn) : List SubCommand → Except Err BTxn
  | [] => .ok txn
  | c :: cs => do applySubs env (← applySub M env txn c) cs

/-- `applySet`. -/
def applySet (db : Store) (env : Env) (readTs commitTs : ℕ) (key : Key) (value : Bytes)
    (ttl : Option ℤ) : Except Err Store :=
  db.newTransactionAt readTs commitTs fun txn => txn.setWithTxn env key value ttl

/-- `applyUpdate`. -/
def applyUpdate (db : Store) (env : Env) (readTs commitTs : ℕ) (key : Key) (delta : Bytes)
    (deltaType : UpdateDeltaType) (messageName : Bytes) (ttl : Option ℤ) : Except Err Store :=
  db.newTransactionAt readTs commitTs fun txn =>
    updateWithTxn M env txn key delta deltaType messageName ttl

/-- `applyDelete`. -/
def applyDelete (db : Store) (readTs commitTs : ℕ) (key : Key) : Except Err Store :=
  db.newTransactionAt readTs commitTs fun txn => txn.deleteWithTxn key

/-- `applyDeleteByPrefix`. -/
def applyDeleteByPrefix (db : Store) (env : Env) (readTs commitTs : ℕ) (pre : Bytes) :
    Except Err Store :=
  db.newTransactionAt readTs commitTs fun txn => txn.deleteByPrefixWithTxn env pre

/-- `applyIncrBy`. -/
def applyIncrBy (db : Store) (env : Env) (readTs commitTs : ℕ) (key : Key) (delta : UInt64) :
    Except Err Store :=
  db.newTransactionAt readTs commitTs fun txn => txn.incrByWithTxn env key delta

/-- `applyDecrBy`. -/
def applyDecrBy (db : Store) (env : Env) (readTs commitTs : ℕ) (key : Key) (delta : UInt64) :
    Except Err Store :=
  db.newTransactionAt readTs commitTs fun txn => txn.decrByWithTxn env key delta

/-- `applyTransaction`. -/
def applyTransaction (db : Store) (env : Env) (readTs commitTs : ℕ) (subs : List SubCommand) :
    Except Err Store :=
  db.newTransactionAt readTs commitTs fun txn => applySubs M env txn subs

/-- `FSM.Apply` on a decoded command. -/
def apply (db : Store) (env : Env) (c : Command) : Except Err Store :=
  match c.body with
  | .single (.set key value ttl) => applySet db env c.readTs c.commitTs key value ttl
  | .single (.update key delta deltaType messageName ttl) =>
    applyUpdate M db env c.readTs c.commitTs key delta deltaType messageName ttl
  | .single (.delete key) => applyDelete db c.readTs c.commitTs key
  | .single (.deleteByPrefix pre) => applyDeleteByPrefix db env c.readTs c.commitTs pre
  | .single (.incrBy key delta) => applyIncrBy db env c.readTs c.commitTs key delta
  | .single (.decrBy key delta) => applyDecrBy db env c.readTs c.commitTs key delta
  | .single .unknown => .error .unknownOp
  | .transaction subs => applyTransaction M db env c.readTs c.commitTs subs

/-! ## What an application writes -/

/-- `txn'` is `txn` after more pending writes, of keys with the property `T`. -/
def Extends (T : Key → Prop) (txn txn' : BTxn) : Prop :=
  txn'.db = txn.db ∧ txn'.readTs = txn.readTs ∧
    ∃ ws, txn'.pendingWrites = ws ++ txn.pendingWrites ∧ ∀ w ∈ ws, T w.1

/-- No write at all. -/
theorem Extends.refl (T : Key → Prop) (txn : BTxn) : Extends T txn txn :=
  ⟨rfl, rfl, [], rfl, by simp⟩

/-- Writes one after the other. -/
theorem Extends.trans {T : Key → Prop} {txn txn' txn'' : BTxn} (h : Extends T txn txn')
    (h' : Extends T txn' txn'') : Extends T txn txn'' := by
  obtain ⟨hdb, hts, ws, hws, hT⟩ := h
  obtain ⟨hdb', hts', ws', hws', hT'⟩ := h'
  refine ⟨hdb'.trans hdb, hts'.trans hts, ws' ++ ws, by rw [hws', hws, List.append_assoc], ?_⟩
  intro w hw
  rcases List.mem_append.mp hw with hw | hw
  · exact hT' w hw
  · exact hT w hw

/-- A weaker property of the written keys. -/
theorem Extends.mono {T T' : Key → Prop} {txn txn' : BTxn} (h : Extends T txn txn')
    (hT : ∀ k, T k → T' k) : Extends T' txn txn' := by
  obtain ⟨hdb, hts, ws, hws, hw⟩ := h
  exact ⟨hdb, hts, ws, hws, fun w hm => hT _ (hw w hm)⟩

/-- Writes of other keys leave the latest write of a key. -/
theorem Extends.latest_eq {T : Key → Prop} {txn txn' : BTxn} {k : Key} (h : Extends T txn txn')
    (hk : ¬T k) : Versions.latest txn'.pendingWrites k = Versions.latest txn.pendingWrites k := by
  obtain ⟨-, -, ws, hws, hT⟩ := h
  have hnone : Versions.latest ws k = none :=
    Versions.latest_eq_none_iff.mpr fun w hw heq => hk (heq ▸ hT w hw)
  rw [hws, Versions.latest_append, hnone, Option.none_or]

/-- A pending write is of its own key. -/
theorem modify_extends {txn txn' : BTxn} {key : Key} {e : Entry} (h : txn.modify key e = .ok txn') :
    Extends (key = ·) txn txn' := by
  unfold BTxn.modify at h
  cases hc : BTxn.checkKey key with
  | error err => simp [hc, bind, Except.bind] at h
  | ok _ =>
    obtain rfl : { txn with pendingWrites := (key, e) :: txn.pendingWrites } = txn' := by
      simpa [hc, bind, Except.bind, pure, Except.pure] using h
    exact ⟨rfl, rfl, [(key, e)], rfl, by simp⟩

/-- A set writes its own key. -/
theorem setWithTxn_extends {txn txn' : BTxn} {env : Env} {key : Key} {value : Bytes}
    {ttl : Option ℤ} (h : txn.setWithTxn env key value ttl = .ok txn') :
    Extends (key = ·) txn txn' := by
  cases ttl with
  | none | some => exact modify_extends h

/-- An increment writes its own key. -/
theorem incrByWithTxn_extends {txn txn' : BTxn} {env : Env} {key : Key} {delta : UInt64}
    (h : txn.incrByWithTxn env key delta = .ok txn') : Extends (key = ·) txn txn' := by
  obtain ⟨b, -, h⟩ := bind_eq_ok h
  split at h
  · split at h
    · exact absurd h (by simp)
    · exact setWithTxn_extends h
  · exact setWithTxn_extends h

/-- A decrement writes its own key. -/
theorem decrByWithTxn_extends {txn txn' : BTxn} {env : Env} {key : Key} {delta : UInt64}
    (h : txn.decrByWithTxn env key delta = .ok txn') : Extends (key = ·) txn txn' := by
  obtain ⟨b, -, h⟩ := bind_eq_ok h
  split at h
  · split at h
    · exact absurd h (by simp)
    · exact setWithTxn_extends h
  · exact setWithTxn_extends h

variable {M}

/-- An update writes its own key. -/
theorem updateWithTxn_extends {txn txn' : BTxn} {env : Env} {key : Key} {delta : Bytes}
    {deltaType : UpdateDeltaType} {messageName : Bytes} {ttl : Option ℤ}
    (h : updateWithTxn M env txn key delta deltaType messageName ttl = .ok txn') :
    Extends (key = ·) txn txn' := by
  cases deltaType with
  | unknownDelta => exact absurd h (by simp [updateWithTxn])
  | json | protobuf =>
    obtain ⟨_, -, h⟩ := bind_eq_ok h
    obtain ⟨stored, -, h⟩ := bind_eq_ok h
    obtain ⟨merged, -, h⟩ := bind_eq_ok h
    exact setWithTxn_extends h

/-- Deleting a list of keys writes those keys. -/
theorem deleteKeys_extends {txn txn' : BTxn} {keys : List Key}
    (h : txn.deleteKeys keys = .ok txn') : Extends (· ∈ keys) txn txn' := by
  induction keys generalizing txn with
  | nil =>
    obtain rfl : txn = txn' := by simpa [BTxn.deleteKeys] using h
    exact Extends.refl _ _
  | cons k keys ih =>
    obtain ⟨txn₁, h₁, h⟩ := bind_eq_ok h
    refine Extends.trans (Extends.mono (modify_extends h₁) ?_) (Extends.mono (ih h) ?_)
    · rintro _ rfl
      exact List.mem_cons_self
    · intro k' hk'
      exact List.mem_cons_of_mem _ hk'

/-- A prefix deletion writes only keys with the prefix. -/
theorem deleteByPrefixWithTxn_extends {txn txn' : BTxn} {env : Env} {pre : Bytes}
    (h : txn.deleteByPrefixWithTxn env pre = .ok txn') : Extends (pre <+: ·) txn txn' := by
  refine Extends.mono (deleteKeys_extends h) ?_
  intro k hk
  exact isPrefix_of_mem_scan (BTxn.mem_scan_of_mem_keysVisited hk)

/-- A sub-command of a transaction writes only keys it touches. -/
theorem applySub_extends {txn txn' : BTxn} {env : Env} {c : SubCommand}
    (h : applySub M env txn c = .ok txn') : Extends (fun k => c.Touches k) txn txn' := by
  cases c with
  | set key value ttl => exact setWithTxn_extends h
  | update key delta deltaType messageName ttl => exact updateWithTxn_extends h
  | delete key => exact modify_extends h
  | deleteByPrefix pre => exact absurd h (by simp [applySub])
  | incrBy key delta => exact incrByWithTxn_extends h
  | decrBy key delta => exact decrByWithTxn_extends h
  | unknown => exact absurd h (by simp [applySub])

/-- The sub-commands of a transaction write only keys that one of them touches. -/
theorem applySubs_extends {txn txn' : BTxn} {env : Env} {cs : List SubCommand}
    (h : applySubs M env txn cs = .ok txn') :
    Extends (fun k => ∃ c ∈ cs, c.Touches k) txn txn' := by
  induction cs generalizing txn with
  | nil =>
    obtain rfl : txn = txn' := by simpa [applySubs] using h
    exact Extends.refl _ _
  | cons c cs ih =>
    obtain ⟨txn₁, h₁, h⟩ := bind_eq_ok h
    refine Extends.trans (Extends.mono (applySub_extends h₁) ?_) (Extends.mono (ih h) ?_)
    · intro k hk
      exact ⟨c, List.mem_cons_self, hk⟩
    · rintro k ⟨c', hc', hk⟩
      exact ⟨c', List.mem_cons_of_mem _ hc', hk⟩

/-- The operations of a command, in the transaction that `apply` opens for it. -/
def perform (M : Merge) (env : Env) (txn : BTxn) : Body → Except Err BTxn
  | .single (.deleteByPrefix pre) => txn.deleteByPrefixWithTxn env pre
  | .single c => applySub M env txn c
  | .transaction cs => applySubs M env txn cs

/-- But for a prefix deletion, an operation is performed as in a transaction. -/
theorem perform_single {env : Env} {txn : BTxn} {c : SubCommand}
    (h : ∀ pre, c ≠ .deleteByPrefix pre) :
    perform M env txn (.single c) = applySub M env txn c := by
  cases c with
  | deleteByPrefix pre => exact absurd rfl (h pre)
  | _ => rfl

/-- But for a prefix deletion, the operations of a command are performed as in a transaction. -/
theorem perform_eq_applySubs {env : Env} {txn : BTxn} {b : Body}
    (h : ∀ pre, b ≠ .single (.deleteByPrefix pre)) :
    perform M env txn b = applySubs M env txn b.subCommands := by
  cases b with
  | transaction cs => rfl
  | single c =>
    rw [perform_single fun pre hc => h pre (congrArg Body.single hc)]
    exact (bind_pure _).symm

/-- Every command is applied in one managed transaction at its timestamps. -/
theorem apply_eq_newTransactionAt (db : Store) (env : Env) (c : Command) :
    apply M db env c = db.newTransactionAt c.readTs c.commitTs fun txn => perform M env txn c.body := by
  obtain ⟨readTs, commitTs, body⟩ := c
  cases body with
  | single c => cases c <;> rfl
  | transaction cs => rfl

/-- The operations of a command write only keys that one of them touches. -/
theorem perform_extends {txn txn' : BTxn} {env : Env} {b : Body}
    (h : perform M env txn b = .ok txn') :
    Extends (fun k => ∃ c ∈ b.subCommands, c.Touches k) txn txn' := by
  cases b with
  | transaction cs => exact applySubs_extends h
  | single c =>
    simp only [Body.subCommands, List.mem_singleton, exists_eq_left]
    cases c with
    | deleteByPrefix pre => exact deleteByPrefixWithTxn_extends h
    | _ =>
      rw [perform_single (by simp)] at h
      exact applySub_extends h

/-- Applying a command installs writes at its commit timestamp, of keys that it touches, and leaves
every other version as it is. -/
theorem apply_spec {db db' : Store} {env : Env} {c : Command} (h : apply M db env c = .ok db') :
    ∃ ws, db' = Versions.install db c.commitTs ws ∧ ∀ w ∈ ws, c.Touches w.1 := by
  rw [apply_eq_newTransactionAt] at h
  unfold Store.newTransactionAt at h
  obtain ⟨txn, hp, rfl⟩ := map_eq_ok h
  obtain ⟨hdb, -, ws, hws, hT⟩ := perform_extends hp
  refine ⟨ws, ?_, hT⟩
  rw [BTxn.commitAt, hws, hdb]
  simp [BTxn.newTransactionAt]

/-- A command leaves the versions below its commit timestamp as they are. -/
theorem visible_apply_of_lt {db db' : Store} {env : Env} {c : Command} {k : Key} {r : ℕ}
    (h : apply M db env c = .ok db') (hr : r < c.commitTs) :
    Versions.visible db' k r = Versions.visible db k r := by
  obtain ⟨ws, rfl, -⟩ := apply_spec h
  exact Versions.visible_install_of_lt hr

/-- A command leaves the keys that it does not touch as they are. -/
theorem visible_apply_of_not_touches {db db' : Store} {env : Env} {c : Command} {k : Key} {r : ℕ}
    (h : apply M db env c = .ok db') (hk : ¬c.Touches k) :
    Versions.visible db' k r = Versions.visible db k r := by
  obtain ⟨ws, rfl, hT⟩ := apply_spec h
  apply Versions.visible_install_of_notMem
  rintro w hw rfl
  exact hk (hT w hw)

/-- A version after an application is an old one, or was written by the command. -/
theorem mem_apply {db db' : Store} {env : Env} {c : Command} {x : Version Key Entry}
    (h : apply M db env c = .ok db') (hx : x ∈ db') :
    (x.ts = c.commitTs ∧ c.Touches x.key) ∨ x ∈ db := by
  obtain ⟨ws, rfl, hT⟩ := apply_spec h
  rcases Versions.mem_install hx with ⟨hts, w, hw, hk, -⟩ | hx
  · exact .inl ⟨hts, hk ▸ hT w hw⟩
  · exact .inr hx

/-! ## A single operation and a transaction of one -/

/-- Deleting keys fails only where a key does not pass the checks of `txn.modify`. -/
theorem deleteKeys_ne_unknownOp (txn : BTxn) (keys : List Key) :
    txn.deleteKeys keys ≠ .error .unknownOp := by
  induction keys generalizing txn with
  | nil => exact fun h => nomatch h
  | cons k keys ih =>
    intro h
    have hk : txn.deleteWithTxn k ≠ .error .unknownOp := by
      unfold BTxn.deleteWithTxn BTxn.modify BTxn.checkKey
      split_ifs <;> exact fun h => nomatch h
    unfold BTxn.deleteKeys at h
    cases hd : txn.deleteWithTxn k with
    | error e =>
      rw [hd] at h hk
      exact hk h
    | ok txn' =>
      rw [hd] at h
      exact ih txn' h

/-- The two paths do the same exactly for the operations that the switch of `applyTransaction`
knows. -/
theorem apply_single_eq_transaction_iff (M : Merge) (db : Store) (env : Env) (readTs commitTs : ℕ)
    (sub : SubCommand) :
    apply M db env ⟨readTs, commitTs, .single sub⟩ =
        apply M db env ⟨readTs, commitTs, .transaction [sub]⟩ ↔
      ∀ pre, sub ≠ .deleteByPrefix pre := by
  rw [apply_eq_newTransactionAt, apply_eq_newTransactionAt]
  unfold Store.newTransactionAt
  dsimp only
  constructor
  · rintro h pre rfl
    have hsingle : perform M env (BTxn.newTransactionAt db readTs) (.single (.deleteByPrefix pre)) =
        (BTxn.newTransactionAt db readTs).deleteByPrefixWithTxn env pre := rfl
    have htransaction : perform M env (BTxn.newTransactionAt db readTs)
        (.transaction [.deleteByPrefix pre]) = .error .unknownOp := rfl
    rw [hsingle, htransaction] at h
    -- A prefix deletion never returns `ErrUnknownOp`.
    cases hd : (BTxn.newTransactionAt db readTs).deleteByPrefixWithTxn env pre with
    | ok txn =>
      rw [hd] at h
      exact absurd h (by simp [Except.map])
    | error e =>
      rw [hd] at h
      obtain rfl : e = .unknownOp := by simpa [Except.map] using h
      exact deleteKeys_ne_unknownOp _ _ hd
  · intro h
    rw [perform_eq_applySubs fun pre hb => h pre (Body.single.inj hb)]
    rfl

/-- A prefix deletion deletes the key when it is applied alone, and fails in a transaction. -/
theorem deleteByPrefix_single_ne_transaction :
    apply rejectDeltas [⟨[1], 1, .value [7] 0⟩] someEnv ⟨1, 2, .single (.deleteByPrefix [1])⟩ =
        .ok [⟨[1], 2, .tombstone⟩, ⟨[1], 1, .value [7] 0⟩] ∧
      apply rejectDeltas [⟨[1], 1, .value [7] 0⟩] someEnv
          ⟨1, 2, .transaction [.deleteByPrefix [1]]⟩ = .error .unknownOp := by
  decide +kernel

end Fsm

end Omashu
