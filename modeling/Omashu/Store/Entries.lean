import Omashu.Store.Encoding
import Omashu.Store.Fsm

/-!
# Entries of the log

`FSM.Apply` (`fsm.go`) is given the bytes of an entry. It decodes them and goes by the number of the command
type. The rest of the development has commands with the fields of their type alone (`Command`), as the
constructors of `types/methods.go` build them. Here are both levels and how they fit together: `toMessage`
builds the message of a command as the leader does, and `applyData` applies the bytes of an entry.

`applyData_marshal` is the connection. The encoding of a command fails exactly where `Command.encode` says so,
and otherwise a replica that applies the bytes does what `Fsm.apply` does with the command, so that nothing of
a command is lost on the way to the replicas: neither a time to live, which is split into seconds and
nanoseconds, nor a timestamp, nor the order of the sub-commands.

`decodeCommand_unknown_fields` is about entries of a later version of the format. Fields that a command does not have
do not change what a replica does, and are kept by the command that is decoded.
-/

namespace Omashu

open Lib

/-! ## Durations -/

/-- `durationpb.New`, of a number of nanoseconds. -/
def Duration.new (d : Int64) : Duration := ⟨d / 1000000000, (d - d / 1000000000 * 1000000000).toInt32, []⟩

/-- The seconds and the nanoseconds as one number, which may wrap around. -/
def Duration.sum (x : Duration) : Int64 := x.seconds * 1000000000 + x.nanos.toInt64

/-- The check for an overflow in `Duration.AsDuration`. -/
def Duration.overflow (x : Duration) : Bool :=
  x.seconds * 1000000000 / 1000000000 != x.seconds ||
    (x.seconds < 0 && x.nanos < 0 && 0 < x.sum) || (0 < x.seconds && 0 < x.nanos && x.sum < 0)

/-- `Duration.AsDuration`: the duration in nanoseconds, or the nearest that there is. -/
def Duration.asDuration (x : Duration) : Int64 :=
  if x.overflow && x.seconds < 0 then Int64.minValue
  else if x.overflow && 0 < x.seconds then Int64.maxValue
  else x.sum

/-- A number in the range of the type is its own residue. -/
theorem bmod_of_int64 {n : ℤ} (h : -2^63 ≤ n) (h' : n < 2^63) : n.bmod (2^64) = n :=
  Int.bmod_eq_of_le (by omega) (by omega)

/-- A billion, as a number of 64 bits. -/
theorem toInt_billion : (1000000000 : Int64).toInt = 1000000000 := by decide

/-- The rest of a number, with the sign of the number. -/
theorem tmod_billion (n : ℤ) :
    (0 ≤ n → 0 ≤ n.tmod 1000000000) ∧ (n ≤ 0 → n.tmod 1000000000 ≤ 0) ∧
      -1000000000 < n.tmod 1000000000 ∧ n.tmod 1000000000 < 1000000000 := by
  refine ⟨Int.tmod_nonneg _, ?_, Int.lt_tmod_of_pos n (by decide), Int.tmod_lt_of_pos n (by decide)⟩
  intro h
  have hneg : 0 ≤ (-n).tmod 1000000000 := Int.tmod_nonneg _ (by omega)
  rw [Int.neg_tmod] at hneg
  omega

/-- The whole seconds of a duration, their nanoseconds and the rest, as integers. -/
theorem Duration.toInt_new (d : Int64) :
    (new d).seconds.toInt = d.toInt.tdiv 1000000000 ∧
    ((new d).seconds * 1000000000).toInt = d.toInt.tdiv 1000000000 * 1000000000 ∧
    (new d).nanos.toInt = d.toInt.tmod 1000000000 := by
  have hlt := d.toInt_lt
  have hle := d.le_toInt
  have hsplit := Int.mul_tdiv_add_tmod d.toInt 1000000000
  obtain ⟨hnonneg, hnonpos, hlower, hupper⟩ := tmod_billion d.toInt
  have hseconds : (d / 1000000000).toInt = d.toInt.tdiv 1000000000 := by
    rw [Int64.toInt_div, toInt_billion]
    exact bmod_of_int64 (by omega) (by omega)
  have hwhole : (d / 1000000000 * 1000000000).toInt = d.toInt.tdiv 1000000000 * 1000000000 := by
    rw [Int64.toInt_mul, hseconds, toInt_billion]
    exact bmod_of_int64 (by omega) (by omega)
  refine ⟨hseconds, hwhole, ?_⟩
  show (d - d / 1000000000 * 1000000000).toInt32.toInt = _
  rw [Int64.toInt_toInt32, Int64.toInt_sub, hwhole, bmod_of_int64 (by omega) (by omega),
    Int.bmod_eq_of_le (by omega) (by omega)]
  omega

/-- The seconds and the nanoseconds add up again. -/
theorem Duration.sum_new (d : Int64) : (new d).sum = d := by
  obtain ⟨-, hwhole, hnanos⟩ := toInt_new d
  have hlt := d.toInt_lt
  have hle := d.le_toInt
  have hsplit := Int.mul_tdiv_add_tmod d.toInt 1000000000
  rw [sum, ← Int64.toInt_inj, Int64.toInt_add, hwhole, Int32.toInt_toInt64, hnanos,
    bmod_of_int64 (by omega) (by omega)]
  omega

/-- A duration in nanoseconds is no overflow. -/
theorem Duration.overflow_new (d : Int64) : (new d).overflow = false := by
  obtain ⟨hseconds, hwhole, hnanos⟩ := toInt_new d
  have hsplit := Int.mul_tdiv_add_tmod d.toInt 1000000000
  have hlt := d.toInt_lt
  have hle := d.le_toInt
  obtain ⟨hnonneg, hnonpos, hlower, hupper⟩ := tmod_billion d.toInt
  have hback : (new d).seconds * 1000000000 / 1000000000 = (new d).seconds := by
    rw [← Int64.toInt_inj, Int64.toInt_div, hwhole, toInt_billion, Int.mul_tdiv_cancel _ (by decide), hseconds]
    exact bmod_of_int64 (by omega) (by omega)
  simp only [overflow, hback, sum_new, bne_self_eq_false, Bool.false_or, Bool.or_eq_false_iff, Bool.and_eq_false_iff,
    decide_eq_false_iff_not, Int64.lt_iff_toInt_lt, Int32.lt_iff_toInt_lt, hseconds, hnanos, Int64.toInt_zero,
    Int32.toInt_zero]
  omega

/-- A duration comes back from its message. -/
theorem Duration.asDuration_new (d : Int64) : (new d).asDuration = d := by
  simp [asDuration, overflow_new, sum_new]

/-! ## Messages of commands -/

/-- `CommandType`. -/
inductive CommandType
  | unknown
  | set
  | delete
  | decrBy
  | incrBy
  | transaction
  | deleteByPrefix
  | update
  deriving DecidableEq, Repr

/-- The number of a command type. -/
def CommandType.number : CommandType → Int32
  | .unknown => 0
  | .set => 1
  | .delete => 2
  | .decrBy => 3
  | .incrBy => 4
  | .transaction => 5
  | .deleteByPrefix => 6
  | .update => 7

/-- The command type of a number. Every switch treats a number without a name as `UNKNOWN`. -/
def CommandType.ofNumber (n : Int32) : CommandType :=
  ([set, delete, decrBy, incrBy, transaction, deleteByPrefix, update].find? fun t => t.number = n).getD unknown

/-- The number of a delta type. -/
def UpdateDeltaType.number : UpdateDeltaType → Int32
  | .unknownDelta => 0
  | .json => 1
  | .protobuf => 2

/-- The delta type of a number. The switches treat a number without a name as `UNKNOWN_DELTA`. -/
def UpdateDeltaType.ofNumber (n : Int32) : UpdateDeltaType :=
  ([json, protobuf].find? fun t => t.number = n).getD unknownDelta

/-- A delta type is known by its number. -/
@[simp]
theorem UpdateDeltaType.ofNumber_number (t : UpdateDeltaType) : ofNumber t.number = t := by
  cases t <;> decide

namespace CommandFields

/-- The optional time to live of a constructor. -/
def ofTtl (ttl : Option ℤ) : Option Duration := ttl.map fun d => Duration.new (Int64.ofInt d)

/-- `NewSetCommand`. -/
def newSetCommand (id : Bytes) (key : Key) (value : Bytes) (ttl : Option ℤ) : CommandFields :=
  { empty with id := id, type := CommandType.set.number, key := key, value := value, ttl := ofTtl ttl }

/-- `NewUpdateCommand`. -/
def newUpdateCommand (id : Bytes) (key : Key) (delta : Bytes) (deltaType : UpdateDeltaType) (msgName : Bytes)
    (ttl : Option ℤ) : CommandFields :=
  { empty with
    id := id, type := CommandType.update.number, key := key, value := delta
    updateMeta := some ⟨deltaType.number, msgName, []⟩, ttl := ofTtl ttl }

/-- `NewDeleteCommand`. -/
def newDeleteCommand (id : Bytes) (key : Key) : CommandFields :=
  { empty with id := id, type := CommandType.delete.number, key := key }

/-- `NewDeleteByPrefixCommand`. -/
def newDeleteByPrefixCommand (id : Bytes) (pre : Bytes) : CommandFields :=
  { empty with id := id, type := CommandType.deleteByPrefix.number, pre := pre }

/-- `NewIncrByCommand`. -/
def newIncrByCommand (id : Bytes) (key : Key) (delta : UInt64) : CommandFields :=
  { empty with id := id, type := CommandType.incrBy.number, key := key, incrOrDecrDelta := delta }

/-- `NewDecrByCommand`. -/
def newDecrByCommand (id : Bytes) (key : Key) (delta : UInt64) : CommandFields :=
  { empty with id := id, type := CommandType.decrBy.number, key := key, incrOrDecrDelta := delta }

/-- `NewTransactionCommand`. -/
def newTransactionCommand (id : Bytes) : CommandFields :=
  { empty with id := id, type := CommandType.transaction.number }

end CommandFields

/-- The message that the constructors build for an operation. -/
def SubCommand.toFields (id : Bytes) : SubCommand → CommandFields
  | .set key value ttl => .newSetCommand id key value ttl
  | .update key delta deltaType messageName ttl => .newUpdateCommand id key delta deltaType messageName ttl
  | .delete key => .newDeleteCommand id key
  | .deleteByPrefix pre => .newDeleteByPrefixCommand id pre
  | .incrBy key delta => .newIncrByCommand id key delta
  | .decrBy key delta => .newDecrByCommand id key delta
  | .unknown => { CommandFields.empty with id := id }

/-- The sub-commands that `Command.AddSubCommand` has added, each with the id that its constructor gave it. -/
def addSubCommands (ids : ℕ → Bytes) (subs : List SubCommand) : List CommandMessage :=
  subs.mapIdx fun i sub => .mk (sub.toFields (ids i)) []

/-- The message of a command, as the leader proposes it: the only operation with the timestamps of its
transaction, or the transaction. -/
def Command.toMessage (id : Bytes) (ids : ℕ → Bytes) (c : Command) : CommandMessage :=
  match c.body with
  | .single sub =>
    .mk { sub.toFields id with readTs := UInt64.ofNat c.readTs, commitTs := UInt64.ofNat c.commitTs } []
  | .transaction subs =>
    .mk { CommandFields.newTransactionCommand id with
      readTs := UInt64.ofNat c.readTs, commitTs := UInt64.ofNat c.commitTs } (addSubCommands ids subs)

/-! ## Applying an entry -/

namespace Fsm

variable (M : Merge)

/-- `getTtl`. -/
def getTtl (cmd : CommandFields) : Option ℤ := cmd.ttl.map fun d => d.asDuration.toInt

/-- The switch on the delta type. A command without `UpdateMeta` panics here. -/
def updateMessage (env : Env) (txn : BTxn) (cmd : CommandFields) : Except Err BTxn :=
  match cmd.updateMeta with
  | none => .error .panicked
  | some u =>
    updateWithTxn M env txn cmd.key cmd.value (UpdateDeltaType.ofNumber u.updateDeltaType) u.messageName (getTtl cmd)

/-- One turn of the loop of `applyTransaction`. -/
def applySubMessage (env : Env) (txn : BTxn) (subCmd : CommandFields) : Except Err BTxn :=
  match CommandType.ofNumber subCmd.type with
  | .set => txn.setWithTxn env subCmd.key subCmd.value (getTtl subCmd)
  | .update => updateMessage M env txn subCmd
  | .delete => txn.deleteWithTxn subCmd.key
  | .incrBy => txn.incrByWithTxn env subCmd.key subCmd.incrOrDecrDelta
  | .decrBy => txn.decrByWithTxn env subCmd.key subCmd.incrOrDecrDelta
  | _ => .error .unknownOp

/-- The loop of `applyTransaction`. -/
def applySubMessages (env : Env) (txn : BTxn) : List CommandMessage → Except Err BTxn
  | [] => .ok txn
  | m :: ms => do applySubMessages env (← applySubMessage M env txn m.fields) ms

/-- The switch of `FSM.Apply` on a decoded message. -/
def applyMessage (db : Store) (env : Env) (m : CommandMessage) : Except Err Store :=
  let cmd := m.fields
  match CommandType.ofNumber cmd.type with
  | .set => applySet db env cmd.readTs.toNat cmd.commitTs.toNat cmd.key cmd.value (getTtl cmd)
  | .update => db.newTransactionAt cmd.readTs.toNat cmd.commitTs.toNat fun txn => updateMessage M env txn cmd
  | .delete => applyDelete db cmd.readTs.toNat cmd.commitTs.toNat cmd.key
  | .deleteByPrefix => applyDeleteByPrefix db env cmd.readTs.toNat cmd.commitTs.toNat cmd.pre
  | .incrBy => applyIncrBy db env cmd.readTs.toNat cmd.commitTs.toNat cmd.key cmd.incrOrDecrDelta
  | .decrBy => applyDecrBy db env cmd.readTs.toNat cmd.commitTs.toNat cmd.key cmd.incrOrDecrDelta
  | .transaction =>
    db.newTransactionAt cmd.readTs.toNat cmd.commitTs.toNat fun txn => applySubMessages M env txn m.subCommands
  | .unknown => .error .unknownOp

/-- `FSM.Apply` on the bytes of an entry. -/
def applyData (db : Store) (env : Env) (data : Bytes) : Except Err Store :=
  match decodeCommand data with
  | none => .error .malformed
  | some m => applyMessage M db env m

end Fsm

/-! ## A command and the bytes of its entry -/

/-- The numbers of an operation fit the fields of its message. -/
def SubCommand.Fits : SubCommand → Prop
  | .set _ _ ttl => ∀ d ∈ ttl, -2^63 ≤ d ∧ d < 2^63
  | .update _ _ _ _ ttl => ∀ d ∈ ttl, -2^63 ≤ d ∧ d < 2^63
  | _ => True

/-- The numbers of a command fit the fields of its message. -/
structure Command.Fits (c : Command) : Prop where
  /-- The read timestamp has 64 bits. -/
  readTs : c.readTs < 2^64
  /-- The commit timestamp has 64 bits. -/
  commitTs : c.commitTs < 2^64
  /-- The times to live have 64 bits. -/
  subCommands : ∀ sub ∈ c.body.subCommands, sub.Fits

/-- A time to live is read back. -/
theorem Fsm.getTtl_ofTtl {ttl : Option ℤ} (h : ∀ d ∈ ttl, -2^63 ≤ d ∧ d < 2^63) {cmd : CommandFields}
    (hcmd : cmd.ttl = CommandFields.ofTtl ttl) : getTtl cmd = ttl := by
  rw [getTtl, hcmd]
  cases ttl with
  | none => rfl
  | some d =>
    obtain ⟨hle, hlt⟩ := h d rfl
    have hd : (Int64.ofInt d).toInt = d := by
      rw [Int64.toInt_ofInt]
      exact bmod_of_int64 hle hlt
    show some ((Duration.new (Int64.ofInt d)).asDuration.toInt) = some d
    rw [Duration.asDuration_new, hd]

/-- A sub-command is applied as its message. -/
theorem Fsm.applySubMessage_toFields (M : Merge) (env : Env) (txn : BTxn) {sub : SubCommand} (h : sub.Fits)
    (id : Bytes) : applySubMessage M env txn (sub.toFields id) = applySub M env txn sub := by
  cases sub with
  | set key value ttl =>
    show txn.setWithTxn env key value (getTtl (.newSetCommand id key value ttl)) = _
    rw [getTtl_ofTtl h rfl]
    rfl
  | update key delta deltaType messageName ttl =>
    show updateWithTxn M env txn key delta (UpdateDeltaType.ofNumber deltaType.number) messageName
      (getTtl (.newUpdateCommand id key delta deltaType messageName ttl)) = _
    rw [getTtl_ofTtl h rfl, UpdateDeltaType.ofNumber_number]
    rfl
  | _ => rfl

/-- The sub-commands, the first apart. -/
theorem addSubCommands_cons (ids : ℕ → Bytes) (sub : SubCommand) (subs : List SubCommand) :
    addSubCommands ids (sub :: subs) = .mk (sub.toFields (ids 0)) [] :: addSubCommands (fun i => ids (i + 1)) subs :=
  List.mapIdx_cons

/-- The sub-commands are applied as their messages. -/
theorem Fsm.applySubMessages_addSubCommands (M : Merge) (env : Env) {subs : List SubCommand}
    (h : ∀ sub ∈ subs, sub.Fits) : ∀ (ids : ℕ → Bytes) (txn : BTxn),
    applySubMessages M env txn (addSubCommands ids subs) = applySubs M env txn subs := by
  induction subs with
  | nil => exact fun _ _ => rfl
  | cons sub subs ih =>
    intro ids txn
    rw [addSubCommands_cons, applySubMessages, applySubs]
    show applySubMessage M env txn (sub.toFields (ids 0)) >>= _ = _
    rw [applySubMessage_toFields M env txn (h sub List.mem_cons_self)]
    congr 1
    funext txn'
    exact ih (fun sub' hsub' => h sub' (List.mem_cons_of_mem sub hsub')) _ txn'

/-- A single operation is applied as its message. -/
theorem Fsm.applyMessage_single (M : Merge) (db : Store) (env : Env) {sub : SubCommand} (h : sub.Fits) (id : Bytes)
    (readTs commitTs : UInt64) :
    applyMessage M db env (.mk { sub.toFields id with readTs := readTs, commitTs := commitTs } []) =
      apply M db env ⟨readTs.toNat, commitTs.toNat, .single sub⟩ := by
  cases sub with
  | set key value ttl =>
    show applySet db env readTs.toNat commitTs.toNat key value (getTtl
      { CommandFields.newSetCommand id key value ttl with readTs := readTs, commitTs := commitTs }) = _
    rw [getTtl_ofTtl h rfl]
    rfl
  | update key delta deltaType messageName ttl =>
    have hupdate : ∀ txn, updateMessage M env txn { CommandFields.newUpdateCommand id key delta deltaType messageName
        ttl with readTs := readTs, commitTs := commitTs } =
        updateWithTxn M env txn key delta deltaType messageName ttl := by
      intro txn
      show updateWithTxn M env txn key delta (UpdateDeltaType.ofNumber deltaType.number) messageName (getTtl
        { CommandFields.newUpdateCommand id key delta deltaType messageName ttl with
          readTs := readTs, commitTs := commitTs }) = _
      rw [UpdateDeltaType.ofNumber_number, getTtl_ofTtl h rfl]
    show db.newTransactionAt readTs.toNat commitTs.toNat (fun txn => updateMessage M env txn
      { CommandFields.newUpdateCommand id key delta deltaType messageName ttl with
        readTs := readTs, commitTs := commitTs }) = _
    rw [funext hupdate]
    rfl
  | _ => rfl

/-- A command is applied as its message. -/
theorem Fsm.applyMessage_toMessage (M : Merge) (db : Store) (env : Env) {c : Command} (h : c.Fits) (id : Bytes)
    (ids : ℕ → Bytes) : applyMessage M db env (c.toMessage id ids) = apply M db env c := by
  obtain ⟨readTs, commitTs, body⟩ := c
  obtain ⟨hreadTs, hcommitTs, hsubs⟩ := h
  have hread : (UInt64.ofNat readTs).toNat = readTs := UInt64.toNat_ofNat_of_lt' hreadTs
  have hcommit : (UInt64.ofNat commitTs).toNat = commitTs := UInt64.toNat_ofNat_of_lt' hcommitTs
  cases body with
  | single sub =>
    refine (applyMessage_single M db env (hsubs sub List.mem_cons_self) id _ _).trans ?_
    rw [hread, hcommit]
  | transaction subs =>
    show db.newTransactionAt (UInt64.ofNat readTs).toNat (UInt64.ofNat commitTs).toNat
      (fun txn => applySubMessages M env txn (addSubCommands ids subs)) = _
    have hloop : (fun txn => applySubMessages M env txn (addSubCommands ids subs)) =
        fun txn => applySubs M env txn subs :=
      funext (applySubMessages_addSubCommands M env hsubs ids)
    rw [hread, hcommit, hloop]
    rfl

/-- The strings in the message of an operation are its id and those of the operation. -/
theorem SubCommand.validStrings_toFields {id : Bytes} (hid : utf8Valid id = true) (sub : SubCommand)
    (readTs commitTs : UInt64) :
    { sub.toFields id with readTs := readTs, commitTs := commitTs }.validStrings = sub.encodable := by
  cases sub <;> simp [toFields, CommandFields.validStrings, CommandFields.newSetCommand,
    CommandFields.newUpdateCommand, CommandFields.newDeleteCommand, CommandFields.newDeleteByPrefixCommand,
    CommandFields.newIncrByCommand, CommandFields.newDecrByCommand, CommandFields.empty, hid, encodable, utf8Valid]

/-- The strings in the messages of the sub-commands. -/
theorem allValidStrings_addSubCommands (subs : List SubCommand) : ∀ {ids : ℕ → Bytes},
    (∀ i, utf8Valid (ids i) = true) →
    CommandMessage.allValidStrings (addSubCommands ids subs) = subs.all SubCommand.encodable := by
  induction subs with
  | nil => exact fun _ => rfl
  | cons sub subs ih =>
    intro ids hids
    rw [addSubCommands_cons, CommandMessage.allValidStrings, ih fun i => hids (i + 1), List.all_cons,
      CommandMessage.validStrings, CommandMessage.allValidStrings, Bool.and_true,
      sub.validStrings_toFields (hids 0)]

/-- The strings in the message of a command. -/
theorem Command.validStrings_toMessage (c : Command) {id : Bytes} {ids : ℕ → Bytes} (hid : utf8Valid id = true)
    (hids : ∀ i, utf8Valid (ids i) = true) :
    (c.toMessage id ids).validStrings = c.body.subCommands.all SubCommand.encodable := by
  obtain ⟨readTs, commitTs, body⟩ := c
  cases body with
  | single sub =>
    show (CommandFields.validStrings (sub.toFields id) && true) = (sub.encodable && true)
    rw [sub.validStrings_toFields hid]
  | transaction subs =>
    show (CommandFields.validStrings (.newTransactionCommand id) &&
      CommandMessage.allValidStrings (addSubCommands ids subs)) = _
    rw [allValidStrings_addSubCommands subs hids]
    simp [CommandFields.validStrings, CommandFields.newTransactionCommand, CommandFields.empty, hid, utf8Valid,
      Body.subCommands]

/-- The sub-commands are not nested. -/
theorem heights_addSubCommands_le (subs : List SubCommand) : ∀ ids : ℕ → Bytes,
    CommandMessage.heights (addSubCommands ids subs) ≤ 2 := by
  induction subs with
  | nil => exact fun _ => Nat.zero_le 2
  | cons sub subs ih =>
    intro ids
    have htail := ih fun i => ids (i + 1)
    rw [addSubCommands_cons, CommandMessage.heights, CommandMessage.height, CommandMessage.heights]
    split_ifs <;> omega

/-- The messages of a command are nested three deep at most. -/
theorem Command.height_toMessage_le (c : Command) (id : Bytes) (ids : ℕ → Bytes) : (c.toMessage id ids).height ≤ 3 := by
  obtain ⟨readTs, commitTs, body⟩ := c
  cases body with
  | single sub =>
    rw [toMessage, CommandMessage.height, CommandMessage.heights]
    split_ifs <;> omega
  | transaction subs =>
    have hsubs := heights_addSubCommands_le subs ids
    rw [toMessage, CommandMessage.height]
    split_ifs <;> omega

/-- The encoding of a command fails exactly where `Command.encode` does. Otherwise a replica that applies the
bytes of the entry does what `Fsm.apply` does with the command. -/
theorem applyData_marshal (M : Merge) (db : Store) (env : Env) {c : Command} (hfits : c.Fits) {id : Bytes}
    {ids : ℕ → Bytes} (hid : utf8Valid id = true) (hids : ∀ i, utf8Valid (ids i) = true)
    (hlen : (c.toMessage id ids).encode.length < 2^64) :
    match (c.toMessage id ids).marshal with
    | .ok data => c.encode = .ok c ∧ Fsm.applyData M db env data = Fsm.apply M db env c
    | .error e => c.encode = .error e := by
  have hvalid := c.validStrings_toMessage hid hids
  have hheight : (c.toMessage id ids).height ≤ recursionLimit := (c.height_toMessage_le id ids).trans (by decide)
  by_cases h : (c.toMessage id ids).validStrings = true
  · have hdecode : decodeCommand (c.toMessage id ids).encode = some (c.toMessage id ids) :=
      ((c.toMessage id ids).decodeIn_encode recursionLimit h hlen).trans (if_pos hheight)
    rw [CommandMessage.marshal, if_pos h]
    refine ⟨if_pos (hvalid ▸ h), ?_⟩
    rw [Fsm.applyData, hdecode]
    exact Fsm.applyMessage_toMessage M db env hfits id ids
  · rw [CommandMessage.marshal, if_neg h]
    exact if_neg (hvalid ▸ h)

/-- The bytes of an entry that sets a key for a minute, and what they do. -/
theorem applyData_marshal_set :
    Fsm.applyData rejectDeltas [] someEnv
        [10, 1, 97, 16, 1, 26, 1, 107, 34, 1, 7, 58, 2, 8, 60, 64, 1, 72, 2] =
      .ok [⟨[107], 2, .value [7] 60⟩] := by
  have hfits : Command.Fits ⟨1, 2, .single (.set [107] [7] (some 60000000000))⟩ :=
    ⟨by decide, by decide, by simp [Body.subCommands, SubCommand.Fits]⟩
  have hids : ∀ _ : ℕ, utf8Valid [98] = true := fun _ => by decide
  have h : _ ∧ _ := applyData_marshal rejectDeltas [] someEnv hfits (by decide : utf8Valid [97] = true) hids
    (by decide +kernel)
  exact h.2.trans (by decide +kernel)

/-! ## Entries of another version -/

namespace CommandMessage

/-- The command without the fields that it does not know. -/
def known (m : CommandMessage) : CommandMessage := .mk { m.fields with unknownFields := [] } m.subCommands

/-- Unknown fields that were read before those of the command. -/
def after (us : UnknownFields CommandField.known) (m : CommandMessage) : CommandMessage :=
  .mk { m.fields with unknownFields := us ++ m.fields.unknownFields } m.subCommands

/-- A command is its known part with its unknown fields. -/
theorem after_known (m : CommandMessage) : m.known.after m.fields.unknownFields = m := by
  obtain ⟨c, subs⟩ := m
  simp [known, after, fields, subCommands]

/-- A command that keeps unknown fields, by its known part. -/
theorem keep_eq_after (m : CommandMessage) (us : UnknownFields CommandField.known) :
    m.keep us = m.known.after (m.fields.unknownFields ++ us) := by
  simp [known, after, keep, fields, subCommands]

section Fold

variable {depth : ℕ} {decodeSub : Bytes → Option CommandMessage}

/-- A field is set alike, whatever unknown fields were read before. -/
theorem set_after (us : UnknownFields CommandField.known) (m : CommandMessage) (f : CommandField) :
    set depth decodeSub (m.after us) f = (set depth decodeSub m f).map (after us) := by
  cases f with
  | id bs | key bs | pre bs =>
    simp only [set]
    split_ifs <;> rfl
  | ttl bs | updateMeta bs =>
    simp only [set]
    split_ifs
    · rfl
    · rw [Option.map_map]
      rfl
  | subCommand bs =>
    simp only [set]
    rw [Option.map_map]
    rfl
  | _ => rfl

/-- A field is read alike, whatever unknown fields were read before. -/
theorem setRecord_after (us : UnknownFields CommandField.known) (m : CommandMessage) (r : Wire.Record) :
    setRecord _ (set depth decodeSub) keep (m.after us) r =
      (setRecord _ (set depth decodeSub) keep m r).map (after us) := by
  unfold setRecord
  split
  · exact set_after us m _
  · simp [after, keep, fields, subCommands]

/-- The fields of a command are read alike, whatever unknown fields were read before. -/
theorem foldlM_after (us : UnknownFields CommandField.known) (rs : List Wire.Record) (m : CommandMessage) :
    rs.foldlM (setRecord _ (set depth decodeSub) keep) (m.after us) =
      (rs.foldlM (setRecord _ (set depth decodeSub) keep) m).map (after us) := by
  induction rs generalizing m with
  | nil => rfl
  | cons r rs ih =>
    rw [List.foldlM_cons, List.foldlM_cons, setRecord_after]
    cases setRecord _ (set depth decodeSub) keep m r with
    | none => rfl
    | some m' => exact ih m'

/-- Unknown fields between others: both loops read what is in front, and go on with what is behind after the same known
part. -/
theorem exists_decodeIn_unknown {front unknown back : Bytes} {fs gs : List Wire.Record}
    {us : UnknownFields CommandField.known} (hfront : Wire.getFields front = some fs)
    (hunknown : Wire.getFields unknown = some (us.map Subtype.val)) (hback : Wire.getFields back = some gs) :
    ∃ (m : Option CommandMessage) (vs : UnknownFields CommandField.known),
      decodeIn (depth + 1) (front ++ unknown ++ back) = m.map (after (vs ++ us)) ∧
      decodeIn (depth + 1) (front ++ back) = m.map (after vs) := by
  have hwith : Wire.getFields (front ++ unknown ++ back) = some (fs ++ (us.map Subtype.val ++ gs)) := by
    rw [List.append_assoc, Wire.getFields_append hfront, Wire.getFields_append hunknown, hback]
    rfl
  have hwithout : Wire.getFields (front ++ back) = some (fs ++ gs) := by
    rw [Wire.getFields_append hfront, hback]
    rfl
  rw [decodeIn, decodeIn, decodeInto, decodeInto, hwith, hwithout, Option.bind_some, Option.bind_some,
    List.foldlM_append, List.foldlM_append]
  cases fs.foldlM (setRecord _ (set depth (decodeIn depth)) keep) (.mk .empty []) with
  | none => exact ⟨none, [], rfl, rfl⟩
  | some m =>
    refine ⟨gs.foldlM (setRecord _ (set depth (decodeIn depth)) keep) m.known, m.fields.unknownFields, ?_, ?_⟩
    · show List.foldlM _ m (_ ++ _) = _
      rw [List.foldlM_append, foldlM_setRecord_of_unknown keep_nil keep_keep, m.keep_eq_after us]
      exact foldlM_after _ gs m.known
    · show List.foldlM _ m gs = _
      rw [← foldlM_after, m.after_known]

end Fold

end CommandMessage

/-- Fields that a command does not have, of any wire type, wherever they stand between its fields, do not change
whether an entry is decoded, nor a field that the command has, nor what a replica does with the entry. The command
keeps them. -/
theorem decodeCommand_unknown_fields {front unknown back : Bytes} {fs us gs : List Wire.Record}
    (hfront : Wire.getFields front = some fs) (hunknown : Wire.getFields unknown = some us)
    (hback : Wire.getFields back = some gs) (hnone : ∀ r ∈ us, CommandField.known r.field = none) :
    (decodeCommand (front ++ unknown ++ back)).map CommandMessage.known =
        (decodeCommand (front ++ back)).map CommandMessage.known ∧
      (∀ m, decodeCommand (front ++ unknown ++ back) = some m → us <:+: m.fields.unknownFields.map Subtype.val) ∧
      ∀ (M : Merge) (db : Store) (env : Env),
        Fsm.applyData M db env (front ++ unknown ++ back) = Fsm.applyData M db env (front ++ back) := by
  obtain ⟨us', rfl⟩ : ∃ us' : UnknownFields CommandField.known, us'.map Subtype.val = us :=
    ⟨us.attach.map fun r => ⟨r.1, hnone r.1 r.2⟩, by simp⟩
  obtain ⟨m, vs, hwith, hwithout⟩ :
      ∃ (m : Option CommandMessage) (vs : UnknownFields CommandField.known),
        decodeCommand (front ++ unknown ++ back) = m.map (.after (vs ++ us')) ∧
        decodeCommand (front ++ back) = m.map (.after vs) :=
    CommandMessage.exists_decodeIn_unknown hfront hunknown hback
  refine ⟨?_, ?_, fun M db env => ?_⟩
  · rw [hwith, hwithout, Option.map_map, Option.map_map]
    rfl
  · intro m' hm'
    rw [hwith] at hm'
    obtain ⟨m, -, rfl⟩ := Option.map_eq_some_iff.mp hm'
    refine ⟨vs.map Subtype.val, m.fields.unknownFields.map Subtype.val, ?_⟩
    simp [CommandMessage.after, CommandMessage.fields]
  · -- `FSM.Apply` does not look at the unknown fields.
    rw [Fsm.applyData, Fsm.applyData, hwith, hwithout]
    cases m with
    | none | some => rfl

/-- Fields that a command does not have: a varint, numbers of fixed width, bytes and a group. -/
def laterFields : Bytes :=
  [96, 1, 105, 1, 2, 3, 4, 5, 6, 7, 8, 117, 1, 2, 3, 4, 122, 1, 0, 131, 1, 8, 5, 132, 1]

/-- An entry that sets a key, with these fields behind the key. -/
theorem decodeCommand_unknown_fields_later :
    Fsm.applyData rejectDeltas [] someEnv ([16, 1, 26, 1, 107] ++ laterFields ++ [34, 1, 7, 64, 1, 72, 2]) =
      .ok [⟨[107], 2, .value [7] 0⟩] := by
  have hfront := (Option.some_get (x := Wire.getFields [16, 1, 26, 1, 107]) (by decide +kernel)).symm
  have hlater := (Option.some_get (x := Wire.getFields laterFields) (by decide +kernel)).symm
  have hback := (Option.some_get (x := Wire.getFields [34, 1, 7, 64, 1, 72, 2]) (by decide +kernel)).symm
  have hsame := (decodeCommand_unknown_fields hfront hlater hback (by decide +kernel)).2.2 rejectDeltas [] someEnv
  exact hsame.trans (by decide +kernel)

end Omashu
