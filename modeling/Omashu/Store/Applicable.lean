import Omashu.Store.Replay

/-!
# When a command can be applied

`FSM.Apply` fails where a key does not pass Badger's checks, where a stored value is not what the
operation takes it for, and where the switch of `applyTransaction` does not know an operation.
`SubCommand.Applicable` says so in terms of the values that the operation sees, `SubCommand.written`
is what it then writes, and a transaction is applicable where its operations are, each on the values
that the ones before it leave. A command is applied without an error exactly where it is applicable.

Where the keys of a store have all passed Badger's checks (`KeysAccepted`), a prefix deletion of its
own never fails. What Badger refuses for other reasons is in `Store/Managed.lean`.
-/

namespace Omashu

open Lib

/-- `txn.modify` accepts the key. -/
def AcceptsKey (key : Key) : Prop :=
  key ≠ [] ∧ ¬BTxn.badgerPrefix <+: key ∧ key.length ≤ 65000

instance (key : Key) : Decidable (AcceptsKey key) := inferInstanceAs (Decidable (_ ∧ _))

/-- The keys that pass the checks. -/
theorem checkKey_eq_ok_iff {key : Key} : BTxn.checkKey key = .ok () ↔ AcceptsKey key := by
  unfold BTxn.checkKey AcceptsKey
  split_ifs with hempty hbadger hlong
  · simp [hempty]
  · simp [hbadger]
  · simp [hlong]
  · simp [hempty, hbadger, not_lt.mp hlong]

/-- All keys of the store have passed Badger's checks. -/
def Store.KeysAccepted (db : Store) : Prop := ∀ x ∈ db, AcceptsKey x.key

/-- The stored value with the delta of an `UPDATE` merged in. -/
def Merge.merged (M : Merge) (deltaType : UpdateDeltaType) (messageName : Bytes)
    (stored : Option Bytes) (delta : Bytes) : Except Err Bytes :=
  match deltaType with
  | .protobuf => do
    M.unmarshalUpdateDelta deltaType messageName delta
    M.protobuf messageName stored delta
  | .json => do
    M.unmarshalUpdateDelta deltaType messageName delta
    M.json stored delta
  | .unknownDelta => .error .unknownOp

/-- The second from which on a value that is set now is expired. -/
def expiry (env : Env) : Option ℤ → ℕ
  | none => 0
  | some d => unixSecond (env.now + d)

namespace SubCommand

/-- The operation of a transaction can be performed on the values it sees: Badger accepts its key, a
counter is absent or at least eight bytes long, and the codecs accept the delta and the stored
value. A prefix deletion cannot. -/
def Applicable (M : Merge) (values : Key → Option Bytes) : SubCommand → Prop
  | .set key .. => AcceptsKey key
  | .update key delta deltaType messageName _ =>
    AcceptsKey key ∧ ∃ merged, M.merged deltaType messageName (values key) delta = .ok merged
  | .delete key => AcceptsKey key
  | .incrBy key _ => AcceptsKey key ∧ ∀ b ∈ values key, 8 ≤ b.length
  | .decrBy key _ => AcceptsKey key ∧ ∀ b ∈ values key, 8 ≤ b.length
  | .deleteByPrefix _ => False
  | .unknown => False

/-- What an operation on a counter writes, given the stored bytes. -/
def counterWrite (key : Key) (absent : ℕ) (next : ℕ → ℕ) : Option Bytes → Option (Key × Entry)
  | none => some (key, .value (uint64ToBytes absent) 0)
  | some b => (bytesToUint64 b).map fun v => (key, .value (uint64ToBytes (next v)) 0)

/-- An operation on a counter writes its key, if it writes at all. -/
theorem key_of_counterWrite {key key' : Key} {absent : ℕ} {next : ℕ → ℕ} {stored : Option Bytes}
    {e : Entry} (h : counterWrite key absent next stored = some (key', e)) : key = key' := by
  cases stored with
  | none => exact congrArg Prod.fst (Option.some.inj h)
  | some b =>
    obtain ⟨v, -, hv⟩ := Option.map_eq_some_iff.mp h
    exact congrArg Prod.fst hv

/-- What the operation writes, given the values that it sees. -/
def written (M : Merge) (env : Env) (values : Key → Option Bytes) :
    SubCommand → Option (Key × Entry)
  | .set key value ttl => some (key, .value value (expiry env ttl))
  | .update key delta deltaType messageName ttl =>
    match M.merged deltaType messageName (values key) delta with
    | .ok merged => some (key, .value merged (expiry env ttl))
    | .error _ => none
  | .delete key => some (key, .tombstone)
  | .incrBy key delta => counterWrite key delta.toNat (· + delta.toNat) (values key)
  | .decrBy key delta =>
    counterWrite key 0 (fun v => if v < delta.toNat then 0 else v - delta.toNat) (values key)
  | .deleteByPrefix _ => none
  | .unknown => none

/-- The values after the operation. -/
def after (M : Merge) (env : Env) (values : Key → Option Bytes) (sub : SubCommand) :
    Key → Option Bytes :=
  match sub.written M env values with
  | some (key, e) => Function.update values key (e.live env.now)
  | none => values

/-- The operations of a transaction can be performed one after the other. -/
def AllApplicable (M : Merge) (env : Env) (values : Key → Option Bytes) : List SubCommand → Prop
  | [] => True
  | sub :: subs => sub.Applicable M values ∧ AllApplicable M env (sub.after M env values) subs

/-- What the operations of a transaction write one after the other, the latest first. -/
def allWritten (M : Merge) (env : Env) (values : Key → Option Bytes) : List SubCommand → List (Key × Entry)
  | [] => []
  | sub :: subs => allWritten M env (sub.after M env values) subs ++ (sub.written M env values).toList

end SubCommand

/-- A counter can be read from a value of at least eight bytes. -/
theorem bytesToUint64_isSome_iff {b : Bytes} : (∃ v, bytesToUint64 b = some v) ↔ 8 ≤ b.length := by
  rcases b with _ | ⟨b0, _ | ⟨b1, _ | ⟨b2, _ | ⟨b3, _ | ⟨b4, _ | ⟨b5, _ | ⟨b6, _ | ⟨b7, b⟩⟩⟩⟩⟩⟩⟩⟩
  all_goals simp [bytesToUint64]

/-- An operation on a counter has something to write where a counter can be read, if there is a
value. -/
theorem SubCommand.exists_counterWrite_iff {key : Key} {absent : ℕ} {next : ℕ → ℕ}
    {stored : Option Bytes} :
    (∃ key' e, counterWrite key absent next stored = some (key', e) ∧ AcceptsKey key') ↔
      AcceptsKey key ∧ ∀ b ∈ stored, 8 ≤ b.length := by
  cases stored with
  | none => simp [counterWrite]
  | some b =>
    simp only [Option.mem_def, Option.some.injEq, forall_eq', ← bytesToUint64_isSome_iff]
    cases hb : bytesToUint64 b with
    | none => simp [counterWrite, hb]
    | some v => simp [counterWrite, hb]

/-- An operation can be performed exactly where it has something to write under a key that Badger
accepts. -/
theorem SubCommand.applicable_iff {M : Merge} (env : Env) {values : Key → Option Bytes}
    {sub : SubCommand} :
    sub.Applicable M values ↔
      ∃ key e, sub.written M env values = some (key, e) ∧ AcceptsKey key := by
  cases sub with
  | set key value ttl => simp [Applicable, written]
  | update key delta deltaType messageName ttl =>
    simp only [Applicable, written]
    cases hm : M.merged deltaType messageName (values key) delta with
    | error e => simp
    | ok merged => simp
  | delete | deleteByPrefix => simp [Applicable, written]
  | incrBy | decrBy => exact exists_counterWrite_iff.symm
  | unknown => simp [Applicable, written]

/-- What a single operation or a transaction needs in the transaction of Badger that it is performed in. Of a prefix
deletion these are the keys that it visits. -/
def Body.Applicable (M : Merge) (env : Env) (txn : BTxn) : Body → Prop
  | .single (.deleteByPrefix pre) => ∀ k ∈ txn.keysVisited env pre, AcceptsKey k
  | .single sub => sub.Applicable M (txn.lookup env.now)
  | .transaction subs => SubCommand.AllApplicable M env (txn.lookup env.now) subs

/-- What it writes there, the latest first. -/
def Body.written (M : Merge) (env : Env) (txn : BTxn) : Body → List (Key × Entry)
  | .single (.deleteByPrefix pre) => ((txn.keysVisited env pre).map fun k => (k, Entry.tombstone)).reverse
  | .single sub => (sub.written M env (txn.lookup env.now)).toList
  | .transaction subs => SubCommand.allWritten M env (txn.lookup env.now) subs

/-- The command can be applied: what its operations need holds of the values at its read
timestamp. -/
def Command.Applicable (M : Merge) (env : Env) (db : Store) (c : Command) : Prop :=
  c.body.Applicable M env (BTxn.newTransactionAt db c.readTs)

/-! ## The operations -/

namespace BTxn

variable {txn txn' : BTxn} {env : Env} {key : Key} {e : Entry}

/-- Where one more pending write is accepted. -/
theorem modify_eq_ok_iff :
    txn.modify key e = .ok txn' ↔ AcceptsKey key ∧ txn' = txn.withWrite key e := by
  rw [modify_eq, ← checkKey_eq_ok_iff]
  cases hc : checkKey key with
  | error err => simp [Except.bind]
  | ok _ => simp [Except.bind, eq_comm]

/-- Where a set is accepted. -/
theorem setWithTxn_eq_ok_iff {value : Bytes} {ttl : Option ℤ} :
    txn.setWithTxn env key value ttl = .ok txn' ↔
      AcceptsKey key ∧ txn' = txn.withWrite key (.value value (expiry env ttl)) := by
  cases ttl with
  | none | some => exact modify_eq_ok_iff

/-- A computation that reads a key first. -/
theorem getWithTxn_bind_eq_ok_iff {f : Option Bytes → Except Err BTxn} :
    (txn.getWithTxn env key).bind f = .ok txn' ↔
      key ≠ [] ∧ f (txn.lookup env.now key) = .ok txn' := by
  unfold getWithTxn
  split_ifs with hk
  · simp [hk, Except.bind]
  · simp [hk, Except.bind]

/-- A computation that has read a key and sets it. -/
theorem ne_nil_and_setWithTxn_iff {value : Bytes} {ttl : Option ℤ} :
    (key ≠ [] ∧ txn.setWithTxn env key value ttl = .ok txn') ↔
      AcceptsKey key ∧ txn' = txn.withWrite key (.value value (expiry env ttl)) := by
  rw [setWithTxn_eq_ok_iff]
  exact and_iff_right_of_imp fun h => h.1.1

/-- The loop of a prefix deletion adds a tombstone for each key, if Badger accepts them. -/
theorem deleteKeys_eq_ok_iff {keys : List Key} :
    txn.deleteKeys keys = .ok txn' ↔
      (∀ k ∈ keys, AcceptsKey k) ∧
        txn' = { txn with
          pendingWrites := (keys.map fun k => (k, Entry.tombstone)).reverse ++ txn.pendingWrites } := by
  induction keys generalizing txn with
  | nil => simp [deleteKeys, eq_comm]
  | cons k keys ih =>
    rw [List.map_cons, List.reverse_cons, List.append_assoc, List.forall_mem_cons]
    constructor
    · intro h
      obtain ⟨txn₁, h₁, h⟩ := bind_eq_ok h
      obtain ⟨hk, rfl⟩ := modify_eq_ok_iff.mp h₁
      obtain ⟨hkeys, rfl⟩ := ih.mp h
      exact ⟨⟨hk, hkeys⟩, rfl⟩
    · rintro ⟨⟨hk, hkeys⟩, rfl⟩
      have h₁ : txn.deleteWithTxn k = .ok (txn.withWrite k .tombstone) := modify_eq_ok_iff.mpr ⟨hk, rfl⟩
      rw [deleteKeys, h₁]
      exact ih.mpr ⟨hkeys, rfl⟩

/-- Keys that Badger accepts can be deleted. -/
theorem exists_deleteKeys {keys : List Key} (h : ∀ k ∈ keys, AcceptsKey k) :
    ∃ txn', txn.deleteKeys keys = .ok txn' :=
  ⟨_, deleteKeys_eq_ok_iff.mpr ⟨h, rfl⟩⟩

/-- The keys that a transaction finds in a store are keys of the store. -/
theorem acceptsKey_of_mem_liveKeys {db : Store} {r : ℕ} {now : ℤ} (hdb : db.KeysAccepted) :
    ∀ k ∈ (newTransactionAt db r).liveKeys now, AcceptsKey k := by
  intro k hk
  rw [mem_liveKeys, lookup_newTransactionAt] at hk
  cases hn : Versions.newest db k r with
  | none => simp [hn] at hk
  | some x =>
    obtain ⟨hx, rfl, -⟩ := Versions.newest_mem hn
    exact hdb x hx

end BTxn

namespace Fsm

variable {M : Merge} {txn txn' : BTxn} {env : Env} {db db' : Store} {c : Command}

/-- An update merges into what it reads, and sets the result. -/
theorem updateWithTxn_eq_ok_iff {key : Key} {delta : Bytes} {deltaType : UpdateDeltaType}
    {messageName : Bytes} {ttl : Option ℤ} :
    updateWithTxn M env txn key delta deltaType messageName ttl = .ok txn' ↔
      ∃ merged, M.merged deltaType messageName (txn.lookup env.now key) delta = .ok merged ∧
        AcceptsKey key ∧ txn' = txn.withWrite key (.value merged (expiry env ttl)) := by
  -- Both kinds of delta are decoded, then the key is read, then the two are merged.
  have update : ∀ (decoded : Except Err Unit) (f : Option Bytes → Except Err Bytes),
      (decoded.bind fun _ => (txn.getWithTxn env key).bind fun stored =>
          (f stored).bind fun merged => txn.setWithTxn env key merged ttl) = .ok txn' ↔
        ∃ merged, (decoded.bind fun _ => f (txn.lookup env.now key)) = .ok merged ∧
          AcceptsKey key ∧ txn' = txn.withWrite key (.value merged (expiry env ttl)) := by
    intro decoded f
    cases decoded with
    | error e => simp [Except.bind]
    | ok _ =>
      show ((txn.getWithTxn env key).bind fun stored => _) = _ ↔ ∃ merged, f _ = _ ∧ _
      rw [BTxn.getWithTxn_bind_eq_ok_iff]
      cases hf : f (txn.lookup env.now key) with
      | error e => simp [Except.bind]
      | ok merged =>
        show key ≠ [] ∧ txn.setWithTxn env key merged ttl = .ok txn' ↔ _
        rw [BTxn.ne_nil_and_setWithTxn_iff]
        simp
  cases deltaType with
  | unknownDelta => simp [updateWithTxn, Merge.merged]
  | json | protobuf => exact update _ _

/-- A computation that reads a counter and sets it to what comes next. -/
theorem counter_eq_ok_iff {key : Key} {absent : ℕ} {next : ℕ → ℕ} {f : Option Bytes → Except Err BTxn}
    (hnone : f none = txn.setWithTxn env key (uint64ToBytes absent) none)
    (hpanic : ∀ b, bytesToUint64 b = none → f (some b) = .error .panicked)
    (hsome : ∀ b v, bytesToUint64 b = some v →
      f (some b) = txn.setWithTxn env key (uint64ToBytes (next v)) none) :
    (txn.getWithTxn env key).bind f = .ok txn' ↔
      ∃ key' e, SubCommand.counterWrite key absent next (txn.lookup env.now key) = some (key', e) ∧
        AcceptsKey key' ∧ txn' = txn.withWrite key' e := by
  rw [BTxn.getWithTxn_bind_eq_ok_iff]
  cases txn.lookup env.now key with
  | none =>
    rw [hnone, BTxn.ne_nil_and_setWithTxn_iff]
    simp [SubCommand.counterWrite, expiry]
  | some b =>
    cases hb : bytesToUint64 b with
    | none => simp [SubCommand.counterWrite, hb, hpanic b hb]
    | some v =>
      rw [hsome b v hb, BTxn.ne_nil_and_setWithTxn_iff]
      simp [SubCommand.counterWrite, hb, expiry]

/-- An operation of a transaction succeeds exactly where it writes something under a key that Badger
accepts, and that is what it does. -/
theorem applySub_eq_ok_iff {sub : SubCommand} :
    applySub M env txn sub = .ok txn' ↔
      ∃ key e, sub.written M env (txn.lookup env.now) = some (key, e) ∧ AcceptsKey key ∧
        txn' = txn.withWrite key e := by
  cases sub with
  | set key value ttl => simp [applySub, SubCommand.written, BTxn.setWithTxn_eq_ok_iff]
  | update key delta deltaType messageName ttl =>
    simp only [applySub, SubCommand.written]
    rw [updateWithTxn_eq_ok_iff]
    cases M.merged deltaType messageName (txn.lookup env.now key) delta with
    | error e => simp
    | ok merged => simp
  | delete key => simp [applySub, SubCommand.written, BTxn.deleteWithTxn, BTxn.modify_eq_ok_iff]
  | deleteByPrefix pre => simp [applySub, SubCommand.written]
  | incrBy | decrBy =>
    exact counter_eq_ok_iff rfl (fun b hb => by simp [hb]) fun b v hb => by simp [hb]
  | unknown => simp [applySub, SubCommand.written]

/-- What a transaction sees after one of its operations. -/
theorem lookup_applySub {sub : SubCommand} (h : applySub M env txn sub = .ok txn') :
    txn'.lookup env.now = sub.after M env (txn.lookup env.now) := by
  obtain ⟨key, e, hw, -, rfl⟩ := applySub_eq_ok_iff.mp h
  unfold SubCommand.after
  rw [hw, BTxn.lookup_withWrite]

/-- What the operations of a transaction do where they succeed. -/
theorem applySubs_eq_ok_iff {subs : List SubCommand} :
    applySubs M env txn subs = .ok txn' ↔ SubCommand.AllApplicable M env (txn.lookup env.now) subs ∧
      txn' = { txn with
        pendingWrites := SubCommand.allWritten M env (txn.lookup env.now) subs ++ txn.pendingWrites } := by
  induction subs generalizing txn with
  | nil => simp [applySubs, SubCommand.AllApplicable, SubCommand.allWritten, eq_comm]
  | cons sub subs ih =>
    unfold SubCommand.AllApplicable SubCommand.allWritten
    rw [SubCommand.applicable_iff env]
    constructor
    · intro h
      obtain ⟨txn₁, h₁, h⟩ := bind_eq_ok h
      obtain ⟨key, e, hw, hk, rfl⟩ := applySub_eq_ok_iff.mp h₁
      obtain ⟨happlicable, rfl⟩ := ih.mp h
      rw [lookup_applySub h₁] at happlicable ⊢
      refine ⟨⟨⟨key, e, hw, hk⟩, happlicable⟩, ?_⟩
      rw [hw, List.append_assoc]
      rfl
    · rintro ⟨⟨⟨key, e, hw, hk⟩, happlicable⟩, htxn'⟩
      have h₁ : applySub M env txn sub = .ok (txn.withWrite key e) := applySub_eq_ok_iff.mpr ⟨key, e, hw, hk, rfl⟩
      rw [applySubs, h₁]
      show applySubs M env (txn.withWrite key e) subs = _
      rw [ih, lookup_applySub h₁]
      refine ⟨happlicable, htxn'.trans ?_⟩
      rw [hw, List.append_assoc]
      rfl

/-- The operations of a transaction succeed exactly where each is applicable after the ones before
it. -/
theorem exists_applySubs_iff {subs : List SubCommand} :
    (∃ txn', applySubs M env txn subs = .ok txn') ↔
      SubCommand.AllApplicable M env (txn.lookup env.now) subs := by
  constructor
  · rintro ⟨txn', h⟩
    exact (applySubs_eq_ok_iff.mp h).1
  · intro h
    exact ⟨_, applySubs_eq_ok_iff.mpr ⟨h, rfl⟩⟩

/-- A prefix deletion succeeds on a store whose keys have passed the checks. -/
theorem exists_deleteByPrefixWithTxn (hdb : db.KeysAccepted) (r : ℕ) (env : Env) (pre : Bytes) :
    ∃ txn', (BTxn.newTransactionAt db r).deleteByPrefixWithTxn env pre = .ok txn' := by
  refine BTxn.exists_deleteKeys fun k hk => ?_
  have hscan := BTxn.mem_scan_of_mem_keysVisited hk
  rw [scan_eq_filter (liveKeys_pairwise _ _)] at hscan
  exact BTxn.acceptsKey_of_mem_liveKeys hdb k (List.mem_filter.mp hscan).1

/-- The operations of a command succeed exactly where they are applicable, and then add their writes. -/
theorem perform_eq_ok_iff {b : Body} :
    perform M env txn b = .ok txn' ↔ b.Applicable M env txn ∧
      txn' = { txn with pendingWrites := b.written M env txn ++ txn.pendingWrites } := by
  cases b with
  | transaction subs => exact applySubs_eq_ok_iff
  | single sub =>
    cases sub with
    | deleteByPrefix pre => exact BTxn.deleteKeys_eq_ok_iff
    | _ =>
      rw [perform_single (by simp), applySub_eq_ok_iff]
      unfold Body.Applicable Body.written
      dsimp only
      rw [SubCommand.applicable_iff env]
      constructor
      · rintro ⟨key, e, hw, hk, rfl⟩
        refine ⟨⟨key, e, hw, hk⟩, ?_⟩
        rw [hw]
        rfl
      · rintro ⟨⟨key, e, hw, hk⟩, rfl⟩
        refine ⟨key, e, hw, hk, ?_⟩
        rw [hw]
        rfl

/-- A command is applied without an error where its operations can be performed. -/
theorem exists_apply_iff : (∃ db', apply M db env c = .ok db') ↔
    ∃ txn, perform M env (BTxn.newTransactionAt db c.readTs) c.body = .ok txn := by
  rw [apply_eq_install]
  unfold writes
  cases perform M env (BTxn.newTransactionAt db c.readTs) c.body with
  | error | ok => simp [Except.map]

/-! ## The keys that are written -/

/-- One more pending write. -/
theorem extends_withWrite {T : Key → Prop} {key : Key} (hk : T key) (txn : BTxn) (e : Entry) :
    Extends T txn (txn.withWrite key e) :=
  ⟨rfl, rfl, [(key, e)], rfl, by simpa using hk⟩

/-- The loop of a prefix deletion writes keys that Badger accepts. -/
theorem deleteKeys_extends_accepted {keys : List Key} (h : txn.deleteKeys keys = .ok txn') :
    Extends AcceptsKey txn txn' := by
  induction keys generalizing txn with
  | nil =>
    obtain rfl : txn = txn' := by simpa [BTxn.deleteKeys] using h
    exact Extends.refl _ _
  | cons k keys ih =>
    obtain ⟨txn₁, h₁, h⟩ := bind_eq_ok h
    obtain ⟨hk, rfl⟩ := BTxn.modify_eq_ok_iff.mp h₁
    exact Extends.trans (extends_withWrite hk _ _) (ih h)

end Fsm

end Omashu
