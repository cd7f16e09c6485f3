import Omashu.Leader.Alone
import Omashu.Leader.Conflicts
import Omashu.Leader.OwnWrites
import Omashu.Store.JsonTexts
import Omashu.Store.PrefixDeletion
import Omashu.Store.Settled
import Omashu.Tso.Terms

/-!
# A single-node store and a leader, side by side

The operations of `badger.go` and those of `distributed.go` have the same names. `Pair` performs a sequence of
them on both, one after the other: on a single-node Badger, where each is a transaction that reads and writes
the latest versions, and on a leader, where each goes through the oracle, the Raft log and the state machine
(`Leader.serve`) before the next one starts. The leader also renews the upper bound of its clock in between.

`sequential_equivalence` says that both always hold the same values, for all keys but the one of the upper
bound, and that an operation fails on both or on none. The values of documents that were last written by
`UpdateJson` are compared as JSON objects, since the two stores encode them along different ways.
-/

namespace Omashu

open Lib

variable {G V : Type}

/-- An operation outside of transactions. -/
inductive SingleOp (G : Type)
  /-- `Set`, `Delete`, `IncrBy`, `DecrBy` or `UpdateJson`. -/
  | write (w : TxnWrite G)
  | deleteByPrefix (pre : Bytes)

/-- The time to live that a write carries. -/
def TxnWrite.ttl : TxnWrite G → Option ℤ
  | .set _ _ ttl | .updateJson _ _ ttl => ttl
  | _ => none

/-- The sub-command of a write, unless its delta cannot be marshalled. -/
def TxnWrite.subCommand (C : JsonCodec G) : TxnWrite G → Except Err SubCommand
  | .set key value ttl => .ok (.set key value ttl)
  | .delete key => .ok (.delete key)
  | .incrBy key delta => .ok (.incrBy key delta)
  | .decrBy key delta => .ok (.decrBy key delta)
  | .updateJson key delta ttl => (C.marshal delta).map fun b => .update key b .json [] ttl

namespace SingleOp

/-- The operation on a single-node store. -/
def onBadger (C : JsonCodec G) (env : Env) (txn : BTxn) : SingleOp G → Except Err BTxn
  | .write w => w.onBadger C env txn
  | .deleteByPrefix pre => txn.deleteByPrefixWithTxn env pre

/-- The operation on the distributed store. -/
def op (C : JsonCodec G) : SingleOp G → WriteOp
  | .write w => w.op C
  | .deleteByPrefix pre => .deleteByPrefix pre

/-- The sub-command of the operation, unless a delta cannot be marshalled. -/
def subCommand (C : JsonCodec G) : SingleOp G → Except Err SubCommand
  | .write w => w.subCommand C
  | .deleteByPrefix pre => .ok (.deleteByPrefix pre)

/-- Which keys hold documents of `UpdateJson` after the operation. -/
def documents (documents : Key → Bool) : SingleOp G → Key → Bool
  | .write (.updateJson key ..) => Function.update documents key true
  | .write w => Function.update documents w.key false
  | .deleteByPrefix pre => fun key => if pre <+: key then false else documents key

end SingleOp

/-- The two stores, with what is recorded of the operations. -/
structure Pair where
  /-- The single-node store. -/
  badger : Badger
  /-- The leader, with a call for each operation. -/
  leader : Leader ℕ
  /-- The next call. -/
  next : ℕ
  /-- The keys whose value was last written by `UpdateJson`. -/
  documents : Key → Bool
  /-- The errors of the operations so far, on the single-node store and on the leader. -/
  results : List (Option Err × Option Err)

/-- What is done next. -/
inductive PairAction (G : Type)
  /-- An operation, with the surroundings of the single-node store, of the leader's body and of its `Apply`, and
  the readings of the leader's clock. -/
  | operation (op : SingleOp G) (env bodyEnv applyEnv : Env) (readings : List ℤ)
  /-- `UpdateWindow` of the leader. -/
  | updateWindow (upperBound : ℤ) (bodyEnv applyEnv : Env) (readings : List ℤ)

namespace Pair

/-- The leader serves a request, whose call returns. -/
def serve (C : JsonCodec G) (s : Pair) (q : Request) : Option (Leader ℕ × Option Err) :=
  match Leader.serve C.toMerge s.next q 10 s.leader with
  | none => none
  | some leader =>
    match (leader.calls s.next).phase with
    | .returned e => some (leader, e)
    | _ => none

/-- One operation on both stores. -/
def step (C : JsonCodec G) (s : Pair) : PairAction G → Option Pair
  | .operation op env bodyEnv applyEnv readings =>
    let r := s.badger.update fun txn => op.onBadger C env txn
    (s.serve C ⟨.single, op.op C, bodyEnv, applyEnv, readings⟩).map fun x =>
      { badger := r.1
        leader := x.1
        next := s.next + 1
        documents := if r.2.isNone then op.documents s.documents else s.documents
        results := s.results ++ [(r.2, x.2)] }
  | .updateWindow upperBound bodyEnv applyEnv readings =>
    (s.serve C ⟨.transaction, .set persistentKey (uint64ToBytes (upperBound % 2^64).toNat) none, bodyEnv,
        applyEnv, readings⟩).map fun x =>
      { s with
        leader := { x.1 with
          tso := { x.1.tso with
            toClock := if x.2.isNone then x.1.tso.toClock.resetSaved upperBound else x.1.tso.toClock } }
        next := s.next + 1 }

end Pair

section Conditions

variable {C : JsonCodec G} (J : JsonObjects C V)

/-- What the write assumes of the value under its key: a counter has eight bytes, and a document is a JSON
object. The delta is a JSON object too, or cannot be marshalled at all. -/
def TxnWrite.Typed (documents : Key → Bool) (values : Key → Option Bytes) : TxnWrite G → Prop
  | .incrBy key _ | .decrBy key _ => documents key = false ∧ ∀ b ∈ values key, b.length = 8
  | .updateJson key delta _ =>
    (∀ b ∈ values key, (J.text b).isSome = true) ∧
      ((J.object delta).isSome = true ∨ (C.marshal delta).isOk = false)
  | .set .. | .delete _ => True

/-- The operations that are compared: without a time to live, of strings that are valid UTF-8, of keys that
Badger accepts and other than the one of the upper bound. -/
def SingleOp.Comparable (documents : Key → Bool) (values : Key → Option Bytes) : SingleOp G → Prop
  | .write w =>
    w.ttl = none ∧ AcceptsKey w.key ∧ w.key ≠ persistentKey ∧ utf8Valid w.key = true ∧
      w.Typed J documents values
  | .deleteByPrefix pre => utf8Valid pre = true

/-- `allocate` returns, with a timestamp above all that it has returned before. -/
def Clock.Increases (c : Clock) (readings : List ℤ) : Prop :=
  ∃ c' ∈ c.allocate readings, c.current.compose < c'.current.compose

/-- The condition on an operation: it is one of those that are compared, its contexts are not done, and the
leader's timestamps increase where it asks for one. -/
def Pair.Allowed (s : Pair) : PairAction G → Prop
  | .operation op env bodyEnv applyEnv readings =>
    op.Comparable J s.documents (s.badger.db.value s.badger.ts) ∧
      env.doneAfter = none ∧ bodyEnv.doneAfter = none ∧ applyEnv.doneAfter = none ∧
      ((op.subCommand C).isOk = true → s.leader.tso.toClock.Increases readings)
  | .updateWindow _ _ _ readings => s.leader.tso.toClock.Increases readings

instance (documents : Key → Bool) (values : Key → Option Bytes) (w : TxnWrite G) :
    Decidable (w.Typed J documents values) :=
  match w with
  | .set .. | .delete _ => inferInstanceAs (Decidable True)
  | .incrBy _ _ | .decrBy _ _ | .updateJson _ _ _ => inferInstanceAs (Decidable (_ ∧ _))

instance (documents : Key → Bool) (values : Key → Option Bytes) (op : SingleOp G) :
    Decidable (op.Comparable J documents values) :=
  match op with
  | .write _ => inferInstanceAs (Decidable (_ ∧ _))
  | .deleteByPrefix pre => inferInstanceAs (Decidable (utf8Valid pre = true))

instance (c : Clock) (readings : List ℤ) : Decidable (c.Increases readings) :=
  inferInstanceAs (Decidable (∃ c' ∈ c.allocate readings, _))

instance (s : Pair) (a : PairAction G) : Decidable (s.Allowed J a) :=
  match a with
  | .operation _ _ _ _ _ => inferInstanceAs (Decidable (_ ∧ _))
  | .updateWindow _ _ _ readings => inferInstanceAs (Decidable (s.leader.tso.toClock.Increases readings))

/-- The values of a key in the two stores agree: as JSON objects if it holds a document, and byte for byte
otherwise. -/
def SameValue (document : Bool) (value value' : Option Bytes) : Prop :=
  if document then ∃ b b' v, value = some b ∧ value' = some b' ∧ J.text b = some v ∧ J.text b' = some v
  else value = value'

/-- The values of all keys agree, but for the one of the upper bound. -/
def Agree (documents : Key → Bool) (values values' : Key → Option Bytes) : Prop :=
  ∀ key, key ≠ persistentKey → SameValue J (documents key) (values key) (values' key)

/-- The two stores hold the same values, and each operation has failed on both or on none. -/
structure Pair.Equivalent (s : Pair) : Prop where
  /-- At all times the latest value is the same, for every key but the one of the upper bound. -/
  values : ∀ now now', Agree J s.documents
    ((BTxn.newTransactionAt s.badger.db s.badger.ts).lookup now)
    ((BTxn.newTransactionAt s.leader.store s.leader.tso.currentReadTs).lookup now')
  /-- The operations have failed on both stores or on none. -/
  results : ∀ r ∈ s.results, r.1.isSome = r.2.isSome

end Conditions

/-- Two stores that operations can be performed on: the leader is at rest, and both hold the same values. -/
structure Pair.Initial (s : Pair) : Prop where
  /-- The single-node store has nothing above its last commit. -/
  badger : s.badger.db.Settled s.badger.ts
  /-- The leader is at rest. -/
  leader : s.leader.Rested
  /-- Its store has nothing above its last timestamp. -/
  store : s.leader.store.Settled s.leader.tso.currentReadTs
  /-- The calls of the operations have not begun. -/
  idle : ∀ i, s.next ≤ i → (s.leader.calls i).phase = .idle
  /-- The values are the same, but for the key of the upper bound. -/
  values : ∀ key, key ≠ persistentKey →
    s.badger.db.value s.badger.ts key = s.leader.store.value s.leader.tso.currentReadTs key
  /-- No document was written yet. -/
  documents : ∀ key, s.documents key = false
  /-- No operation was performed yet. -/
  results : s.results = []

variable {C : JsonCodec G} {J : JsonObjects C V} {w : TxnWrite G}
  {documents : Key → Bool} {values values' : Key → Option Bytes}

/-! ## What an operation writes -/

/-- A counter of eight bytes is written alike on the two stores, and what is written does not expire. -/
theorem counterWrite_same {document : Bool} {value value' : Option Bytes} (key : Key) (absent : ℕ) (next : ℕ → ℕ)
    (hsame : SameValue J document value value') (hdoc : document = false) (hlen : ∀ b ∈ value, b.length = 8) :
    ∃ e, SubCommand.counterWrite key absent next value = some (key, e) ∧
      SubCommand.counterWrite key absent next value' = some (key, e) ∧ e.Lasting := by
  obtain rfl : value = value' := by simpa [SameValue, hdoc] using hsame
  cases value with
  | none => exact ⟨_, rfl, rfl, rfl⟩
  | some b =>
    obtain ⟨v, hv⟩ := bytesToUint64_isSome_iff.mpr (hlen b rfl).ge
    have hwrite : SubCommand.counterWrite key absent next (some b) =
        some (key, .value (uint64ToBytes (next v)) 0) := by
      simp only [SubCommand.counterWrite, hv, Option.map_some]
    exact ⟨_, hwrite, hwrite, rfl⟩

/-- Values that agree byte for byte, or as objects where they are documents, stand for the same object. -/
theorem SameValue.fullObject {document : Bool} {value value' : Option Bytes} (h : SameValue J document value value')
    (htext : ∀ b ∈ value, (J.text b).isSome = true) :
    ∃ v, J.fullObject value = some v ∧ J.fullObject value' = some v := by
  cases document with
  | true =>
    obtain ⟨b, b', v, rfl, rfl, hb, hb'⟩ := h
    exact ⟨v, hb, hb'⟩
  | false =>
    obtain rfl : value = value' := h
    cases value with
    | none => exact ⟨J.empty, rfl, rfl⟩
    | some b =>
      obtain ⟨v, hv⟩ := Option.isSome_iff_exists.mp (htext b rfl)
      exact ⟨v, hv, hv⟩

/-- What a write that can be marshalled writes on the two stores, from values that agree. -/
theorem TxnWrite.written_same (env env' : Env) {sub : SubCommand}
    (hsame : SameValue J (documents w.key) (values w.key) (values' w.key)) (httl : w.ttl = none)
    (htyped : w.Typed J documents values) (hsub : w.subCommand C = .ok sub) :
    ∃ e e', w.written C env values = some (w.key, e) ∧
      sub.written C.toMerge env' values' = some (w.key, e') ∧ e.Lasting ∧ e'.Lasting ∧
      SameValue J ((SingleOp.write w).documents documents w.key) (e.live 0) (e'.live 0) := by
  cases w with
  | set key value ttl =>
    obtain rfl : ttl = none := httl
    obtain rfl := Except.ok.inj hsub
    refine ⟨.value value 0, .value value 0, rfl, rfl, rfl, rfl, ?_⟩
    simp [SameValue, SingleOp.documents]
  | delete key =>
    obtain rfl := Except.ok.inj hsub
    refine ⟨.tombstone, .tombstone, rfl, rfl, trivial, trivial, ?_⟩
    simp [SameValue, SingleOp.documents]
  | incrBy key delta =>
    obtain rfl := Except.ok.inj hsub
    obtain ⟨e, he, he', hlasting⟩ := counterWrite_same key delta.toNat (· + delta.toNat) hsame htyped.1 htyped.2
    refine ⟨e, e, he, he', hlasting, hlasting, ?_⟩
    simp [SameValue, SingleOp.documents]
  | decrBy key delta =>
    obtain rfl := Except.ok.inj hsub
    obtain ⟨e, he, he', hlasting⟩ := counterWrite_same key 0
      (fun v => if v < delta.toNat then 0 else v - delta.toNat) hsame htyped.1 htyped.2
    refine ⟨e, e, he, he', hlasting, hlasting, ?_⟩
    simp [SameValue, SingleOp.documents]
  | updateJson key delta ttl =>
    obtain rfl : ttl = none := httl
    obtain ⟨htext, hdelta⟩ := htyped
    obtain ⟨d, hd, rfl⟩ := map_eq_ok hsub
    have hobject : (J.object delta).isSome = true := by
      rcases hdelta with h | h
      · exact h
      · rw [hd] at h
        cases h
    obtain ⟨o, ho⟩ := Option.isSome_iff_exists.mp hobject
    obtain ⟨v, hv, hv'⟩ : ∃ v, J.fullObject (values key) = some v ∧ J.fullObject (values' key) = some v :=
      SameValue.fullObject hsame htext
    obtain ⟨b, hb, hbtext⟩ := JsonObjects.merge_object hv ho
    obtain ⟨b', hb', hbtext'⟩ := JsonObjects.merged_object hv' ho hd []
    refine ⟨.value b 0, .value b' 0, ?_, ?_, rfl, rfl, ?_⟩
    · simp only [TxnWrite.written, hb, TxnWrite.key, expiry]
    · simp only [SubCommand.written, hb', TxnWrite.key, expiry]
    · simp only [SingleOp.documents, TxnWrite.key, Function.update_self, SameValue, if_true]
      exact ⟨b, b', _, rfl, rfl, hbtext, hbtext'⟩

/-- A write leaves the other keys as they are. -/
theorem SingleOp.documents_of_ne {key : Key} (h : key ≠ w.key) :
    (SingleOp.write w).documents documents key = documents key := by
  cases w <;> exact Function.update_of_ne h _ _

section Performed

variable {db store : Store} {ts r c : ℕ} {sub : SubCommand}

/-- A write that can be marshalled succeeds on both stores, and leaves them with values that agree. -/
theorem TxnWrite.performed (env env' : Env) (hdb : db.Settled ts) (hstore : store.Settled r) (hrc : r ≤ c)
    (hagree : Agree J documents (db.value ts) (store.value r))
    (hop : (SingleOp.write w).Comparable J documents (db.value ts)) (hsub : w.subCommand C = .ok sub) :
    ∃ db' store', db.newTransactionAt ts (ts + 1) (fun txn => w.onBadger C env txn) = .ok db' ∧
      db'.Settled (ts + 1) ∧ Fsm.apply C.toMerge store env' ⟨r, c, .single sub⟩ = .ok store' ∧
      store'.Settled c ∧
      Agree J ((SingleOp.write w).documents documents) (db'.value (ts + 1)) (store'.value c) := by
  obtain ⟨httl, hkey, hbound, -, htyped⟩ := hop
  obtain ⟨e, e', hwritten, hwritten', he, he', hsame⟩ :=
    TxnWrite.written_same env env' (hagree w.key hbound) httl htyped hsub
  obtain ⟨hdb', hvalue⟩ := hdb.commitAt_withWrite (Nat.le_succ ts) hkey he
  obtain ⟨hstore', hvalue'⟩ := hstore.commitAt_withWrite hrc hkey he'
  have hbadger : w.onBadger C env (BTxn.newTransactionAt db ts) =
      .ok ((BTxn.newTransactionAt db ts).withWrite w.key e) := by
    rw [TxnWrite.onBadger_eq_ok_iff, hdb.lookup_eq le_rfl]
    exact ⟨w.key, e, hwritten, hkey, rfl⟩
  have hfsm : Fsm.applySub C.toMerge env' (BTxn.newTransactionAt store r) sub =
      .ok ((BTxn.newTransactionAt store r).withWrite w.key e') := by
    rw [Fsm.applySub_eq_ok_iff, hstore.lookup_eq le_rfl]
    exact ⟨w.key, e', hwritten', hkey, rfl⟩
  have hpre : ∀ pre, sub ≠ .deleteByPrefix pre := by
    rintro pre rfl
    exact nomatch hwritten'
  refine ⟨_, _, ?_, hdb', ?_, hstore', ?_⟩
  · show (w.onBadger C env (BTxn.newTransactionAt db ts)).map _ = _
    rw [hbadger]
    rfl
  · rw [Fsm.apply_eq_newTransactionAt]
    show (Fsm.perform C.toMerge env' (BTxn.newTransactionAt store r) (.single sub)).map _ = _
    rw [Fsm.perform_single hpre, hfsm]
    rfl
  · rw [hvalue, hvalue']
    intro key hne
    by_cases hk : key = w.key
    · rw [hk, Function.update_self, Function.update_self]
      exact hsame
    · rw [Function.update_of_ne hk, Function.update_of_ne hk, SingleOp.documents_of_ne hk]
      exact hagree key hne

/-- So does every operation whose sub-command can be marshalled. -/
theorem SingleOp.performed {op : SingleOp G} {env env' : Env} (hdb : db.Settled ts) (hstore : store.Settled r)
    (hrc : r ≤ c) (hagree : Agree J documents (db.value ts) (store.value r))
    (hop : op.Comparable J documents (db.value ts)) (hsub : op.subCommand C = .ok sub)
    (henv : env.doneAfter = none) (henv' : env'.doneAfter = none) :
    ∃ db' store', db.newTransactionAt ts (ts + 1) (fun txn => op.onBadger C env txn) = .ok db' ∧
      db'.Settled (ts + 1) ∧ Fsm.apply C.toMerge store env' ⟨r, c, .single sub⟩ = .ok store' ∧
      store'.Settled c ∧ Agree J (op.documents documents) (db'.value (ts + 1)) (store'.value c) := by
  cases op with
  | write w => exact TxnWrite.performed env env' hdb hstore hrc hagree hop hsub
  | deleteByPrefix pre =>
    obtain rfl := Except.ok.inj hsub
    obtain ⟨db', hok, hdb', hvalue⟩ := hdb.deleteByPrefix (Nat.le_succ ts) henv pre
    obtain ⟨store', hok', hstore', hvalue'⟩ := hstore.deleteByPrefix hrc henv' pre
    refine ⟨db', store', hok, hdb', hok', hstore', ?_⟩
    rw [hvalue, hvalue']
    intro key hne
    -- Both stores have lost the keys with the prefix, and no others.
    by_cases hk : pre <+: key
    · simp [SingleOp.documents, hk, SameValue]
    · simpa [SingleOp.documents, hk] using hagree key hne

/-- An operation whose delta cannot be marshalled fails on the single-node store. -/
theorem SingleOp.onBadger_error {op : SingleOp G} {e : Err} (db : Store) (ts c : ℕ) (env : Env)
    (hsub : op.subCommand C = .error e) :
    ∃ e', db.newTransactionAt ts c (fun txn => op.onBadger C env txn) = .error e' := by
  cases hbadger : op.onBadger C env (BTxn.newTransactionAt db ts) with
  | error e' =>
    refine ⟨e', ?_⟩
    show (op.onBadger C env (BTxn.newTransactionAt db ts)).map _ = _
    rw [hbadger]
    rfl
  | ok txn =>
    -- What can be merged can be marshalled.
    cases op with
    | deleteByPrefix pre => cases hsub
    | write w =>
      obtain ⟨key, entry, hwritten, hkey, -⟩ := TxnWrite.onBadger_eq_ok_iff.mp hbadger
      cases w with
      | updateJson key' delta ttl =>
        simp only [TxnWrite.written] at hwritten
        split at hwritten
        · next merged hmerge =>
          obtain ⟨d, hd⟩ := JsonCodec.exists_marshal_of_merge hmerge
          simp [SingleOp.subCommand, TxnWrite.subCommand, hd, Except.map] at hsub
        · cases hwritten
      | _ => cases hsub

end Performed

/-! ## What the leader buffers -/

/-- A write is buffered as its sub-command, once its key is validated. -/
theorem TxnWrite.write_eq_buffer (txn : Txn) (db : Store) (env : Env) :
    txn.write db env (w.op C) = txn.buffer w.key (w.subCommand C) := by
  cases w <;> rfl

/-- In a new transaction, an operation that is compared is buffered as its sub-command. -/
theorem SingleOp.write_ok {op : SingleOp G} {db : Store} {env : Env} {sub : SubCommand} (r : ℕ)
    (hdb : db.KeysAccepted) (henv : env.doneAfter = none) (hop : op.Comparable J documents values)
    (hsub : op.subCommand C = .ok sub) :
    ∃ txn, (Txn.beginTxn r true).write db env (op.op C) = (txn, .ok ()) ∧ txn.subCommands = [sub] := by
  cases op with
  | write w =>
    have hkey : w.key ≠ [] := hop.2.1.1
    have hsub : w.subCommand C = .ok sub := hsub
    refine ⟨Txn.addSubCommand { Txn.beginTxn r true with
      conflictKeys := insert w.key ∅
      writes := [] ++ [w.key] } sub, ?_, rfl⟩
    show (Txn.beginTxn r true).write db env (w.op C) = _
    rw [TxnWrite.write_eq_buffer, hsub]
    unfold Txn.buffer
    rw [Txn.validate_eq_ok_of_ne_nil rfl rfl hkey]
    rfl
  | deleteByPrefix pre =>
    obtain rfl := Except.ok.inj hsub
    obtain ⟨ks, hfound, hkeys⟩ : ∃ ks, db.getKeysByPrefixAt env pre r = .ok ks ∧ ∀ k ∈ ks, k ≠ [] := by
      refine ⟨scan pre ((BTxn.newTransactionAt db r).liveKeys env.now), ?_, fun k hk => ?_⟩
      · simp only [Store.getKeysByPrefixAt, BTxn.getKeysByPrefixWithTxn, henv]
      · rw [scan_eq_filter (liveKeys_pairwise _ _)] at hk
        exact (BTxn.acceptsKey_of_mem_liveKeys hdb k (List.mem_filter.mp hk).1).1
    obtain ⟨txn, htxn⟩ : ∃ txn, ((Txn.beginTxn r true).addReadKeys ks).validateAll ks = (txn, .ok ()) :=
      Txn.exists_validateAll rfl rfl hkeys
    have hsubs : txn.subCommands = [] := by
      have h := Txn.validateAll_subCommands ((Txn.beginTxn r true).addReadKeys ks) ks
      rw [htxn] at h
      exact h
    refine ⟨txn.addSubCommand (.deleteByPrefix pre), ?_, ?_⟩
    · show (Txn.beginTxn r true).deleteByPrefix db env pre = _
      unfold Txn.deleteByPrefix
      rw [show (Txn.beginTxn r true).readTs = r from rfl, hfound]
      simp only [htxn]
    · simp [Txn.addSubCommand, hsubs]

/-- An operation whose delta cannot be marshalled fails on the leader. -/
theorem SingleOp.write_error {op : SingleOp G} {e : Err} (db : Store) (env : Env) (r : ℕ)
    (hop : op.Comparable J documents values) (hsub : op.subCommand C = .error e) :
    ∃ txn, (Txn.beginTxn r true).write db env (op.op C) = (txn, .error e) := by
  cases op with
  | deleteByPrefix pre => exact nomatch hsub
  | write w =>
    have hkey : w.key ≠ [] := hop.2.1.1
    have hsub : w.subCommand C = .error e := hsub
    show ∃ txn, (Txn.beginTxn r true).write db env (w.op C) = (txn, .error e)
    rw [TxnWrite.write_eq_buffer, hsub]
    unfold Txn.buffer
    rw [Txn.validate_eq_ok_of_ne_nil rfl rfl hkey]
    exact ⟨_, rfl⟩

/-- The strings of an operation that is compared are valid UTF-8. -/
theorem SingleOp.encodable_subCommand {op : SingleOp G} {sub : SubCommand}
    (hop : op.Comparable J documents values) (hsub : op.subCommand C = .ok sub) : sub.encodable = true := by
  cases op with
  | deleteByPrefix pre =>
    obtain rfl := Except.ok.inj hsub
    exact hop
  | write w =>
    have hutf8 : utf8Valid w.key = true := hop.2.2.2.1
    cases w with
    | updateJson key delta ttl =>
      obtain ⟨d, -, rfl⟩ := map_eq_ok hsub
      simpa [SubCommand.encodable, utf8Valid, TxnWrite.key] using hutf8
    | _ =>
      obtain rfl := Except.ok.inj hsub
      exact hutf8

/-! ## The invariant -/

namespace Pair

variable {s t : Pair}

/-- Between operations the two stores agree, and the leader is at rest. -/
structure Inv (J : JsonObjects C V) (s : Pair) : Prop where
  /-- The single-node store has nothing above its last commit. -/
  badger : s.badger.db.Settled s.badger.ts
  /-- The leader is at rest. -/
  leader : s.leader.Rested
  /-- Its store has nothing above its last timestamp. -/
  store : s.leader.store.Settled s.leader.tso.currentReadTs
  /-- The calls to come have not begun. -/
  idle : ∀ i, s.next ≤ i → (s.leader.calls i).phase = .idle
  /-- The values agree. -/
  agree : Agree J s.documents (s.badger.db.value s.badger.ts)
    (s.leader.store.value s.leader.tso.currentReadTs)
  /-- The operations have failed on both stores or on none. -/
  results : ∀ r ∈ s.results, r.1.isSome = r.2.isSome

/-- The first state has the invariant. -/
theorem Initial.inv (h : s.Initial) : s.Inv J := by
  refine ⟨h.badger, h.leader, h.store, h.idle, fun key hkey => ?_, fun r hr => ?_⟩
  · rw [h.documents]
    exact h.values key hkey
  · rw [h.results] at hr
    exact absurd hr List.not_mem_nil

/-- The invariant says what the two stores hold at any time. -/
theorem Inv.equivalent (h : s.Inv J) : s.Equivalent J := by
  refine ⟨fun now now' => ?_, h.results⟩
  rw [h.badger.lookup_eq le_rfl, h.store.lookup_eq le_rfl]
  exact h.agree

/-- After a call has returned, the calls that are still to come have not begun. -/
theorem Inv.idle_of_served (h : s.Inv J) {l : Leader ℕ} {e : Option Err}
    (hl : Leader.Served s.leader l s.next e) (i : ℕ) (hi : s.next + 1 ≤ i) : (l.calls i).phase = .idle := by
  rw [hl.calls i (by omega)]
  exact h.idle i (by omega)

/-- What the leader has served. -/
theorem serve_eq {q : Request} {l : Leader ℕ} {e : Option Err}
    (h : Leader.serve C.toMerge s.next q 10 s.leader = some l) (hl : Leader.Served s.leader l s.next e) :
    s.serve C q = some (l, e) := by
  simp only [serve, h, hl.phase]

/-- One more result keeps the results alike, if it is alike. -/
theorem Inv.results_append (h : s.Inv J) {r : Option Err × Option Err} (hr : r.1.isSome = r.2.isSome) :
    ∀ r' ∈ s.results ++ [r], r'.1.isSome = r'.2.isSome := by
  intro r' hr'
  rcases List.mem_append.mp hr' with hr' | hr'
  · exact h.results r' hr'
  · rw [List.mem_singleton.mp hr']
    exact hr

section Operation

variable {op : SingleOp G} {env bodyEnv applyEnv : Env} {readings : List ℤ}

/-- An operation whose sub-command can be marshalled succeeds on both stores. -/
theorem Inv.operation_ok (h : s.Inv J) {sub : SubCommand}
    (ha : s.Allowed J (.operation op env bodyEnv applyEnv readings)) (hsub : op.subCommand C = .ok sub) :
    ∃ t, s.step C (.operation op env bodyEnv applyEnv readings) = some t ∧ t.Inv J := by
  obtain ⟨hop, henv, hbody, happly, hincreases⟩ := ha
  obtain ⟨c, hclock, hlt⟩ := hincreases (by rw [hsub]; rfl)
  have hrc : s.leader.tso.currentReadTs ≤ c.current.compose := hlt.le
  obtain ⟨db, store, hdb, hdbs, hstore, hstores, hagree⟩ :=
    SingleOp.performed h.badger h.store hrc h.agree hop hsub henv happly
  have hupdate : (s.badger.update fun txn => op.onBadger C env txn) = (⟨db, s.badger.ts + 1⟩, none) := by
    unfold Badger.update
    rw [hdb]
  -- The leader buffers the operation, proposes it and applies it.
  obtain ⟨txn, hwrite, hsubs⟩ :=
    SingleOp.write_ok s.leader.tso.currentReadTs h.store.accepted hbody hop hsub
  obtain ⟨l, hl, hserved, hlstore, hlclock⟩ :=
    Leader.serve_applied (q := ⟨.single, op.op C, bodyEnv, applyEnv, readings⟩) h.leader
      (h.idle s.next le_rfl) hwrite hsubs (SingleOp.encodable_subCommand hop hsub) hclock hrc hstore
  have hts : l.tso.currentReadTs = c.current.compose := by rw [← hlclock, Tso.currentReadTs]
  have hstep : s.step C (.operation op env bodyEnv applyEnv readings) =
      some ⟨⟨db, s.badger.ts + 1⟩, l, s.next + 1, op.documents s.documents, s.results ++ [(none, none)]⟩ := by
    simp only [step, hupdate, serve_eq hl hserved, Option.map_some, Option.isNone_none, if_true]
  subst hlstore
  rw [← hts] at hstores hagree
  exact ⟨_, hstep, hdbs, hserved.rested, hstores, h.idle_of_served hserved, hagree, h.results_append rfl⟩

/-- An operation whose delta cannot be marshalled fails on both stores, and leaves them as they are. -/
theorem Inv.operation_error (h : s.Inv J) {e : Err}
    (ha : s.Allowed J (.operation op env bodyEnv applyEnv readings)) (hsub : op.subCommand C = .error e) :
    ∃ t, s.step C (.operation op env bodyEnv applyEnv readings) = some t ∧ t.Inv J := by
  obtain ⟨e', herror⟩ := SingleOp.onBadger_error s.badger.db s.badger.ts (s.badger.ts + 1) env hsub
  have hupdate : (s.badger.update fun txn => op.onBadger C env txn) = (s.badger, some e') := by
    unfold Badger.update
    rw [herror]
  obtain ⟨txn, hwrite⟩ := SingleOp.write_error s.leader.store bodyEnv s.leader.tso.currentReadTs ha.1 hsub
  obtain ⟨l, hl, hserved, hlstore, hlclock⟩ :=
    Leader.serve_failed (M := C.toMerge) (q := ⟨.single, op.op C, bodyEnv, applyEnv, readings⟩) h.leader
      (h.idle s.next le_rfl) rfl hwrite
  have hts : l.tso.currentReadTs = s.leader.tso.currentReadTs := by
    unfold Tso.currentReadTs
    rw [hlclock]
  have hstep : s.step C (.operation op env bodyEnv applyEnv readings) =
      some ⟨s.badger, l, s.next + 1, s.documents, s.results ++ [(some e', some e)]⟩ := by
    simp [step, hupdate, serve_eq hl hserved]
  refine ⟨_, hstep, h.badger, hserved.rested, ?_, h.idle_of_served hserved, ?_, h.results_append rfl⟩
  · show l.store.Settled l.tso.currentReadTs
    rw [hlstore, hts]
    exact h.store
  · show Agree J _ _ (l.store.value l.tso.currentReadTs)
    rw [hlstore, hts]
    exact h.agree

end Operation

/-- The transaction of `UpdateWindow` sets the key of the upper bound, which Badger accepts. -/
theorem apply_setBound (M : Merge) (store : Store) (env : Env) (r c : ℕ) (upperBound : ℤ) :
    Fsm.apply M store env ⟨r, c, .transaction [setBound upperBound]⟩ =
      .ok (((BTxn.newTransactionAt store r).withWrite persistentKey
        (.value (uint64ToBytes (upperBound % 2^64).toNat) 0)).commitAt c) := by
  have hsub : Fsm.applySub M env (BTxn.newTransactionAt store r) (setBound upperBound) =
      .ok ((BTxn.newTransactionAt store r).withWrite persistentKey
        (.value (uint64ToBytes (upperBound % 2^64).toNat) 0)) :=
    Fsm.applySub_eq_ok_iff.mpr ⟨persistentKey, _, rfl, by decide, rfl⟩
  rw [Fsm.apply_eq_newTransactionAt]
  show ((Fsm.applySub M env (BTxn.newTransactionAt store r) (setBound upperBound)).bind _).map _ = _
  rw [hsub]
  rfl

/-- `UpdateWindow` writes the key of the upper bound, and no other. -/
theorem Inv.updateWindow (h : s.Inv J) {upperBound : ℤ} {bodyEnv applyEnv : Env} {readings : List ℤ}
    (ha : s.Allowed J (.updateWindow upperBound bodyEnv applyEnv readings)) :
    ∃ t, s.step C (.updateWindow upperBound bodyEnv applyEnv readings) = some t ∧ t.Inv J := by
  obtain ⟨c, hclock, hlt⟩ := ha
  have hrc : s.leader.tso.currentReadTs ≤ c.current.compose := hlt.le
  have hkey : AcceptsKey persistentKey := by decide
  have hlasting : (Entry.value (uint64ToBytes (upperBound % 2^64).toNat) 0).Lasting := rfl
  obtain ⟨hstores, hvalue⟩ := h.store.commitAt_withWrite hrc hkey hlasting
  have happly := apply_setBound C.toMerge s.leader.store applyEnv s.leader.tso.currentReadTs
    c.current.compose upperBound
  obtain ⟨txn, hwrite, hsubs⟩ : ∃ txn, (Txn.beginTxn s.leader.tso.currentReadTs true).write s.leader.store bodyEnv
      (.set persistentKey (uint64ToBytes (upperBound % 2^64).toNat) none) = (txn, .ok ()) ∧
      txn.subCommands = [setBound upperBound] := ⟨_, rfl, rfl⟩
  obtain ⟨l, hl, hserved, hlstore, hlclock⟩ :=
    Leader.serve_applied (q := ⟨.transaction, .set persistentKey (uint64ToBytes (upperBound % 2^64).toNat) none,
      bodyEnv, applyEnv, readings⟩) h.leader (h.idle s.next le_rfl) hwrite hsubs
      (show utf8Valid persistentKey = true by decide) hclock hrc happly
  have hts : l.tso.currentReadTs = c.current.compose := by rw [← hlclock, Tso.currentReadTs]
  have hstep : s.step C (.updateWindow upperBound bodyEnv applyEnv readings) = some { s with
      leader := { l with tso := { l.tso with toClock := l.tso.toClock.resetSaved upperBound } }
      next := s.next + 1 } := by
    simp only [step, serve_eq hl hserved, Option.map_some, Option.isNone_none, if_true]
  -- Saving the bound does not change the last timestamp.
  have hrested := hserved.rested
  refine ⟨_, hstep, h.badger, ?_, ?_, fun i hi => h.idle_of_served hserved i hi, ?_, h.results⟩
  · exact ⟨hrested.exited, hrested.loopStopped, hrested.writeChLock, hrested.applied,
      ⟨hrested.tso.txnMark, hrested.tso.readMark, hrested.tso.committedTxns⟩⟩
  · show l.store.Settled l.tso.currentReadTs
    rw [hlstore, hts]
    exact hstores
  · show Agree J _ _ (l.store.value l.tso.currentReadTs)
    rw [hlstore, hts, hvalue]
    intro key hne
    rw [Function.update_of_ne hne]
    exact h.agree key hne

/-- Every operation that meets the condition is performed on both stores, and keeps the invariant. -/
theorem Inv.exists_step (h : s.Inv J) {a : PairAction G} (ha : s.Allowed J a) :
    ∃ t, s.step C a = some t ∧ t.Inv J := by
  cases a with
  | operation op env bodyEnv applyEnv readings =>
    cases hsub : op.subCommand C with
    | ok sub => exact h.operation_ok ha hsub
    | error e => exact h.operation_error ha hsub
  | updateWindow upperBound bodyEnv applyEnv readings => exact h.updateWindow ha

/-- In every sequence of operations on a single-node store and on a leader whose timestamps increase, the two
stores hold the same values after each operation, an operation has failed on one exactly if it has failed on
the other, and the next operation can be performed. -/
theorem sequential_equivalence {s₀ : Pair} (J : JsonObjects C V) (h₀ : s₀.Initial)
    (h : Reaches (step C) (Allowed J) s₀ s) :
    s.Equivalent J ∧ ∀ a, s.Allowed J a → ∃ t, s.step C a = some t := by
  have hinv : s.Inv J := by
    refine h.invariant h₀.inv ?_
    intro t a u ht ha hstep
    obtain ⟨u', hu', hinv⟩ := ht.exists_step ha
    rw [hstep] at hu'
    obtain rfl := Option.some.inj hu'
    exact hinv
  refine ⟨hinv.equivalent, fun a ha => ?_⟩
  obtain ⟨t, ht, -⟩ := hinv.exists_step ha
  exact ⟨t, ht⟩

/-! ## A sequence of operations -/

/-- Two stores without data. -/
def emptyPair : Pair where
  badger := ⟨[], 0⟩
  leader := Leader.serving Leader.clockAt1000 []
  next := 0
  documents _ := false
  results := []

/-- They can be started from. -/
theorem initial_emptyPair : emptyPair.Initial where
  badger := ⟨by simp [emptyPair], by simp [emptyPair, Store.Lasting], by simp [emptyPair, Store.KeysAccepted]⟩
  leader := ⟨rfl, rfl, rfl, rfl, ⟨rfl, le_rfl⟩, ⟨rfl, le_rfl⟩, by simp [emptyPair, Leader.serving]⟩
  store := ⟨by simp [emptyPair, Leader.serving], by simp [emptyPair, Leader.serving, Store.Lasting],
    by simp [emptyPair, Leader.serving, Store.KeysAccepted]⟩
  idle _ _ := rfl
  values _ _ := rfl
  documents _ := rfl
  results := rfl

/-- The delta that sets a field. -/
def setsField (c : Char) (v : GoValue) : Option GoMap := some ⟨.member (letter c) v .empty, rfl, trivial⟩

/-- Operations of every kind. The second one has a delta that cannot be marshalled, and the leader renews its
upper bound after it. -/
def someOperations : List (PairAction (Option GoMap)) :=
  [.operation (.write (.updateJson [107] (setsField 'a' (.num 1)) none)) someEnv someEnv someEnv [1001],
    .operation (.write (.updateJson [107] (setsField 'a' (.other none)) none)) someEnv someEnv someEnv [1002],
    .updateWindow 4003 someEnv someEnv [1003],
    .operation (.write (.updateJson [107] (setsField 'b' (.num 2)) none)) someEnv someEnv someEnv [1004],
    .operation (.write (.incrBy [110] 3)) someEnv someEnv someEnv [1005],
    .operation (.write (.decrBy [110] 1)) someEnv someEnv someEnv [1006],
    .operation (.write (.set [111] [9] none)) someEnv someEnv someEnv [1007],
    .operation (.deleteByPrefix [111]) someEnv someEnv someEnv [1008],
    .operation (.write (.delete [110])) someEnv someEnv someEnv [1009]]

/-- The stores after these operations. -/
def afterOperations : Pair :=
  final (guarded (step (goJson scanPlain printPlain)) (Allowed plainObjects)) emptyPair someOperations
    (by decide +kernel)

/-- The stores agree after the operations, one of which has failed on both, and both fields of the document are set. -/
theorem sequential_equivalence_operations :
    afterOperations.Equivalent plainObjects ∧
      afterOperations.results.map (fun r => (r.1.isSome, r.2.isSome)) =
        [(false, false), (true, true), (false, false), (false, false), (false, false), (false, false),
          (false, false), (false, false)] ∧
      afterOperations.badger.db.value afterOperations.badger.ts [107] =
        some (printPlain (.obj (.member (letter 'a') (.num 1) (.member (letter 'b') (.num 2) .empty)))) := by
  refine ⟨?_, by decide +kernel, by decide +kernel⟩
  have h : Reaches (step (goJson scanPlain printPlain)) (Allowed plainObjects) emptyPair afterOperations :=
    Reaches.final _
  exact (sequential_equivalence plainObjects initial_emptyPair h).1

end Pair

end Omashu
