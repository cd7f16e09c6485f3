import Omashu.Store.Applicable
import Omashu.Store.Scripts

/-!
# What the managed store refuses

A replica opens Badger in managed mode, with the options that the caller has given. Badger refuses some transactions
whose operations could be performed. While the operations run, it refuses a write that makes the transaction too big.
At the commit it refuses the timestamp zero, and a transaction that has looked up a key which a transaction that
committed above its read timestamp has written (`DetectConflicts`, on by default, which the code does not change). It
knows these transactions since the database was opened, but for those that `SetDiscardTs` has let it forget, and a
commit below that timestamp fails an assertion, which terminates the process.

`ManagedDb.apply` is `FSM.Apply` with all of this; a transaction that has written nothing just ends.
`apply_eq_ok_iff` says when a command is applied: its operations can be performed (`Command.Applicable`), and Badger
does not refuse the keys that it looks up and the writes that it makes (`Admits`). It then does what `Fsm.apply` does.
The Ready loop applies commands until one of them fails (`ManagedDb.replay`).
-/

namespace Omashu

open Lib

/-- The options of Badger by which it refuses transactions. -/
structure DbOptions where
  /-- `DetectConflicts`: transactions are checked for conflicts. -/
  detectConflicts : Bool
  /-- The number of entries that a transaction may not reach. -/
  maxBatchCount : ℕ
  /-- The size that a transaction may not reach. -/
  maxBatchSize : ℕ
  /-- The length from which on a value is kept in the value log. -/
  valueThreshold : ℕ
  /-- `ValueLogFileSize`, which no value may exceed. -/
  valueLogFileSize : ℕ

/-- The options as `badger.DefaultOptions` has them, with the limits that follow from a memtable of 64 MB. -/
def DbOptions.byDefault : DbOptions where
  detectConflicts := true
  maxBatchCount := 104857
  maxBatchSize := 10066329
  valueThreshold := 2 ^ 20
  valueLogFileSize := 2 ^ 30 - 1

/-- The length of the value of an entry. -/
def Entry.valueLength : Entry → ℕ
  | .value b _ => b.length
  | .tombstone => 0

namespace DbOptions

variable (O : DbOptions)

/-- `Entry.estimateSizeAndSetThreshold`: the key and the value with two bytes more, or a pointer of twelve bytes in
place of a long value. -/
def estimateSize (keyLength valueLength : ℕ) : ℕ :=
  if valueLength < O.valueThreshold then keyLength + valueLength + 2 else keyLength + 12 + 2

/-- The size of a transaction with the given writes. It begins with an entry for its end. -/
def txnSize (ws : List (Key × Entry)) : ℕ :=
  21 + (ws.map fun w => O.estimateSize w.1.length w.2.valueLength + 10).sum

/-- The checks of `txn.modify` after those of the key: the length of the value, and `checkSize`. -/
def checkWrite (ws : List (Key × Entry)) (key : Key) (e : Entry) : Except Err Unit :=
  if O.valueLogFileSize < e.valueLength then .error .exceedsSize
  else if O.maxBatchCount ≤ ((key, e) :: ws).length + 1 ∨ O.maxBatchSize ≤ O.txnSize ((key, e) :: ws) then
    .error .txnTooBig
  else .ok ()

/-- The check of `sendToWriteCh`, on the last write of each key, with the eight bytes of its timestamp, and the entry
that ends the transaction, with the commit timestamp in decimal. -/
def RequestFits (ws : List (Key × Entry)) (commitTs : ℕ) : Prop :=
  (ws.map Prod.fst).dedup.length + 1 < O.maxBatchCount ∧
    ((ws.map Prod.fst).dedup.map fun k =>
        O.estimateSize (k.length + 8) (((Versions.latest ws k).map Entry.valueLength).getD 0)).sum +
      O.estimateSize 19 (Nat.toDigits 10 commitTs).length < O.maxBatchSize

instance (ws : List (Key × Entry)) (commitTs : ℕ) : Decidable (O.RequestFits ws commitTs) :=
  inferInstanceAs (Decidable (_ ∧ _))

/-- The writes pass the checks one after the other. -/
def Fits (ws : List (Key × Entry)) : Prop :=
  (∀ w ∈ ws, w.2.valueLength ≤ O.valueLogFileSize) ∧
    (ws ≠ [] → ws.length + 1 < O.maxBatchCount ∧ O.txnSize ws < O.maxBatchSize)

instance (ws : List (Key × Entry)) : Decidable (O.Fits ws) := inferInstanceAs (Decidable (_ ∧ _))

/-- Badger does not refuse the writes, whatever else has been committed. -/
def Accepts (lastCleanupTs commitTs : ℕ) (ws : List (Key × Entry)) : Prop :=
  O.Fits ws ∧ (ws ≠ [] → commitTs ≠ 0 ∧ lastCleanupTs ≤ commitTs ∧ O.RequestFits ws commitTs)

instance (lastCleanupTs commitTs : ℕ) (ws : List (Key × Entry)) : Decidable (O.Accepts lastCleanupTs commitTs ws) :=
  inferInstanceAs (Decidable (_ ∧ _))

end DbOptions

/-- Runs a function in a transaction that is checked. Besides the transaction it leaves the keys that were looked up in
the store, and not among the pending writes. -/
def TxnScript.performIn {α : Type} (O : DbOptions) :
    TxnScript α → BTxn → List Key → Except Err (α × BTxn × List Key)
  | .done r, txn, reads => r.map fun a => (a, txn, reads)
  | .read key next, txn, reads =>
    performIn O (next (txn.entry key)) txn
      (reads ++ if (Versions.latest txn.pendingWrites key).isNone then [key] else [])
  | .write key e next, txn, reads =>
    (O.checkWrite txn.pendingWrites key e).bind fun _ => performIn O next (txn.withWrite key e) reads

/-- A managed database. -/
structure ManagedDb where
  /-- The versions. -/
  db : Store
  /-- The transactions that have committed, with the fingerprints of the keys that they have written. -/
  committedTxns : List (ℕ × List UInt64)
  /-- The timestamp up to which they are forgotten. -/
  lastCleanupTs : ℕ

namespace ManagedDb

variable (O : DbOptions) (memHash : Key → UInt64) (M : Merge)

/-- A fingerprint that tells keys of one byte apart. -/
def keyByte (key : Key) : UInt64 := (key.headD 0).toUInt64

/-- A database that has just been opened. -/
def opened (db : Store) : ManagedDb := ⟨db, [], 0⟩

/-- The database after a commit. Without the check nothing is remembered of it. -/
def committed (s : ManagedDb) (txn : BTxn) (commitTs : ℕ) : ManagedDb :=
  { s with
    db := txn.commitAt commitTs
    committedTxns :=
      if O.detectConflicts then (commitTs, txn.pendingWrites.map fun w => memHash w.1) :: s.committedTxns
      else s.committedTxns }

/-- `CommitAt`. -/
def commitAt (s : ManagedDb) (txn : BTxn) (reads : List Key) (commitTs : ℕ) : Except Err ManagedDb :=
  if txn.pendingWrites = [] then .ok s
  else if commitTs = 0 then .error .zeroCommitTs
  else if O.detectConflicts ∧ Conflicts memHash s.committedTxns txn.readTs reads then .error .conflict
  else if commitTs < s.lastCleanupTs then .error .assertFailed
  else if O.RequestFits txn.pendingWrites commitTs then .ok (s.committed O memHash txn commitTs)
  else .error .txnTooBig

/-- `Badger.newTransactionAt`. The function is given the transaction that it runs in. -/
def newTransactionAt (s : ManagedDb) (readTs commitTs : ℕ) (performOps : BTxn → TxnScript Unit) :
    Except Err ManagedDb := do
  let (_, txn, reads) ←
    (performOps (BTxn.newTransactionAt s.db readTs)).performIn O (BTxn.newTransactionAt s.db readTs) []
  s.commitAt O memHash txn reads commitTs

/-- `applyDeleteByPrefix`. -/
def applyDeleteByPrefix (s : ManagedDb) (env : Env) (readTs commitTs : ℕ) (pre : Bytes) : Except Err ManagedDb :=
  s.newTransactionAt O memHash readTs commitTs fun txn => .deleteKeys (.done (.ok ())) (txn.keysVisited env pre)

/-- `FSM.Apply` on a decoded command. -/
def apply (s : ManagedDb) (env : Env) (c : Command) : Except Err ManagedDb :=
  match c.body with
  | .single (.deleteByPrefix pre) => s.applyDeleteByPrefix O memHash env c.readTs c.commitTs pre
  | body => s.newTransactionAt O memHash c.readTs c.commitTs fun txn => Fsm.script M env txn body

/-- The Ready loop applies commands until one of them fails: the database at the end, and the error. -/
def replay (s : ManagedDb) : List (Env × Command) → ManagedDb × Option Err
  | [] => (s, none)
  | c :: cs =>
    match s.apply O memHash M c.1 c.2 with
    | .error e => (s, some e)
    | .ok s' => s'.replay cs

/-- Badger does not refuse a transaction that has looked up `reads` and written `ws`. -/
def Admits (s : ManagedDb) (readTs commitTs : ℕ) (reads : List Key) (ws : List (Key × Entry)) : Prop :=
  O.Accepts s.lastCleanupTs commitTs ws ∧
    (ws ≠ [] → ¬(O.detectConflicts ∧ Conflicts memHash s.committedTxns readTs reads))

end ManagedDb

/-! ## The size of a transaction -/

namespace DbOptions

variable {O : DbOptions} {ws ws' : List (Key × Entry)} {key : Key} {e : Entry}

/-- One more write. -/
theorem txnSize_cons (w : Key × Entry) :
    O.txnSize (w :: ws) = O.estimateSize w.1.length w.2.valueLength + 10 + O.txnSize ws := by
  simp only [txnSize, List.map_cons, List.sum_cons]
  omega

/-- The writes before fit where one more does. -/
theorem fits_cons_iff : O.Fits ((key, e) :: ws) ↔ O.checkWrite ws key e = .ok () ∧ O.Fits ws := by
  have hsize : O.txnSize ((key, e) :: ws) = O.estimateSize key.length e.valueLength + 10 + O.txnSize ws :=
    txnSize_cons (key, e)
  unfold Fits checkWrite
  split_ifs with hlong hbig
  · simp only [List.forall_mem_cons, false_and, iff_false]
    exact fun h => absurd h.1.1 (not_le.mpr hlong)
  · simp only [false_and, iff_false]
    intro h
    obtain ⟨hcount, hsize⟩ := h.2 (List.cons_ne_nil _ _)
    rcases hbig with hbig | hbig
    · exact absurd hcount (not_lt.mpr hbig)
    · exact absurd hsize (not_lt.mpr hbig)
  · rw [not_or, not_le, not_le] at hbig
    simp only [List.forall_mem_cons, not_lt.mp hlong, true_and]
    constructor
    · rintro ⟨hvalues, -⟩
      refine ⟨hvalues, fun _ => ⟨?_, ?_⟩⟩
      · exact lt_trans (Nat.lt_succ_self _) hbig.1
      · omega
    · rintro ⟨hvalues, -⟩
      exact ⟨hvalues, fun _ => hbig⟩

/-- The writes before fit where more do. -/
theorem Fits.of_append (h : O.Fits (ws' ++ ws)) : O.Fits ws := by
  induction ws' with
  | nil => exact h
  | cons w ws' ih => exact ih (fits_cons_iff.mp h).2

end DbOptions

namespace TxnScript

variable {α : Type} {O : DbOptions} {p : TxnScript α} {txn txn' : BTxn} {reads reads' : List Key} {a : α}

/-- A function adds writes to those that are pending. -/
theorem suffix_of_perform (h : p.perform txn = .ok (a, txn')) : txn.pendingWrites <:+ txn'.pendingWrites := by
  induction p generalizing txn with
  | done r =>
    obtain ⟨_, -, hend⟩ := map_eq_ok h
    cases hend
    exact List.suffix_rfl
  | read key next ih => exact ih _ h
  | write key e next ih => exact (List.suffix_cons _ _).trans (ih h)

/-- A function in a transaction that is checked: where its writes fit it does what it does without the checks. -/
theorem performIn_eq_ok_iff (hfits : O.Fits txn.pendingWrites) :
    p.performIn O txn reads = .ok (a, txn', reads') ↔
      p.perform txn = .ok (a, txn') ∧ O.Fits txn'.pendingWrites ∧
        reads' = reads ++ p.reads txn.view txn.pendingWrites := by
  induction p generalizing txn reads with
  | done r =>
    cases r with
    | error e => simp [performIn, perform, Except.map]
    | ok x =>
      simp only [performIn, perform, Except.map, Except.ok.injEq, Prod.mk.injEq, Script.reads, List.append_nil]
      constructor
      · rintro ⟨rfl, rfl, rfl⟩
        exact ⟨⟨rfl, rfl⟩, hfits, rfl⟩
      · rintro ⟨⟨rfl, rfl⟩, -, rfl⟩
        exact ⟨rfl, rfl, rfl⟩
  | read key next ih =>
    show performIn O (next (txn.entry key)) txn _ = _ ↔ perform (next (txn.entry key)) txn = _ ∧ _
    rw [ih _ hfits, entry_eq_seen, List.append_assoc]
    rfl
  | write key e next ih =>
    show ((O.checkWrite txn.pendingWrites key e).bind fun _ => performIn O next (txn.withWrite key e) reads) = _ ↔
      perform next (txn.withWrite key e) = _ ∧ _
    cases hcheck : O.checkWrite txn.pendingWrites key e with
    | ok _ =>
      have hfits' : O.Fits (txn.withWrite key e).pendingWrites := DbOptions.fits_cons_iff.mpr ⟨hcheck, hfits⟩
      exact ih hfits'
    | error err =>
      refine iff_of_false nofun ?_
      rintro ⟨hperform, hfits', -⟩
      -- The writes of the whole function do not fit if this one does not.
      obtain ⟨ws, hws⟩ := suffix_of_perform hperform
      rw [← hws] at hfits'
      have hok := (DbOptions.fits_cons_iff.mp hfits'.of_append).1
      rw [hcheck] at hok
      cases hok

end TxnScript

/-! ## The keys that a command looks up -/

namespace SubCommand

/-- The keys that an operation of a transaction reads. -/
def lookedUp : SubCommand → List Key
  | .update key .. => [key]
  | .incrBy key _ => [key]
  | .decrBy key _ => [key]
  | _ => []

/-- The keys that it writes. -/
def keys : SubCommand → List Key
  | .set key .. => [key]
  | .update key .. => [key]
  | .delete key => [key]
  | .incrBy key _ => [key]
  | .decrBy key _ => [key]
  | _ => []

/-- The keys that the operations of a transaction look up in the store: those that they read and that none before has
written. -/
def readKeys (before : List Key) : List SubCommand → List Key
  | [] => []
  | sub :: subs => sub.lookedUp.filter (· ∉ before) ++ readKeys (sub.keys ++ before) subs

end SubCommand

/-- The keys that a single operation or a transaction looks up in the store. -/
def Body.readKeys (env : Env) (txn : BTxn) : Body → List Key
  | .single (.deleteByPrefix pre) => txn.keysVisited env pre
  | .single sub => sub.lookedUp
  | .transaction subs => SubCommand.readKeys [] subs

/-- What a command writes on a store, the latest first. -/
def Command.written (M : Merge) (env : Env) (db : Store) (c : Command) : List (Key × Entry) :=
  c.body.written M env (BTxn.newTransactionAt db c.readTs)

namespace Fsm

variable {α : Type} {M : Merge} {env : Env} {txn txn' : BTxn} {rest : TxnScript α}

/-- A key that is set or deleted is not looked up. -/
theorem reads_modify {key : Key} {e : Entry} (h : txn.modify key e = .ok txn') :
    (TxnScript.modify key e (.andThen rest)).reads txn.view txn.pendingWrites =
      rest.reads txn'.view txn'.pendingWrites := by
  obtain ⟨hkey, rfl⟩ := BTxn.modify_eq_ok_iff.mp h
  unfold TxnScript.modify
  rw [checkKey_eq_ok_iff.mpr hkey]
  rfl

/-- A value that is computed anew is looked up, unless the transaction has written it. -/
theorem reads_rewriteWithTxn {key : Key} {ttl : Option ℤ} {f : Option Bytes → Except Err Bytes}
    (h : TxnScript.rewriteIn txn env key ttl f = .ok txn') :
    (TxnScript.rewriteWithTxn env key ttl f (.andThen rest)).reads txn.view txn.pendingWrites =
      [key].filter (fun k => (Versions.latest txn.pendingWrites k).isNone) ++
        rest.reads txn'.view txn'.pendingWrites := by
  obtain ⟨hkey, h⟩ := BTxn.getWithTxn_bind_eq_ok_iff.mp h
  obtain ⟨value, hvalue, hset⟩ := bind_eq_ok h
  have hlookup : (txn.entry key).bind (·.live env.now) = txn.lookup env.now key := rfl
  unfold TxnScript.rewriteWithTxn TxnScript.getWithTxn
  rw [if_neg hkey, Script.reads, ← TxnScript.entry_eq_seen]
  dsimp only
  rw [hlookup, hvalue]
  congr 1
  · rw [List.filter_singleton, Bool.cond_eq_ite]
  · cases ttl with
    | none | some => exact reads_modify hset

/-- A delta that is merged is looked up in the same way. -/
theorem reads_mergeScript {decoded : Except Err Unit} {key : Key} {ttl : Option ℤ}
    {merge : Option Bytes → Except Err Bytes}
    (h : (decoded.bind fun _ => TxnScript.rewriteIn txn env key ttl merge) = .ok txn') :
    (mergeScript env rest decoded key ttl merge).reads txn.view txn.pendingWrites =
      [key].filter (fun k => (Versions.latest txn.pendingWrites k).isNone) ++
        rest.reads txn'.view txn'.pendingWrites := by
  obtain ⟨_, rfl, h⟩ := bind_eq_ok h
  exact reads_rewriteWithTxn h

/-- What one turn of the loop of `applyTransaction` looks up. -/
theorem reads_subScript {sub : SubCommand} (h : applySub M env txn sub = .ok txn') :
    (subScript M env rest sub).reads txn.view txn.pendingWrites =
      sub.lookedUp.filter (fun k => (Versions.latest txn.pendingWrites k).isNone) ++
        rest.reads txn'.view txn'.pendingWrites := by
  cases sub with
  | set key value ttl =>
    cases ttl with
    | none => exact reads_modify h
    | some d => exact reads_modify h
  | update key delta deltaType messageName ttl =>
    cases deltaType with
    | protobuf => exact reads_mergeScript h
    | json => exact reads_mergeScript h
    | unknownDelta => cases h
  | delete key => exact reads_modify h
  | incrBy key delta => exact reads_rewriteWithTxn ((TxnScript.incrByWithTxn_eq key delta).symm.trans h)
  | decrBy key delta => exact reads_rewriteWithTxn ((TxnScript.decrByWithTxn_eq key delta).symm.trans h)
  | deleteByPrefix | unknown => cases h

/-- An operation writes its key. -/
theorem keys_of_applySub {sub : SubCommand} (h : applySub M env txn sub = .ok txn') :
    ∃ key e, sub.keys = [key] ∧ txn' = txn.withWrite key e := by
  obtain ⟨key, e, hw, -, rfl⟩ := applySub_eq_ok_iff.mp h
  refine ⟨key, e, ?_, rfl⟩
  cases sub with
  | set key' value ttl => cases hw; rfl
  | update key' delta deltaType messageName ttl =>
    simp only [SubCommand.written] at hw
    split at hw
    · cases hw
      rfl
    · cases hw
  | delete key' => cases hw; rfl
  | incrBy | decrBy => rw [← SubCommand.key_of_counterWrite hw]; rfl
  | deleteByPrefix | unknown => cases hw

/-- What the loop of `applyTransaction` looks up. -/
theorem reads_subsScript {subs : List SubCommand} {before : List Key}
    (hbefore : ∀ k, (Versions.latest txn.pendingWrites k).isNone ↔ k ∉ before)
    (h : applySubs M env txn subs = .ok txn') :
    (subsScript M env subs).reads txn.view txn.pendingWrites = SubCommand.readKeys before subs := by
  induction subs generalizing txn before with
  | nil => rfl
  | cons sub subs ih =>
    obtain ⟨txn₁, h₁, h⟩ := bind_eq_ok h
    obtain ⟨key, e, hkeys, htxn₁⟩ := keys_of_applySub h₁
    have hbefore₁ : ∀ k, (Versions.latest txn₁.pendingWrites k).isNone ↔ k ∉ sub.keys ++ before := by
      intro k
      rw [hkeys, List.singleton_append, List.mem_cons, not_or, ← hbefore, htxn₁]
      show (Versions.latest ((key, e) :: txn.pendingWrites) k).isNone = true ↔ _
      rw [Versions.latest_cons]
      split_ifs with hk
      · simp [show k = key from hk.symm]
      · simp [show ¬k = key from Ne.symm hk]
    show (subScript M env (subsScript M env subs) sub).reads _ _ = _
    rw [reads_subScript h₁, ih hbefore₁ h, SubCommand.readKeys]
    congr 2
    funext k
    rw [Bool.eq_iff_iff, hbefore, decide_eq_true_iff]

/-- What the loop of a prefix deletion looks up. -/
theorem mem_reads_deleteKeys {keys : List Key} {k : Key} (h : txn.deleteKeys keys = .ok txn') :
    k ∈ (TxnScript.deleteKeys (.done (.ok ()) : TxnScript Unit) keys).reads txn.view txn.pendingWrites ↔
      k ∈ keys ∧ Versions.latest txn.pendingWrites k = none := by
  induction keys generalizing txn with
  | nil => simp [TxnScript.deleteKeys, Script.reads]
  | cons key keys ih =>
    obtain ⟨txn₁, h₁, h⟩ := bind_eq_ok h
    obtain ⟨-, htxn₁⟩ := BTxn.modify_eq_ok_iff.mp h₁
    rw [TxnScript.deleteKeys, Script.reads]
    rw [TxnScript.deleteWithTxn, reads_modify h₁, List.mem_append, ih h, htxn₁]
    show _ ∨ k ∈ keys ∧ Versions.latest ((key, _) :: txn.pendingWrites) k = none ↔ _
    rw [Versions.latest_cons]
    by_cases hk : key = k
    · subst hk
      cases Versions.latest txn.pendingWrites key with
      | none => simp
      | some e => simp
    · cases Versions.latest txn.pendingWrites key with
      | none => simp [hk, Ne.symm hk]
      | some e => simp [hk, Ne.symm hk]

/-- The function of a command looks up the keys that the command reads. -/
theorem mem_reads_script {b : Body} {k : Key} (hfresh : txn.pendingWrites = [])
    (h : perform M env txn b = .ok txn') :
    k ∈ (script M env txn b).reads txn.view txn.pendingWrites ↔ k ∈ b.readKeys env txn := by
  have hnone : ∀ k, (Versions.latest txn.pendingWrites k).isNone ↔ k ∉ ([] : List Key) := by
    simp [hfresh, Versions.latest]
  cases b with
  | transaction subs =>
    rw [script, reads_subsScript hnone h]
    rfl
  | single sub =>
    cases sub with
    | deleteByPrefix pre =>
      rw [script, mem_reads_deleteKeys h, hfresh]
      exact and_iff_left rfl
    | _ =>
      rw [perform_single (by simp)] at h
      rw [script_single (by simp), reads_subScript h]
      simp [Script.reads, Body.readKeys, hfresh, Versions.latest]

end Fsm

/-! ## When a command is refused -/

namespace ManagedDb

variable {O : DbOptions} {memHash : Key → UInt64} {M : Merge} {s s' : ManagedDb} {env : Env} {c : Command}

/-- The function of a command as it is run in the transaction for it. -/
theorem apply_eq_newTransactionAt :
    s.apply O memHash M env c =
      s.newTransactionAt O memHash c.readTs c.commitTs fun txn => Fsm.script M env txn c.body := by
  obtain ⟨readTs, commitTs, body⟩ := c
  cases body with
  | transaction subs => rfl
  | single sub => cases sub <;> rfl

/-- What a commit does where it succeeds. -/
theorem commitAt_eq_ok_iff {txn : BTxn} {reads : List Key} {commitTs : ℕ} :
    s.commitAt O memHash txn reads commitTs = .ok s' ↔
      (txn.pendingWrites = [] ∧ s' = s) ∨
      (txn.pendingWrites ≠ [] ∧ commitTs ≠ 0 ∧
        ¬(O.detectConflicts ∧ Conflicts memHash s.committedTxns txn.readTs reads) ∧
        s.lastCleanupTs ≤ commitTs ∧ O.RequestFits txn.pendingWrites commitTs ∧
        s' = s.committed O memHash txn commitTs) := by
  unfold commitAt
  split_ifs with hempty hzero hconflict hcleanup hrequest
  · simp only [hempty, Except.ok.injEq, true_and, ne_eq, not_true_eq_false, false_and, or_false]
    exact eq_comm
  · exact iff_of_false nofun (not_or.mpr ⟨fun h => hempty h.1, fun h => h.2.1 hzero⟩)
  · exact iff_of_false nofun (not_or.mpr ⟨fun h => hempty h.1, fun h => h.2.2.1 hconflict⟩)
  · exact iff_of_false nofun (not_or.mpr ⟨fun h => hempty h.1, fun h => not_lt.mpr h.2.2.2.1 hcleanup⟩)
  · rw [Except.ok.injEq]
    constructor
    · intro h
      exact .inr ⟨hempty, hzero, hconflict, not_lt.mp hcleanup, hrequest, h.symm⟩
    · rintro (⟨h, -⟩ | ⟨-, -, -, -, -, h⟩)
      · exact absurd h hempty
      · exact h.symm
  · exact iff_of_false nofun (not_or.mpr ⟨fun h => hempty h.1, fun h => hrequest h.2.2.2.2.1⟩)

/-- A transaction of the managed store commits where its function succeeds and Badger does not refuse it. -/
theorem newTransactionAt_eq_ok_iff {readTs commitTs : ℕ} {performOps : BTxn → TxnScript Unit} :
    s.newTransactionAt O memHash readTs commitTs performOps = .ok s' ↔
      ∃ txn,
        (performOps (BTxn.newTransactionAt s.db readTs)).perform (BTxn.newTransactionAt s.db readTs) = .ok ((), txn) ∧
        O.Fits txn.pendingWrites ∧
        s.commitAt O memHash txn ((performOps (BTxn.newTransactionAt s.db readTs)).reads
          (BTxn.newTransactionAt s.db readTs).view []) commitTs = .ok s' := by
  have hnone : O.Fits (BTxn.newTransactionAt s.db readTs).pendingWrites := ⟨nofun, fun h => absurd rfl h⟩
  unfold newTransactionAt
  constructor
  · intro h
    obtain ⟨⟨_, txn, reads⟩, hrun, hcommit⟩ := bind_eq_ok h
    obtain ⟨hperform, hfits, rfl⟩ := (TxnScript.performIn_eq_ok_iff hnone).mp hrun
    exact ⟨txn, hperform, hfits, hcommit⟩
  · rintro ⟨txn, hperform, hfits, hcommit⟩
    rw [(TxnScript.performIn_eq_ok_iff hnone).mpr ⟨hperform, hfits, rfl⟩]
    exact hcommit

/-- The database after a command with the given writes. -/
def after (O : DbOptions) (memHash : Key → UInt64) (s : ManagedDb) (c : Command) (ws : List (Key × Entry)) :
    ManagedDb :=
  if ws = [] then s else s.committed O memHash ⟨s.db, c.readTs, ws⟩ c.commitTs

/-- Its versions: the writes are installed at the commit timestamp. -/
theorem db_after (ws : List (Key × Entry)) :
    (s.after O memHash c ws).db = Versions.install s.db c.commitTs ws := by
  unfold after
  split_ifs with hnone
  · rw [hnone]
    rfl
  · rfl

/-- A command does not let Badger forget transactions. -/
theorem lastCleanupTs_after (ws : List (Key × Entry)) :
    (s.after O memHash c ws).lastCleanupTs = s.lastCleanupTs := by
  unfold after
  split_ifs
  · rfl
  · rfl

/-- A command is applied where its operations can be performed and Badger does not refuse their transaction, and then
its writes are committed. -/
theorem apply_eq_ok_iff :
    s.apply O memHash M env c = .ok s' ↔
      c.Applicable M env s.db ∧
        s.Admits O memHash c.readTs c.commitTs (c.body.readKeys env (BTxn.newTransactionAt s.db c.readTs))
          (c.written M env s.db) ∧
        s' = s.after O memHash c (c.written M env s.db) := by
  have hperform : ∀ txn, (Fsm.script M env (BTxn.newTransactionAt s.db c.readTs) c.body).perform
      (BTxn.newTransactionAt s.db c.readTs) = .ok ((), txn) ↔
        c.Applicable M env s.db ∧ txn = ⟨s.db, c.readTs, c.written M env s.db⟩ := by
    intro txn
    rw [Fsm.perform_script]
    constructor
    · intro h
      obtain ⟨txn', hperform, htxn⟩ := map_eq_ok h
      cases htxn
      obtain ⟨happlicable, rfl⟩ := Fsm.perform_eq_ok_iff.mp hperform
      exact ⟨happlicable, by rw [BTxn.newTransactionAt, List.append_nil]; rfl⟩
    · rintro ⟨happlicable, rfl⟩
      rw [Fsm.perform_eq_ok_iff.mpr ⟨happlicable, rfl⟩, BTxn.newTransactionAt, List.append_nil]
      rfl
  have hreads : c.Applicable M env s.db → (Conflicts memHash s.committedTxns c.readTs
      ((Fsm.script M env (BTxn.newTransactionAt s.db c.readTs) c.body).reads
        (BTxn.newTransactionAt s.db c.readTs).view []) ↔
      Conflicts memHash s.committedTxns c.readTs (c.body.readKeys env (BTxn.newTransactionAt s.db c.readTs))) :=
    fun happlicable => conflicts_congr fun k =>
      Fsm.mem_reads_script rfl (Fsm.perform_eq_ok_iff.mpr ⟨happlicable, rfl⟩)
  rw [apply_eq_newTransactionAt, newTransactionAt_eq_ok_iff]
  simp only [hperform, commitAt_eq_ok_iff]
  constructor
  · rintro ⟨txn, ⟨happlicable, rfl⟩, hfits, hcommit⟩
    rw [hreads happlicable] at hcommit
    rcases hcommit with ⟨hnone, rfl⟩ | ⟨hsome, hzero, hconflict, hcleanup, hrequest, rfl⟩
    · exact ⟨happlicable, ⟨⟨hfits, fun h => absurd hnone h⟩, fun h => absurd hnone h⟩, (if_pos hnone).symm⟩
    · exact ⟨happlicable, ⟨⟨hfits, fun _ => ⟨hzero, hcleanup, hrequest⟩⟩, fun _ => hconflict⟩, (if_neg hsome).symm⟩
  · rintro ⟨happlicable, ⟨⟨hfits, haccepts⟩, hconflict⟩, rfl⟩
    refine ⟨_, ⟨happlicable, rfl⟩, hfits, ?_⟩
    rw [hreads happlicable]
    by_cases hnone : c.written M env s.db = []
    · exact .inl ⟨hnone, if_pos hnone⟩
    · obtain ⟨hzero, hcleanup, hrequest⟩ := haccepts hnone
      exact .inr ⟨hnone, hzero, hconflict hnone, hcleanup, hrequest, if_neg hnone⟩

end ManagedDb

end Omashu
