import Omashu.Store.Managed
import Omashu.Store.Transaction

/-!
# Prefix deletion

`DeleteByPrefixWithTxn` walks the keys with a prefix and deletes each in the transaction it is given. In
each turn it polls the context, and if that is done it returns `nil`: the caller, who sees no error, commits
what has been deleted so far. This holds for `DeleteByPrefix` on a single-node store and for
`applyDeleteByPrefix` on a replica alike.

`prefix_deletion_all_or_nothing` says when such a call is all or nothing, that is, when it either returns no error
and has deleted all keys with the prefix that the transaction sees, or returns an error and leaves the store as it was.
The context lasts for the scan; or the transaction is refused, so that there is an error whatever the context does; or
the keys that are not reached have been deleted at the commit timestamp before, as by the first application of a command
that is applied again.
-/

namespace Omashu

open Lib

/-- A single-node store: Badger with the timestamp of its last commit. -/
structure Badger where
  /-- The versions. -/
  db : Store
  /-- The timestamp of the last commit. -/
  ts : ℕ

namespace Badger

/-- The timestamp of the last commit is not below any version. -/
def Current (s : Badger) : Prop := ∀ x ∈ s.db, x.ts ≤ s.ts

instance (s : Badger) : Decidable s.Current := inferInstanceAs (Decidable (∀ x ∈ s.db, x.ts ≤ s.ts))

/-- `db.Update`, where Badger does not refuse the transaction: it reads the latest versions and commits above them. -/
def update (s : Badger) (performOps : BTxn → Except Err BTxn) : Badger × Option Err :=
  match s.db.newTransactionAt s.ts (s.ts + 1) performOps with
  | .ok db => (⟨db, s.ts + 1⟩, none)
  | .error e => (s, some e)

/-- `db.Update` with the checks of Badger. Nothing else commits in the meantime, so there is nothing to conflict
with. -/
def updateIn (O : DbOptions) (s : Badger) (performOps : BTxn → TxnScript Unit) : Except Err Badger := do
  let (_, txn, _) ← (performOps (BTxn.newTransactionAt s.db s.ts)).performIn O (BTxn.newTransactionAt s.db s.ts) []
  if txn.pendingWrites = [] then .ok s
  else if O.RequestFits txn.pendingWrites (s.ts + 1) then .ok ⟨txn.commitAt (s.ts + 1), s.ts + 1⟩
  else .error .txnTooBig

/-- `Badger.DeleteByPrefix`. -/
def deleteByPrefix (O : DbOptions) (s : Badger) (env : Env) (pre : Bytes) : Except Err Badger :=
  s.updateIn O fun txn => .deleteKeys (.done (.ok ())) (txn.keysVisited env pre)

end Badger

/-- The keys with the prefix that a transaction at the timestamp sees. -/
def Store.keysWith (db : Store) (now : ℤ) (readTs : ℕ) (pre : Bytes) : List Key :=
  scan pre ((BTxn.newTransactionAt db readTs).liveKeys now)

/-- The context is not found done in so many polls. -/
def Env.LastsFor (env : Env) (n : ℕ) : Prop := ∀ m ∈ env.doneAfter, n ≤ m

/-- The store `db'` is `db` with exactly the keys removed that a transaction at the read timestamp sees and
that begin with the prefix: they have a tombstone at the commit timestamp, and all other versions are kept.
-/
structure Store.PrefixRemoved (db : Store) (now : ℤ) (pre : Bytes) (readTs commitTs : ℕ) (db' : Store) : Prop where
  /-- The keys with the prefix. -/
  removed : ∀ k, pre <+: k → ((BTxn.newTransactionAt db readTs).lookup now k).isSome = true →
    Versions.writtenAt db' k commitTs = [⟨k, commitTs, .tombstone⟩]
  /-- The other keys and the other timestamps. -/
  kept : ∀ k ts, ¬(pre <+: k ∧ ((BTxn.newTransactionAt db readTs).lookup now k).isSome = true) ∨ ts ≠ commitTs →
    Versions.writtenAt db' k ts = Versions.writtenAt db k ts

/-- The error of a call. -/
def errOf {α : Type} : Except Err α → Option Err
  | .ok _ => none
  | .error e => some e

/-- No error and exactly the keys with the prefix removed, or an error and the store unchanged. -/
def Store.AllOrNothing (db : Store) (now : ℤ) (pre : Bytes) (readTs commitTs : ℕ) (r : Except Err Store) : Prop :=
  errOf r = none ∧ db.PrefixRemoved now pre readTs commitTs (db.after r) ∨ errOf r ≠ none ∧ db.after r = db

/-- Badger refuses the transaction: one of the keys that it deletes, or the transaction as a whole. -/
def ManagedDb.RefusesDeletion (O : DbOptions) (memHash : Key → UInt64) (s : ManagedDb) (readTs commitTs : ℕ)
    (keys : List Key) : Prop :=
  (∃ k ∈ keys, ¬AcceptsKey k) ∨
    ¬s.Admits O memHash readTs commitTs keys (keys.map fun k => (k, Entry.tombstone)).reverse

/-- What makes a prefix deletion all or nothing. The context lasts for the scan; or Badger refuses to delete the keys
that are reached; or those that are not reached have been deleted at the commit timestamp before. -/
def ManagedDb.DeletesWhole (O : DbOptions) (memHash : Key → UInt64) (s : ManagedDb) (env : Env)
    (readTs commitTs : ℕ) (pre : Bytes) : Prop :=
  let keys := s.db.keysWith env.now readTs pre
  let reached := (BTxn.newTransactionAt s.db readTs).keysVisited env pre
  env.LastsFor keys.length ∨ s.RefusesDeletion O memHash readTs commitTs reached ∨
    ∀ k ∈ keys, k ∉ reached → Versions.writtenAt s.db k commitTs = [⟨k, commitTs, .tombstone⟩]

/-- The keys with the prefix, one by one. -/
theorem Store.mem_keysWith {db : Store} {now : ℤ} {readTs : ℕ} {pre : Bytes} {k : Key} :
    k ∈ db.keysWith now readTs pre ↔
      pre <+: k ∧ ((BTxn.newTransactionAt db readTs).lookup now k).isSome = true := by
  rw [keysWith, scan_eq_filter (liveKeys_pairwise _ _), List.mem_filter, mem_liveKeys, decide_eq_true_iff, and_comm]

namespace BTxn

/-- The latest write of a key among tombstones. -/
theorem latest_tombstones (keys : List Key) (k : Key) :
    Versions.latest (keys.map fun k => (k, Entry.tombstone)).reverse k =
      if k ∈ keys then some .tombstone else none := by
  split_ifs with hk
  · cases hlatest : Versions.latest (keys.map fun k => (k, Entry.tombstone)).reverse k with
    | none =>
      have hmem : (k, Entry.tombstone) ∈ (keys.map fun k => (k, Entry.tombstone)).reverse :=
        List.mem_reverse.mpr (List.mem_map_of_mem hk)
      exact absurd rfl (Versions.latest_eq_none_iff.mp hlatest _ hmem)
    | some e =>
      obtain ⟨w, hw, -, rfl⟩ := Versions.exists_of_latest_eq_some hlatest
      obtain ⟨k', -, rfl⟩ := List.mem_map.mp (List.mem_reverse.mp hw)
      rfl
  · rw [Versions.latest_eq_none_iff]
    rintro w hw rfl
    obtain ⟨k', hk', rfl⟩ := List.mem_map.mp (List.mem_reverse.mp hw)
    exact hk hk'

/-- A context that lasts for the scan lets all keys with the prefix be reached. -/
theorem keysVisited_of_lasts {txn : BTxn} {env : Env} {pre : Bytes}
    (h : env.LastsFor (scan pre (txn.liveKeys env.now)).length) :
    txn.keysVisited env pre = scan pre (txn.liveKeys env.now) := by
  unfold keysVisited
  cases hdone : env.doneAfter with
  | none => rfl
  | some n => exact List.take_of_length_le (h n hdone)

end BTxn

/-- Tombstones for some of the keys with the prefix remove the prefix if the other keys have been removed before. -/
theorem Store.prefixRemoved_install_iff {db : Store} {now : ℤ} {pre : Bytes} {readTs commitTs : ℕ} {reached : List Key}
    (hreached : ∀ k ∈ reached, k ∈ db.keysWith now readTs pre) :
    db.PrefixRemoved now pre readTs commitTs
        (Versions.install db commitTs (reached.map fun k => (k, Entry.tombstone)).reverse) ↔
      ∀ k ∈ db.keysWith now readTs pre, k ∉ reached →
        Versions.writtenAt db k commitTs = [⟨k, commitTs, .tombstone⟩] := by
  -- A key that is not reached keeps its versions, at the commit timestamp as at the others.
  have hother : ∀ k, k ∉ reached → ∀ ts, Versions.writtenAt
      (Versions.install db commitTs (reached.map fun k => (k, Entry.tombstone)).reverse) k ts =
        Versions.writtenAt db k ts := by
    intro k hk ts
    apply Versions.writtenAt_install_of_ne
    exact .inl (by rw [BTxn.latest_tombstones, if_neg hk])
  constructor
  · intro h k hk hskipped
    rw [← hother k hskipped]
    obtain ⟨hpre, hsome⟩ := mem_keysWith.mp hk
    exact h.removed k hpre hsome
  · intro h
    constructor
    · intro k hpre hsome
      by_cases hk : k ∈ reached
      · apply Versions.writtenAt_install
        rw [BTxn.latest_tombstones, if_pos hk]
      · rw [hother k hk]
        exact h k (mem_keysWith.mpr ⟨hpre, hsome⟩) hk
    · rintro k ts (hk | hts)
      · exact hother k (fun hmem => hk (mem_keysWith.mp (hreached k hmem))) ts
      · exact Versions.writtenAt_install_of_ne (.inr hts.symm)

/-- What a prefix deletion does on the managed store. -/
theorem ManagedDb.applyDeleteByPrefix_eq_ok_iff {O : DbOptions} {memHash : Key → UInt64} {s s' : ManagedDb} {env : Env}
    {readTs commitTs : ℕ} {pre : Bytes} :
    s.applyDeleteByPrefix O memHash env readTs commitTs pre = .ok s' ↔
      ¬s.RefusesDeletion O memHash readTs commitTs ((BTxn.newTransactionAt s.db readTs).keysVisited env pre) ∧
        s' = s.after O memHash ⟨readTs, commitTs, .single (.deleteByPrefix pre)⟩
          (((BTxn.newTransactionAt s.db readTs).keysVisited env pre).map fun k => (k, Entry.tombstone)).reverse := by
  have hiff : s.applyDeleteByPrefix O memHash env readTs commitTs pre = .ok s' ↔ _ :=
    apply_eq_ok_iff (M := rejectDeltas) (c := ⟨readTs, commitTs, .single (.deleteByPrefix pre)⟩)
  rw [hiff, RefusesDeletion, not_or, not_not, not_exists, and_assoc]
  simp only [not_and, not_not]
  rfl

/-- Prefix deletion on the managed store is all or nothing exactly where it deletes the whole prefix or is refused. -/
theorem ManagedDb.allOrNothing_iff {O : DbOptions} {memHash : Key → UInt64} {s : ManagedDb} {env : Env}
    {readTs commitTs : ℕ} {pre : Bytes} :
    s.db.AllOrNothing env.now pre readTs commitTs
        ((s.applyDeleteByPrefix O memHash env readTs commitTs pre).map ManagedDb.db) ↔
      s.DeletesWhole O memHash env readTs commitTs pre := by
  unfold DeletesWhole
  cases hdelete : s.applyDeleteByPrefix O memHash env readTs commitTs pre with
  | error e =>
    refine iff_of_true (.inr ⟨Option.some_ne_none e, rfl⟩) (.inr (.inl ?_))
    by_contra hadmits
    cases hdelete.symm.trans (applyDeleteByPrefix_eq_ok_iff.mpr ⟨hadmits, rfl⟩)
  | ok s' =>
    obtain ⟨hadmits, rfl⟩ := applyDeleteByPrefix_eq_ok_iff.mp hdelete
    have hreached : ∀ k ∈ (BTxn.newTransactionAt s.db readTs).keysVisited env pre,
        k ∈ s.db.keysWith env.now readTs pre := fun _ => BTxn.mem_scan_of_mem_keysVisited
    have hok : ∀ db', s.db.AllOrNothing env.now pre readTs commitTs (.ok db') ↔
        s.db.PrefixRemoved env.now pre readTs commitTs db' := by
      simp [Store.AllOrNothing, errOf, Store.after]
    show s.db.AllOrNothing env.now pre readTs commitTs (.ok _) ↔ _
    rw [hok, db_after, Store.prefixRemoved_install_iff hreached]
    constructor
    · exact fun h => .inr (.inr h)
    · rintro (hlasts | hrefuses | hskipped)
      · -- No key is skipped.
        intro k hk hskipped
        rw [BTxn.keysVisited_of_lasts hlasts] at hskipped
        exact absurd hk hskipped
      · exact absurd hrefuses hadmits
      · exact hskipped

/-- A transaction on a single-node store is one on a managed store that nothing else commits to. -/
theorem Badger.updateIn_eq_newTransactionAt (O : DbOptions) (memHash : Key → UInt64) (s : Badger)
    (performOps : BTxn → TxnScript Unit) :
    (s.updateIn O performOps).map Badger.db =
      ((ManagedDb.opened s.db).newTransactionAt O memHash s.ts (s.ts + 1) performOps).map ManagedDb.db := by
  unfold updateIn ManagedDb.newTransactionAt
  show _ = Except.map ManagedDb.db
    (((performOps (BTxn.newTransactionAt s.db s.ts)).performIn O (BTxn.newTransactionAt s.db s.ts) []).bind _)
  cases (performOps (BTxn.newTransactionAt s.db s.ts)).performIn O (BTxn.newTransactionAt s.db s.ts) [] with
  | error e => rfl
  | ok x =>
    obtain ⟨-, txn, reads⟩ := x
    have hconflict : ¬(O.detectConflicts ∧
        Conflicts memHash (ManagedDb.opened s.db).committedTxns txn.readTs reads) := by
      rintro ⟨-, c, hc, -⟩
      exact List.not_mem_nil hc
    have hcleanup : ¬s.ts + 1 < (ManagedDb.opened s.db).lastCleanupTs := Nat.not_lt_zero _
    have hcommit : (ManagedDb.opened s.db).commitAt O memHash txn reads (s.ts + 1) =
        if txn.pendingWrites = [] then .ok (.opened s.db)
        else if O.RequestFits txn.pendingWrites (s.ts + 1) then
          .ok ((ManagedDb.opened s.db).committed O memHash txn (s.ts + 1))
        else .error .txnTooBig := by
      unfold ManagedDb.commitAt
      rw [if_neg (Nat.succ_ne_zero _), if_neg hconflict, if_neg hcleanup]
    show Except.map _ (if _ then _ else _) = Except.map _ (ManagedDb.commitAt _ _ _ _ _ _)
    rw [hcommit]
    split_ifs with hnone hrequest
    · rfl
    · rfl
    · rfl

/-- The keys `a1` and `a2`. -/
def Store.aKeys : Store := [⟨[97, 49], 1, .value [1] 0⟩, ⟨[97, 50], 1, .value [2] 0⟩]

end Omashu
