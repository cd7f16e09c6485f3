import Mathlib.Data.List.Dedup
import Omashu.Store.Badger

/-!
# Reads at a timestamp

A transaction of the distributed store reads at its read timestamp: a point read, or a read of all
pairs or all keys under a prefix. A query depends on the store only through the newest versions of
the keys that it covers (`Query.eval_congr`), so it has the same answer on two stores, or at two
timestamps of one store, that agree on those.
-/

namespace Omashu

open Lib

/-- A read of a transaction. -/
inductive Query
  /-- `getAt`. -/
  | get (key : Key)
  /-- `getByPrefixAt`. -/
  | getByPrefix (pre : Bytes)
  /-- `getKeysByPrefixAt`. -/
  | getKeysByPrefix (pre : Bytes)
  deriving DecidableEq, Repr

/-- What a read returns. -/
inductive Answer
  /-- The value, if the key is present. -/
  | value (v : Option Bytes)
  /-- The pairs under a prefix. -/
  | pairs (l : List (Key × Bytes))
  /-- The keys under a prefix. -/
  | keys (l : List Key)
  deriving DecidableEq, Repr

namespace Query

/-- The keys whose versions decide the answer. -/
def Covers (k : Key) : Query → Prop
  | .get key => key = k
  | .getByPrefix pre => pre <+: k
  | .getKeysByPrefix pre => pre <+: k

instance (k : Key) : (q : Query) → Decidable (q.Covers k)
  | .get key => inferInstanceAs (Decidable (key = k))
  | .getByPrefix pre => inferInstanceAs (Decidable (pre <+: k))
  | .getKeysByPrefix pre => inferInstanceAs (Decidable (pre <+: k))

/-- The answer at a timestamp. -/
def eval (db : Store) (env : Env) (readTs : ℕ) : Query → Except Err Answer
  | .get key => (db.getAt env key readTs).map .value
  | .getByPrefix pre => (db.getByPrefixAt env pre readTs).map .pairs
  | .getKeysByPrefix pre => (db.getKeysByPrefixAt env pre readTs).map .keys

end Query

/-- A read-only transaction sees the newest version at its timestamp. -/
theorem lookup_newTransactionAt (db : Store) (r : ℕ) (now : ℤ) (k : Key) :
    (BTxn.newTransactionAt db r).lookup now k =
      ((Versions.newest db k r).map Version.val).bind (·.live now) := rfl

/-- The live keys are strictly increasing. -/
theorem liveKeys_pairwise (txn : BTxn) (now : ℤ) : (txn.liveKeys now).Pairwise (· < ·) := by
  unfold BTxn.liveKeys
  apply List.Pairwise.filter
  have hle := List.pairwise_insertionSort (r := (· ≤ ·))
    ((txn.pendingWrites.map Prod.fst ++ txn.db.map Version.key).dedup)
  have hnd : ((txn.pendingWrites.map Prod.fst ++ txn.db.map Version.key).dedup.insertionSort
      (· ≤ ·)).Nodup :=
    (List.perm_insertionSort _ _).nodup_iff.mpr (List.nodup_dedup _)
  refine (hle.and hnd).imp ?_
  rintro a b ⟨hab, hne⟩
  rcases List.le_iff_lt_or_eq.mp hab with h | h
  · exact h
  · exact absurd h hne

/-- The live keys are the keys that the transaction finds. -/
theorem mem_liveKeys {txn : BTxn} {now : ℤ} {k : Key} :
    k ∈ txn.liveKeys now ↔ (txn.lookup now k).isSome := by
  unfold BTxn.liveKeys
  rw [List.mem_filter, List.mem_insertionSort, List.mem_dedup]
  refine ⟨fun h => h.2, fun h => ⟨?_, h⟩⟩
  unfold BTxn.lookup BTxn.entry at h
  cases hl : Versions.latest txn.pendingWrites k with
  | some e =>
    -- The key has a pending write.
    by_contra hn
    have hnone : Versions.latest txn.pendingWrites k = none := by
      rw [Versions.latest_eq_none_iff]
      rintro w hw rfl
      exact hn (List.mem_append_left _ (List.mem_map_of_mem hw))
    rw [hnone] at hl
    exact absurd hl (by simp)
  | none =>
    -- The key has a version in the store.
    rw [hl] at h
    cases hn : Versions.newest txn.db k txn.readTs with
    | none => simp [hn] at h
    | some x =>
      obtain ⟨hx, hk, -⟩ := Versions.newest_mem hn
      exact List.mem_append_right _ (List.mem_map.mpr ⟨x, hx, hk⟩)

/-- The live keys are determined by what the transaction finds. -/
theorem liveKeys_congr {txn txn' : BTxn} {now now' : ℤ} (h : txn.lookup now = txn'.lookup now') :
    txn.liveKeys now = txn'.liveKeys now' := by
  apply List.Pairwise.eq_of_mem_iff (r := (· < ·)) (liveKeys_pairwise _ _) (liveKeys_pairwise _ _)
  intro k
  rw [mem_liveKeys, mem_liveKeys, h]

/-- The scan of a prefix agrees between two read-only transactions that see the same newest versions
of the keys with the prefix. -/
theorem scan_liveKeys_congr {db db' : Store} {r r' : ℕ} {now : ℤ} {pre : Bytes}
    (h : ∀ k, pre <+: k → Versions.newest db k r = Versions.newest db' k r') :
    scan pre ((BTxn.newTransactionAt db r).liveKeys now) =
      scan pre ((BTxn.newTransactionAt db' r').liveKeys now) := by
  rw [scan_eq_filter (liveKeys_pairwise _ _), scan_eq_filter (liveKeys_pairwise _ _)]
  apply List.Pairwise.eq_of_mem_iff (r := (· < ·)) ((liveKeys_pairwise _ _).filter _)
    ((liveKeys_pairwise _ _).filter _)
  intro k
  rw [List.mem_filter, List.mem_filter, mem_liveKeys, mem_liveKeys]
  refine and_congr_left fun hk => ?_
  rw [lookup_newTransactionAt, lookup_newTransactionAt, h k (by simpa using hk)]

/-- The keys under a prefix agree between two reads that see the same newest versions of them. -/
theorem getKeysByPrefixAt_congr {db db' : Store} {r r' : ℕ} (env : Env) {pre : Bytes}
    (h : ∀ k, pre <+: k → Versions.newest db k r = Versions.newest db' k r') :
    db.getKeysByPrefixAt env pre r = db'.getKeysByPrefixAt env pre r' := by
  unfold Store.getKeysByPrefixAt BTxn.getKeysByPrefixWithTxn
  rw [scan_liveKeys_congr h]

/-- The keys of a prefix read have the prefix. -/
theorem isPrefix_of_mem_getKeysByPrefixWithTxn {txn : BTxn} {env : Env} {pre : Bytes}
    {keys : List Key} (h : txn.getKeysByPrefixWithTxn env pre = .ok keys) :
    ∀ k ∈ keys, pre <+: k := by
  have hscan : scan pre (txn.liveKeys env.now) = keys := by
    simp only [BTxn.getKeysByPrefixWithTxn] at h
    split at h
    · exact Except.ok.inj h
    · split at h
      · exact absurd h (by simp)
      · exact Except.ok.inj h
  rw [← hscan]
  exact fun k hk => isPrefix_of_mem_scan hk

/-- The pairs under a prefix agree between two reads that see the same newest versions of them. -/
theorem getByPrefixAt_congr {db db' : Store} {r r' : ℕ} (env : Env) {pre : Bytes}
    (h : ∀ k, pre <+: k → Versions.newest db k r = Versions.newest db' k r') :
    db.getByPrefixAt env pre r = db'.getByPrefixAt env pre r' := by
  have hkeys := getKeysByPrefixAt_congr env h
  unfold Store.getByPrefixAt BTxn.getByPrefixWithTxn
  unfold Store.getKeysByPrefixAt at hkeys
  rw [hkeys]
  cases hk : (BTxn.newTransactionAt db' r').getKeysByPrefixWithTxn env pre with
  | error e => rfl
  | ok keys =>
    have hmem := isPrefix_of_mem_getKeysByPrefixWithTxn hk
    show Except.ok _ = Except.ok _
    congr 1
    apply List.filterMap_congr
    intro k hk'
    rw [lookup_newTransactionAt, lookup_newTransactionAt, h k (hmem k hk')]

/-- A query has the same answer where the newest versions of the keys it covers are the same. -/
theorem Query.eval_congr {db db' : Store} {r r' : ℕ} (env : Env) {q : Query}
    (h : ∀ k, q.Covers k → Versions.newest db k r = Versions.newest db' k r') :
    q.eval db env r = q.eval db' env r' := by
  cases q with
  | get key =>
    simp only [Query.eval, Store.getAt, BTxn.getWithTxn]
    rw [lookup_newTransactionAt, lookup_newTransactionAt, h key rfl]
  | getByPrefix pre =>
    simp only [Query.eval]
    rw [getByPrefixAt_congr env h]
  | getKeysByPrefix pre =>
    simp only [Query.eval]
    rw [getKeysByPrefixAt_congr env h]

end Omashu
