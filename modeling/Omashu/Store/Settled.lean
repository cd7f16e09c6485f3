import Omashu.Store.Applicable

/-!
# Stores that are read at their latest versions

A store is settled at a timestamp if it has no version above it, none of its versions expires and Badger has
accepted its keys. A transaction at that timestamp or a later one then sees the latest version of each key,
whatever the time is (`Settled.lookup_eq`), and what it sees after its own writes is what the store holds once
they are committed (`Settled.commitAt`). Single-node Badger and the state machine of the distributed store
both stay settled as long as they commit above what they have read.
-/

namespace Omashu

open Lib

/-- Every version is at or below the timestamp, does not expire, and has a key that Badger accepts. -/
structure Store.Settled (db : Store) (ts : ℕ) : Prop where
  /-- Nothing is newer. -/
  bounded : ∀ x ∈ db, x.ts ≤ ts
  /-- Nothing expires. -/
  lasting : db.Lasting
  /-- The keys have passed the checks. -/
  accepted : db.KeysAccepted

/-- The value of a key in a store that is settled at the timestamp. -/
def Store.value (db : Store) (ts : ℕ) (key : Key) : Option Bytes :=
  (BTxn.newTransactionAt db ts).lookup 0 key

namespace Store.Settled

variable {db : Store} {ts : ℕ} {c : ℕ}

/-- Every transaction at the timestamp or above sees the values of the store. -/
theorem lookup_eq (h : db.Settled ts) {r : ℕ} (hr : ts ≤ r) (now : ℤ) :
    (BTxn.newTransactionAt db r).lookup now = db.value ts := by
  have hnow : (BTxn.newTransactionAt db r).lookup now = (BTxn.newTransactionAt db r).lookup 0 :=
    BTxn.lookup_eq_of_lasting h.lasting r now 0
  rw [hnow]
  funext k
  have hgap : Versions.visible db k r = Versions.visible db k ts :=
    Versions.visible_eq_of_gap hr fun x hx _ _ => h.bounded x hx
  unfold Store.value
  rw [lookup_newTransactionAt, lookup_newTransactionAt, Versions.newest_congr hgap]

/-- Once its writes are committed, the store holds what a transaction has seen after them. -/
theorem lookup_commitAt (h : db.Settled ts) (hc : ts ≤ c) {txn : BTxn} (hdb : txn.db = db)
    (hts : txn.readTs = ts) (now : ℤ) :
    (BTxn.newTransactionAt (txn.commitAt c) c).lookup now = txn.lookup now := by
  funext k
  rw [lookup_newTransactionAt]
  unfold BTxn.commitAt BTxn.lookup BTxn.entry
  rw [hdb, hts]
  cases hl : Versions.latest txn.pendingWrites k with
  | some e =>
    have hle : ∀ x ∈ db, x.key = k → x.ts ≤ c → x.ts ≤ c := fun _ _ _ hx => hx
    rw [Versions.newest_install le_rfl hle hl]
    rfl
  | none =>
    -- The key is not written, and nothing lies between the two timestamps.
    have hvisible : Versions.visible (Versions.install db c txn.pendingWrites) k c =
        Versions.visible db k ts := by
      rw [Versions.visible_install_of_notMem (Versions.latest_eq_none_iff.mp hl)]
      exact Versions.visible_eq_of_gap hc fun x hx _ _ => h.bounded x hx
    rw [Versions.newest_congr hvisible]

/-- A commit of writes that do not expire, above what the transaction has read, leaves the store settled. -/
theorem commitAt (h : db.Settled ts) (hc : ts ≤ c) {txn : BTxn}
    (hext : Fsm.Extends AcceptsKey (BTxn.newTransactionAt db ts) txn)
    (hlasting : ∀ w ∈ txn.pendingWrites, w.2.Lasting) :
    (txn.commitAt c).Settled c ∧ ∀ now, (txn.commitAt c).value c = txn.lookup now := by
  obtain ⟨hdb, hts, ws, hws, haccepts⟩ := hext
  have hpending : txn.pendingWrites = ws := by simpa [BTxn.newTransactionAt] using hws
  have hmem : ∀ x ∈ txn.commitAt c,
      (x.ts = c ∧ ∃ w ∈ txn.pendingWrites, w.1 = x.key ∧ w.2 = x.val) ∨ x ∈ db := by
    intro x hx
    rw [BTxn.commitAt, show txn.db = db from hdb] at hx
    exact Versions.mem_install hx
  have hsettled : (txn.commitAt c).Settled c := by
    refine ⟨fun x hx => ?_, fun x hx => ?_, fun x hx => ?_⟩
    · rcases hmem x hx with ⟨hx, -⟩ | hx
      · exact hx.le
      · exact (h.bounded x hx).trans hc
    · rcases hmem x hx with ⟨-, w, hw, -, hval⟩ | hx
      · exact hval ▸ hlasting w hw
      · exact h.lasting x hx
    · rcases hmem x hx with ⟨-, w, hw, hkey, -⟩ | hx
      · exact hkey ▸ haccepts w (hpending ▸ hw)
      · exact h.accepted x hx
  refine ⟨hsettled, fun now => ?_⟩
  rw [← hsettled.lookup_eq le_rfl now]
  exact h.lookup_commitAt hc hdb hts now

/-- The commit of one write. -/
theorem commitAt_withWrite (h : db.Settled ts) (hc : ts ≤ c) {key : Key} {e : Entry} (hkey : AcceptsKey key)
    (he : e.Lasting) :
    (((BTxn.newTransactionAt db ts).withWrite key e).commitAt c).Settled c ∧
      (((BTxn.newTransactionAt db ts).withWrite key e).commitAt c).value c =
        Function.update (db.value ts) key (e.live 0) := by
  have hlasting : ∀ w ∈ ((BTxn.newTransactionAt db ts).withWrite key e).pendingWrites, w.2.Lasting := by
    intro w hw
    obtain rfl : w = (key, e) := List.mem_singleton.mp hw
    exact he
  obtain ⟨hsettled, hvalue⟩ := h.commitAt hc (Fsm.extends_withWrite hkey _ e) hlasting
  exact ⟨hsettled, (hvalue 0).trans (BTxn.lookup_withWrite _ key e 0)⟩

end Store.Settled

namespace BTxn

variable {txn txn' : BTxn} {keys : List Key}

/-- What a transaction sees after the loop of a prefix deletion. -/
theorem lookup_deleteKeys (h : txn.deleteKeys keys = .ok txn') (now : ℤ) (k : Key) :
    txn'.lookup now k = if k ∈ keys then none else txn.lookup now k := by
  induction keys generalizing txn with
  | nil =>
    obtain rfl : txn = txn' := by simpa [deleteKeys] using h
    simp
  | cons key keys ih =>
    obtain ⟨txn₁, h₁, h⟩ := bind_eq_ok h
    obtain ⟨-, rfl⟩ := modify_eq_ok_iff.mp h₁
    rw [ih h, lookup_withWrite, Function.update_apply]
    by_cases hk : k = key
    · simp [hk, Entry.live]
    · simp [hk]

/-- The loop of a prefix deletion writes tombstones, which do not expire. -/
theorem lasting_deleteKeys (h : txn.deleteKeys keys = .ok txn')
    (hlasting : ∀ w ∈ txn.pendingWrites, w.2.Lasting) : ∀ w ∈ txn'.pendingWrites, w.2.Lasting := by
  obtain ⟨-, rfl⟩ := deleteKeys_eq_ok_iff.mp h
  intro w hw
  rcases List.mem_append.mp hw with hw | hw
  · obtain ⟨k, -, rfl⟩ := List.mem_map.mp (List.mem_reverse.mp hw)
    trivial
  · exact hlasting w hw

/-- A prefix deletion whose context is not done removes the keys with the prefix from what the transaction
sees. -/
theorem lookup_deleteByPrefixWithTxn {env : Env} {pre : Bytes} (henv : env.doneAfter = none)
    (h : txn.deleteByPrefixWithTxn env pre = .ok txn') (k : Key) :
    txn'.lookup env.now k = if pre <+: k then none else txn.lookup env.now k := by
  simp only [deleteByPrefixWithTxn, keysVisited, henv] at h
  rw [lookup_deleteKeys h, scan_eq_filter (liveKeys_pairwise _ _)]
  simp only [List.mem_filter, mem_liveKeys, decide_eq_true_eq]
  by_cases hk : pre <+: k
  · cases hv : txn.lookup env.now k with
    | none | some => simp [hk]
  · simp [hk]

end BTxn

namespace Store.Settled

variable {db : Store} {ts : ℕ} {c : ℕ}

/-- A prefix deletion whose context is not done succeeds on a settled store, and removes the keys with the
prefix. -/
theorem deleteByPrefix (h : db.Settled ts) (hc : ts ≤ c) {env : Env} (henv : env.doneAfter = none)
    (pre : Bytes) :
    ∃ db', db.newTransactionAt ts c (fun txn => txn.deleteByPrefixWithTxn env pre) = .ok db' ∧
      db'.Settled c ∧ db'.value c = fun k => if pre <+: k then none else db.value ts k := by
  obtain ⟨txn, htxn⟩ := Fsm.exists_deleteByPrefixWithTxn h.accepted ts env pre
  have hlasting : ∀ w ∈ txn.pendingWrites, w.2.Lasting :=
    BTxn.lasting_deleteKeys htxn fun w hw => absurd hw List.not_mem_nil
  obtain ⟨hsettled, hvalue⟩ := h.commitAt hc (Fsm.deleteKeys_extends_accepted htxn) hlasting
  refine ⟨txn.commitAt c, ?_, hsettled, ?_⟩
  · show ((BTxn.newTransactionAt db ts).deleteByPrefixWithTxn env pre).map _ = _
    rw [htxn]
    rfl
  · rw [hvalue env.now, ← h.lookup_eq le_rfl env.now]
    funext k
    exact BTxn.lookup_deleteByPrefixWithTxn henv htxn k

end Store.Settled

end Omashu
