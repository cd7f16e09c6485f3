import Omashu.Store.Fsm

/-!
# Counters in the store

`INCR_BY` and `DECR_BY` read the value of their key as a counter and write the new one. What a list
of such operations should make of a counter is `counterAfter`; the code adds modulo `2^64`
(`storedAfter`), and the two agree as long as no addition wraps around.

`apply_counter` follows one command through `FSM.Apply`. The counter that it writes comes from the one
it finds at its read timestamp, so it builds on the newest one only where no version of the key lies
above that.
-/

namespace Omashu

open Lib

/-- What an operation should do to the counter at `k`. -/
def SubCommand.onCounter (k : Key) (v : ℕ) : SubCommand → ℕ
  | .incrBy key delta => if key = k then v + delta.toNat else v
  | .decrBy key delta => if key = k then v - delta.toNat else v
  | _ => v

/-- The counter at `k` after several operations. -/
def counterAfter (k : Key) (v : ℕ) (cs : List SubCommand) : ℕ := cs.foldl (fun v c => c.onCounter k v) v

/-- What an operation does to the counter at `k`, on 64 bits. -/
def SubCommand.onStored (k : Key) (v : ℕ) : SubCommand → ℕ
  | .incrBy key delta => if key = k then (v + delta.toNat) % 2^64 else v
  | .decrBy key delta => if key = k then v - delta.toNat else v
  | _ => v

/-- The counter at `k` after several operations, on 64 bits. -/
def storedAfter (k : Key) (v : ℕ) (cs : List SubCommand) : ℕ := cs.foldl (fun v c => c.onStored k v) v

/-- No operation takes the counter past 64 bits. -/
def NoWrap (k : Key) (v : ℕ) : List SubCommand → Prop
  | [] => True
  | c :: cs => c.onCounter k v < 2^64 ∧ NoWrap k (c.onCounter k v) cs

instance (k : Key) (v : ℕ) (cs : List SubCommand) : Decidable (NoWrap k v cs) := by
  induction cs generalizing v with
  | nil => exact inferInstanceAs (Decidable True)
  | cons c cs ih => exact inferInstanceAs (Decidable (_ ∧ _))

/-- The operation increments or decrements the counter at `k`, or leaves `k` alone. -/
def SubCommand.CountsAt (k : Key) : SubCommand → Prop
  | .incrBy _ _ => True
  | .decrBy _ _ => True
  | c => ¬c.Touches k

/-- Where nothing wraps around, the stored counter is the intended one. -/
theorem storedAfter_eq {k : Key} {v : ℕ} {cs : List SubCommand} (h : NoWrap k v cs) :
    storedAfter k v cs = counterAfter k v cs := by
  induction cs generalizing v with
  | nil => rfl
  | cons c cs ih =>
    have hstep : c.onStored k v = c.onCounter k v := by
      have hlt := h.1
      cases c with
      | incrBy key delta =>
        simp only [SubCommand.onStored, SubCommand.onCounter] at hlt ⊢
        split_ifs at hlt ⊢ with hk
        · exact Nat.mod_eq_of_lt hlt
        · rfl
      | _ => rfl
    show storedAfter k (c.onStored k v) cs = counterAfter k (c.onCounter k v) cs
    rw [hstep]
    exact ih h.2

/-- Operations that leave `k` alone do not change its counter. -/
theorem onStored_of_not_touches {k : Key} {v : ℕ} {c : SubCommand} (h : ¬c.Touches k) :
    c.onStored k v = v := by
  cases c with
  | incrBy | decrBy => exact if_neg h
  | _ => rfl

/-- The entry of a key holds the counter `v`, for good; an absent one counts as zero. -/
def CounterEntry (v : ℕ) : Option Entry → Prop
  | none => v = 0
  | some .tombstone => v = 0
  | some (.value b expiresAt) => expiresAt = 0 ∧ bytesToUint64 b = some v

/-- The counter that a read of `k` at a timestamp finds. -/
def Store.counter (db : Store) (now : ℤ) (k : Key) (r : ℕ) : Option ℕ :=
  match (BTxn.newTransactionAt db r).lookup now k with
  | none => some 0
  | some b => bytesToUint64 b

/-- What a lookup finds where the entry holds a counter. -/
theorem CounterEntry.lookup {t : BTxn} {k : Key} {v : ℕ} (h : CounterEntry v (t.entry k))
    (now : ℤ) : (t.lookup now k = none ∧ v = 0) ∨
      ∃ b, t.lookup now k = some b ∧ bytesToUint64 b = some v := by
  unfold BTxn.lookup
  cases he : t.entry k with
  | none =>
    rw [he] at h
    exact .inl ⟨rfl, h⟩
  | some e =>
    rw [he] at h
    cases e with
    | tombstone => exact .inl ⟨rfl, h⟩
    | value b expiresAt =>
      obtain ⟨rfl, hb⟩ := h
      exact .inr ⟨b, by simp [Entry.live], hb⟩

/-- A read finds the counter. -/
theorem counter_eq {db : Store} {k : Key} {r v : ℕ}
    (h : CounterEntry v ((Versions.newest db k r).map Version.val)) (now : ℤ) :
    db.counter now k r = some v := by
  unfold Store.counter
  obtain ⟨hl, rfl⟩ | ⟨b, hl, hb⟩ := CounterEntry.lookup (t := BTxn.newTransactionAt db r) h now
  · rw [hl]
  · rw [hl]
    exact hb

/-! ## Following a command -/

namespace Fsm

variable {M : Merge} {txn txn' : BTxn} {env : Env} {k : Key} {v : ℕ}

/-- Writes of other keys leave the entry of `k`. -/
theorem Extends.entry_eq {T : Key → Prop} (h : Extends T txn txn') (hk : ¬T k) :
    txn'.entry k = txn.entry k := by
  have hlatest := h.latest_eq hk
  obtain ⟨hdb, hts, -⟩ := h
  unfold BTxn.entry
  rw [hlatest, hdb, hts]

/-- A counter that is set is the entry of its key. -/
theorem entry_setWithTxn {n : ℕ} (h : txn.setWithTxn env k (uint64ToBytes n) none = .ok txn') :
    CounterEntry (n % 2^64) (txn'.entry k) := by
  unfold BTxn.setWithTxn BTxn.modify at h
  obtain ⟨_, -, h⟩ := bind_eq_ok h
  obtain rfl := Except.ok.inj h
  have hentry : ({ txn with pendingWrites := (k, .value (uint64ToBytes n) 0) :: txn.pendingWrites } :
      BTxn).entry k = some (.value (uint64ToBytes n) 0) := by
    simp [BTxn.entry, Versions.latest]
  rw [hentry]
  exact ⟨rfl, bytesToUint64_uint64ToBytes n⟩

/-- A successful read returns what the transaction sees. -/
theorem lookup_of_getWithTxn {b : Option Bytes} (h : txn.getWithTxn env k = .ok b) :
    txn.lookup env.now k = b := by
  unfold BTxn.getWithTxn at h
  split_ifs at h
  exact Except.ok.inj h

/-- An increment of `k` adds to the counter that the transaction sees. -/
theorem incrByWithTxn_counter {delta : UInt64} (h : txn.incrByWithTxn env k delta = .ok txn')
    (hv : CounterEntry v (txn.entry k)) :
    CounterEntry ((v + delta.toNat) % 2^64) (txn'.entry k) := by
  obtain ⟨b, hget, h⟩ := bind_eq_ok h
  have hlookup := lookup_of_getWithTxn hget
  obtain ⟨hl, rfl⟩ | ⟨b', hl, hb'⟩ := hv.lookup env.now
  · rw [← hlookup, hl] at h
    rw [Nat.zero_add]
    exact entry_setWithTxn h
  · rw [← hlookup, hl] at h
    simp only [hb'] at h
    exact entry_setWithTxn h

/-- A decrement of `k` subtracts from the counter that the transaction sees, down to zero. -/
theorem decrByWithTxn_counter {delta : UInt64} (h : txn.decrByWithTxn env k delta = .ok txn')
    (hv : CounterEntry v (txn.entry k)) : CounterEntry (v - delta.toNat) (txn'.entry k) := by
  obtain ⟨b, hget, h⟩ := bind_eq_ok h
  have hlookup := lookup_of_getWithTxn hget
  obtain ⟨hl, rfl⟩ | ⟨b', hl, hb'⟩ := hv.lookup env.now
  · rw [← hlookup, hl] at h
    rw [Nat.zero_sub]
    exact entry_setWithTxn h
  · rw [← hlookup, hl] at h
    simp only [hb'] at h
    have hlt := bytesToUint64_lt hb'
    have hentry := entry_setWithTxn h
    have hclamp : (if v < delta.toNat then 0 else v - delta.toNat) % 2^64 = v - delta.toNat := by
      split_ifs <;> omega
    rw [hclamp] at hentry
    exact hentry

/-- One sub-command does to the counter what it should, on 64 bits. -/
theorem applySub_counter {c : SubCommand} (h : applySub M env txn c = .ok txn')
    (hc : c.CountsAt k) (hv : CounterEntry v (txn.entry k)) :
    CounterEntry (c.onStored k v) (txn'.entry k) := by
  by_cases hk : c.Touches k
  · cases c with
    | incrBy key delta =>
      obtain rfl : key = k := hk
      simp only [SubCommand.onStored, if_true]
      exact incrByWithTxn_counter h hv
    | decrBy key delta =>
      obtain rfl : key = k := hk
      simp only [SubCommand.onStored, if_true]
      exact decrByWithTxn_counter h hv
    | _ => exact absurd hk hc
  · rw [onStored_of_not_touches hk, (applySub_extends h).entry_eq hk]
    exact hv

/-- So do several, one after the other. -/
theorem applySubs_counter {cs : List SubCommand} (h : applySubs M env txn cs = .ok txn')
    (hcs : ∀ c ∈ cs, c.CountsAt k) (hv : CounterEntry v (txn.entry k)) :
    CounterEntry (storedAfter k v cs) (txn'.entry k) := by
  induction cs generalizing txn v with
  | nil =>
    obtain rfl : txn = txn' := by simpa [applySubs] using h
    exact hv
  | cons c cs ih =>
    obtain ⟨txn₁, h₁, h⟩ := bind_eq_ok h
    exact ih h (fun c hc => hcs c (List.mem_cons_of_mem _ hc))
      (applySub_counter h₁ (hcs c List.mem_cons_self) hv)

/-- The body of a command does to the counter what its operations should. -/
theorem perform_counter {b : Body} (h : perform M env txn b = .ok txn')
    (hb : ∀ c ∈ b.subCommands, c.CountsAt k) (hv : CounterEntry v (txn.entry k)) :
    CounterEntry (storedAfter k v b.subCommands) (txn'.entry k) := by
  cases b with
  | transaction cs => exact applySubs_counter h hb hv
  | single c =>
    have hc := hb c List.mem_cons_self
    cases c with
    | deleteByPrefix pre =>
      show CounterEntry v (txn'.entry k)
      rw [(deleteByPrefixWithTxn_extends h).entry_eq hc]
      exact hv
    | _ =>
      rw [perform_single (by simp)] at h
      exact applySub_counter h hc hv

/-- Applying a command whose read timestamp is not below any version of `k` leaves the counter that
its operations make of the one before, at every later timestamp. -/
theorem apply_counter {db db' : Store} {c : Command} {r : ℕ} (h : apply M db env c = .ok db')
    (hc : ∀ sub ∈ c.body.subCommands, sub.CountsAt k)
    (hold : ∀ x ∈ db, x.key = k → x.ts ≤ c.readTs) (hts : c.readTs ≤ c.commitTs)
    (hr : c.commitTs ≤ r)
    (hv : CounterEntry v ((Versions.newest db k c.readTs).map Version.val)) :
    CounterEntry (storedAfter k v c.body.subCommands)
      ((Versions.newest db' k r).map Version.val) := by
  rw [apply_eq_newTransactionAt] at h
  unfold Store.newTransactionAt at h
  obtain ⟨txn, hp, rfl⟩ := map_eq_ok h
  have hcount := perform_counter hp hc hv
  -- The transaction still has the store and the timestamp it was opened with.
  obtain ⟨hdb, hread, -⟩ := perform_extends hp
  suffices hentry : (Versions.newest (txn.commitAt c.commitTs) k r).map Version.val = txn.entry k by
    rw [hentry]
    exact hcount
  unfold BTxn.commitAt BTxn.entry
  rw [hdb, hread]
  simp only [BTxn.newTransactionAt]
  -- The newest version is the pending write of the key, or is still the one that was read.
  cases hl : Versions.latest txn.pendingWrites k with
  | some e =>
    rw [Versions.newest_install hr (fun x hx hk _ => le_trans (hold x hx hk) hts) hl]
    rfl
  | none =>
    have hw := Versions.latest_eq_none_iff.mp hl
    congr 1
    apply Versions.newest_congr
    rw [Versions.visible_install_of_notMem hw]
    exact Versions.visible_eq_of_gap (le_trans hts hr) fun x hx hk _ => hold x hx hk

end Fsm

end Omashu
