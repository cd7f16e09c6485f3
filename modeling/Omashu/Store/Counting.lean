import Omashu.Store.Counter
import Omashu.Store.PrefixDeletion

/-!
# Counting on a single-node store

`Badger.IncrBy` and `Badger.DecrBy` read a counter in a transaction of their own, and write the new one. A
decrement stops at zero, but an increment adds modulo `2^64`: at its limit the counter starts again from
below, though `IncrBy` is documented to increment it (`increment_wraps`).

`counts_exactly_iff` is about every sequence of such operations on a key, from every counter. The stored counter
is the fold over the natural numbers and no increment makes it smaller exactly if that fold does not leave 64
bits. An increment that wraps makes the counter smaller, so the two parts fail together
(`not_le_of_wraps`), and what comes after it does not matter.
-/

namespace Omashu

open Lib

/-- An operation on a counter. -/
inductive CounterOp
  /-- `Badger.IncrBy`. -/
  | incrBy (delta : UInt64)
  /-- `Badger.DecrBy`. -/
  | decrBy (delta : UInt64)
  deriving DecidableEq

/-- The operation as a sub-command, for what it should do to the counter. -/
def CounterOp.subCommand (k : Key) : CounterOp → SubCommand
  | .incrBy delta => .incrBy k delta
  | .decrBy delta => .decrBy k delta

/-- The operation in its transaction. -/
def CounterOp.withTxn (k : Key) (env : Env) (txn : BTxn) : CounterOp → Except Err BTxn
  | .incrBy delta => txn.incrByWithTxn env k delta
  | .decrBy delta => txn.decrByWithTxn env k delta

/-- An operation, and the surroundings it runs in. -/
abbrev CounterCall := CounterOp × Env

namespace Badger

/-- `Badger.IncrBy` or `Badger.DecrBy`. An error leaves the store as it is. -/
def count (k : Key) (s : Badger) (x : CounterCall) : Badger :=
  (s.update fun txn => x.1.withTxn k x.2 txn).1

/-- Several of them. -/
def counts (k : Key) (s : Badger) (xs : List CounterCall) : Badger := xs.foldl (count k) s

/-- The counter that a read of the key decodes, zero if the key is absent. -/
def counter (s : Badger) (now : ℤ) (k : Key) : Option ℕ := s.db.counter now k s.ts

/-- No increment makes the counter smaller. -/
def IncrementsGrow (k : Key) (s : Badger) : List CounterCall → Prop
  | [] => True
  | x :: xs =>
    (∀ delta, x.1 = .incrBy delta → ∀ v ∈ s.counter x.2.now k, ∀ v' ∈ (s.count k x).counter x.2.now k, v ≤ v') ∧
      IncrementsGrow k (s.count k x) xs

end Badger

section Operation

variable {k : Key} {s : Badger} {env : Env} {v : ℕ} {op : CounterOp} {xs : List CounterCall}

/-- What an operation puts into its transaction, if a read finds the counter. -/
theorem withTxn_eq_ok {txn : BTxn} (op : CounterOp) (hk : AcceptsKey k)
    (hv : txn.lookup env.now k = none ∧ v = 0 ∨
      ∃ b, txn.lookup env.now k = some b ∧ bytesToUint64 b = some v) :
    ∃ n, op.withTxn k env txn =
        .ok { txn with pendingWrites := (k, .value (uint64ToBytes n) 0) :: txn.pendingWrites } ∧
      n % 2 ^ 64 = (op.subCommand k).onStored k v := by
  have hcheck := checkKey_eq_ok_iff.mpr hk
  have hne : k ≠ [] := hk.1
  have hset (n : ℕ) : txn.setWithTxn env k (uint64ToBytes n) none =
      .ok { txn with pendingWrites := (k, .value (uint64ToBytes n) 0) :: txn.pendingWrites } := by
    simp only [BTxn.setWithTxn, BTxn.modify, hcheck]
    rfl
  have hget : txn.getWithTxn env k = .ok (txn.lookup env.now k) := if_neg hne
  cases op with
  | incrBy delta =>
    simp only [CounterOp.subCommand, SubCommand.onStored, if_true]
    obtain ⟨hnone, rfl⟩ | ⟨b, hsome, hb⟩ := hv
    · refine ⟨delta.toNat, ?_, by rw [Nat.zero_add]⟩
      rw [CounterOp.withTxn, BTxn.incrByWithTxn, hget, hnone]
      exact hset _
    · refine ⟨v + delta.toNat, ?_, rfl⟩
      rw [CounterOp.withTxn, BTxn.incrByWithTxn, hget, hsome]
      simp only [bind, Except.bind, hb]
      exact hset _
  | decrBy delta =>
    simp only [CounterOp.subCommand, SubCommand.onStored, if_true]
    obtain ⟨hnone, rfl⟩ | ⟨b, hsome, hb⟩ := hv
    · refine ⟨0, ?_, by rw [Nat.zero_sub, Nat.zero_mod]⟩
      rw [CounterOp.withTxn, BTxn.decrByWithTxn, hget, hnone]
      exact hset _
    · have hlt := bytesToUint64_lt hb
      refine ⟨if v < delta.toNat then 0 else v - delta.toNat, ?_, by split_ifs <;> omega⟩
      rw [CounterOp.withTxn, BTxn.decrByWithTxn, hget, hsome]
      simp only [bind, Except.bind, hb]
      exact hset _

/-- What a read of the counter has found. -/
theorem lookup_of_counter {now : ℤ} (h : s.counter now k = some v) :
    (BTxn.newTransactionAt s.db s.ts).lookup now k = none ∧ v = 0 ∨
      ∃ b, (BTxn.newTransactionAt s.db s.ts).lookup now k = some b ∧ bytesToUint64 b = some v := by
  unfold Badger.counter Store.counter at h
  split at h
  next hnone => exact .inl ⟨hnone, (Option.some.inj h).symm⟩
  next b hsome => exact .inr ⟨b, hsome, h⟩

/-- An operation leaves the counter that it should, on 64 bits, at every later time. -/
theorem counter_count (op : CounterOp) (hk : AcceptsKey k) (hs : s.Current) (hv : s.counter env.now k = some v) :
    (s.count k (op, env)).Current ∧
      ∀ now, (s.count k (op, env)).counter now k = some ((op.subCommand k).onStored k v) := by
  obtain ⟨n, hwrite, hn⟩ := withTxn_eq_ok op hk (lookup_of_counter hv)
  have hcount : s.count k (op, env) =
      ⟨Versions.install s.db (s.ts + 1) [(k, .value (uint64ToBytes n) 0)], s.ts + 1⟩ := by
    simp only [Badger.count, Badger.update, Store.newTransactionAt, hwrite]
    rfl
  rw [hcount]
  constructor
  · intro x hx
    rcases Versions.mem_install hx with ⟨hts, -⟩ | hx
    · exact hts.le
    · exact (hs x hx).trans (Nat.le_succ _)
  · intro now
    have hnewest : Versions.newest (Versions.install s.db (s.ts + 1) [(k, .value (uint64ToBytes n) 0)]) k
        (s.ts + 1) = some ⟨k, s.ts + 1, .value (uint64ToBytes n) 0⟩ :=
      Versions.newest_install le_rfl (fun x hx _ _ => (hs x hx).trans (Nat.le_succ _))
        (by simp [Versions.latest])
    have hentry : CounterEntry (n % 2 ^ 64) ((Versions.newest
        (Versions.install s.db (s.ts + 1) [(k, .value (uint64ToBytes n) 0)]) k (s.ts + 1)).map Version.val) := by
      rw [hnewest]
      exact ⟨rfl, bytesToUint64_uint64ToBytes n⟩
    rw [← hn]
    exact counter_eq hentry now

/-- A counter fits in 64 bits. -/
theorem counter_lt {now : ℤ} (h : s.counter now k = some v) : v < 2 ^ 64 := by
  obtain ⟨-, rfl⟩ | ⟨b, -, hb⟩ := lookup_of_counter h
  · decide
  · exact bytesToUint64_lt hb

/-- An increment that wraps makes the counter smaller. -/
theorem not_le_of_wraps {delta : UInt64} (hv : v < 2 ^ 64) (h : 2 ^ 64 ≤ v + delta.toNat) :
    ¬v ≤ (v + delta.toNat) % 2 ^ 64 := by
  have hdelta := delta.toNat_lt
  omega

/-- An increment that makes the counter no smaller does not wrap, and a decrement never does. -/
theorem onCounter_lt_iff (hv : v < 2 ^ 64) :
    (op.subCommand k).onCounter k v < 2 ^ 64 ↔
      ∀ delta, op = .incrBy delta → v ≤ (op.subCommand k).onStored k v := by
  cases op with
  | incrBy delta =>
    simp only [CounterOp.subCommand, SubCommand.onCounter, SubCommand.onStored, if_true]
    constructor
    · intro hlt _ _
      rw [Nat.mod_eq_of_lt hlt]
      exact Nat.le_add_right _ _
    · intro hle
      by_contra hwraps
      exact not_le_of_wraps hv (not_lt.mp hwraps) (hle delta rfl)
  | decrBy delta =>
    simp only [CounterOp.subCommand, SubCommand.onCounter, if_true, reduceCtorEq, false_implies, implies_true,
      iff_true]
    omega

/-- The operations of a key, as sub-commands. -/
def countingCommands (k : Key) (xs : List CounterCall) : List SubCommand := xs.map fun x => x.1.subCommand k

/-- Increments grow along a sequence exactly if nothing wraps. -/
theorem incrementsGrow_iff (hk : AcceptsKey k) (hs : s.Current)
    (hv : ∀ x ∈ xs.head?, s.counter x.2.now k = some v) (hlt : v < 2 ^ 64) :
    s.IncrementsGrow k xs ↔ NoWrap k v (countingCommands k xs) := by
  induction xs generalizing s v with
  | nil => exact Iff.rfl
  | cons x xs ih =>
    obtain ⟨op, env⟩ := x
    have hv := hv _ rfl
    obtain ⟨hcurrent, hcounter⟩ := counter_count op hk hs hv
    have hgrows : (∀ delta, op = .incrBy delta → ∀ u ∈ s.counter env.now k,
        ∀ u' ∈ (s.count k (op, env)).counter env.now k, u ≤ u') ↔
        (op.subCommand k).onCounter k v < 2 ^ 64 := by
      rw [onCounter_lt_iff hlt, hv, hcounter]
      simp
    show _ ∧ _ ↔ _ ∧ _
    rw [hgrows]
    refine and_congr_right fun hnowrap => ?_
    -- Without a wrap the stored counter is the intended one.
    have hone : NoWrap k v [op.subCommand k] := ⟨hnowrap, trivial⟩
    have hstored : (op.subCommand k).onStored k v = (op.subCommand k).onCounter k v := storedAfter_eq hone
    exact ih hcurrent (fun x _ => (hcounter _).trans (congrArg some hstored)) hnowrap

/-- The counter after a sequence, on 64 bits. -/
theorem counter_counts {now : ℤ} (hk : AcceptsKey k) (hs : s.Current)
    (hv : s.counter ((xs.head?.map fun x => x.2.now).getD now) k = some v) :
    (s.counts k xs).counter now k = some (storedAfter k v (countingCommands k xs)) := by
  induction xs generalizing s v with
  | nil => exact hv
  | cons x xs ih =>
    obtain ⟨op, env⟩ := x
    obtain ⟨hcurrent, hcounter⟩ := counter_count op hk hs hv
    exact ih hcurrent (hcounter _)

end Operation

/-- After every sequence of increments and decrements of a key, at every time, the counter is the fold over the
natural numbers in which a decrement stops at zero, and no increment has made it smaller, exactly if no
operation takes that fold past 64 bits. The sequence starts at the counter that its first operation finds, which
is zero for an absent key. -/
theorem counts_exactly_iff {k : Key} {s : Badger} {v : ℕ} (hk : AcceptsKey k) (hs : s.Current) (now : ℤ)
    (xs : List CounterCall) (hv : s.counter ((xs.head?.map fun x => x.2.now).getD now) k = some v) :
    ((s.counts k xs).counter now k = some (counterAfter k v (countingCommands k xs)) ∧ s.IncrementsGrow k xs) ↔
      NoWrap k v (countingCommands k xs) := by
  have hgrow : s.IncrementsGrow k xs ↔ NoWrap k v (countingCommands k xs) := by
    refine incrementsGrow_iff hk hs (fun x hx => ?_) (counter_lt hv)
    rw [hx] at hv
    exact hv
  constructor
  · rintro ⟨-, h⟩
    exact hgrow.mp h
  · intro h
    refine ⟨?_, hgrow.mpr h⟩
    rw [counter_counts hk hs hv, storedAfter_eq h]

/-- A store whose counter at the key 1 has its largest value. -/
def largestCounter : Badger := ⟨[⟨[1], 5, .value (uint64ToBytes (2 ^ 64 - 1)) 0⟩], 5⟩

/-- Incrementing it by two makes it one. -/
theorem increment_wraps :
    largestCounter.counter 0 [1] = some (2 ^ 64 - 1) ∧
      (largestCounter.counts [1] [(.incrBy 2, someEnv)]).counter 0 [1] = some 1 ∧
      counterAfter [1] (2 ^ 64 - 1) (countingCommands [1] [(.incrBy 2, someEnv)]) = 2 ^ 64 + 1 := by
  decide +kernel

/-- A decrement, and an increment up to the largest value. -/
theorem counts_exactly_iff_largest :
    (largestCounter.counts [1] [(.decrBy 2, someEnv), (.incrBy 2, someEnv)]).counter 0 [1] =
      some (2 ^ 64 - 1) := by
  have hk : AcceptsKey [1] := by decide
  have hs : largestCounter.Current := by decide +kernel
  have hv : largestCounter.counter 0 [1] = some (2 ^ 64 - 1) := by decide +kernel
  have hexact := counts_exactly_iff hk hs 0 [(.decrBy 2, someEnv), (.incrBy 2, someEnv)] hv
  exact (hexact.mpr (by decide +kernel)).1

end Omashu
