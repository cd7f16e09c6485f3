import Mathlib.Data.Finset.Erase
import Omashu.Lib.WaterMark
import Omashu.Leader.Txn
import Omashu.Tso.Timestamp

/-!
# The oracle's conflict check and commit timestamps

`TSO` of `tso.go`: the clock, the watermarks of pending commits and of pending reads, the set of read
timestamps in use, and the records of committed transactions. Its methods run under `tso.mu`, so each
of them is one function on the state. A watermark terminates the process when it is marked below its
bound; the functions are `none`, or answer `terminated`, there.

`newCommitTs_ok` says what a successful `newCommitTs` does, and `hasConflict_iff` what the conflict
check finds in the records that are left.
-/

namespace Omashu

open Lib

/-- `committedTxn`. -/
structure CommittedTxn where
  /-- The commit timestamp. -/
  ts : ℕ
  /-- The keys written at it. -/
  conflictKeys : Finset Key
  deriving DecidableEq

/-- `TSO`. -/
structure Tso extends Clock where
  /-- Blocks new transactions until earlier commits are visible. -/
  txnMark : WaterMark
  /-- The pending reads. -/
  readMark : WaterMark
  /-- The read timestamps in use. -/
  readers : Finset ℕ
  /-- The bound of `readMark` at the last cleanup. -/
  lastCleanupTs : ℕ
  /-- The records of committed transactions. -/
  committedTxns : List CommittedTxn

/-- What `newCommitTs` does. -/
inductive CommitResult
  /-- The transaction has a conflict. -/
  | conflict
  /-- The call is still in a wait loop of `allocate`. -/
  | waiting
  /-- A watermark terminates the process. -/
  | terminated
  /-- The commit timestamp, and the oracle after the call. -/
  | ok (ts : ℕ) (tso : Tso)

namespace Tso

/-- `currentReadTs`. -/
def currentReadTs (tso : Tso) : ℕ := tso.current.compose

/-- `hasConflict`. -/
def hasConflict (tso : Tso) (txn : Txn) : Bool :=
  if txn.reads = [] then false
  else tso.committedTxns.any fun c =>
    txn.readTs < c.ts && txn.reads.any fun key => key ∈ c.conflictKeys

/-- `doneRead`. -/
def doneRead (tso : Tso) (readTs : ℕ) : Option Tso :=
  if readTs ∈ tso.readers then
    (tso.readMark.doneMark readTs).map fun m =>
      { tso with readMark := m, readers := tso.readers.erase readTs }
  else some tso

/-- `cleanupCommittedTransactions`. -/
def cleanupCommittedTransactions (tso : Tso) : Tso :=
  let maxReadTs := tso.readMark.doneUntil
  if maxReadTs = tso.lastCleanupTs then tso
  else { tso with
    lastCleanupTs := maxReadTs
    committedTxns := tso.committedTxns.filter fun c => maxReadTs < c.ts }

/-- `newCommitTs`, on the readings of the wall clock that `allocate` makes. -/
def newCommitTs (tso : Tso) (txn : Txn) (readings : List ℤ) : CommitResult :=
  if tso.hasConflict txn then .conflict
  else
    match tso.doneRead txn.readTs with
    | none => .terminated
    | some tso =>
      -- The cleanup goes by the bound without the read that has just been done.
      let tso := tso.cleanupCommittedTransactions
      match tso.toClock.allocate readings with
      | none => .waiting
      | some c =>
        let ts := c.current.compose
        match tso.txnMark.beginMark ts with
        | none => .terminated
        | some m => .ok ts { tso with
            toClock := c
            txnMark := m
            committedTxns := tso.committedTxns ++ [⟨ts, txn.conflictKeys⟩] }

variable {tso tso' : Tso} {txn : Txn} {readings : List ℤ} {ts r : ℕ}

/-- What the conflict check finds: a record above the read timestamp that wrote a read key. -/
theorem hasConflict_iff : tso.hasConflict txn = true ↔
    ∃ c ∈ tso.committedTxns, txn.readTs < c.ts ∧ ∃ key ∈ txn.reads, key ∈ c.conflictKeys := by
  unfold hasConflict
  split_ifs with h
  · simp [h]
  · simp

/-- The conflict check comes before everything else. -/
theorem newCommitTs_eq_conflict_iff :
    tso.newCommitTs txn readings = .conflict ↔ tso.hasConflict txn = true := by
  unfold newCommitTs
  split_ifs with h
  · simp [h]
  · simp only [h]
    split
    · simp
    · split
      · simp
      · split <;> simp

/-- What `doneRead` does: it takes the timestamp from the readers, with one `Done`, where it is
there. -/
theorem doneRead_cases (h : tso.doneRead r = some tso') :
    (r ∈ tso.readers ∧ ∃ m, tso.readMark.doneMark r = some m ∧
      tso' = { tso with readMark := m, readers := tso.readers.erase r }) ∨
    (r ∉ tso.readers ∧ tso' = tso) := by
  unfold doneRead at h
  split_ifs at h with hr
  · obtain ⟨m, hm, rfl⟩ := Option.map_eq_some_iff.mp h
    exact .inl ⟨hr, m, hm, rfl⟩
  · exact .inr ⟨hr, (Option.some.inj h).symm⟩

/-- After `doneRead` the timestamp is no reader's, the bound of the pending reads has not gone back, and
the records are as before. -/
theorem doneRead_spec (h : tso.doneRead r = some tso') :
    r ∉ tso'.readers ∧ tso'.readers ⊆ tso.readers ∧
      tso.readMark.doneUntil ≤ tso'.readMark.doneUntil ∧ tso'.committedTxns = tso.committedTxns := by
  obtain ⟨-, m, hm, rfl⟩ | ⟨hr, rfl⟩ := doneRead_cases h
  · exact ⟨Finset.notMem_erase _ _, Finset.erase_subset _ _, WaterMark.doneUntil_le_mark hm, rfl⟩
  · exact ⟨hr, Finset.Subset.refl _, le_refl _, rfl⟩

/-- A cleanup removes only records at or below the bound of the pending reads. -/
theorem mem_cleanup_of_lt {c : CommittedTxn} (h : c ∈ tso.committedTxns)
    (hlt : tso.readMark.doneUntil < c.ts) : c ∈ tso.cleanupCommittedTransactions.committedTxns := by
  unfold cleanupCommittedTransactions
  dsimp only
  split_ifs
  · exact h
  · exact List.mem_filter.mpr ⟨h, by simpa using hlt⟩

/-- A cleanup adds no record. -/
theorem mem_of_mem_cleanup {c : CommittedTxn}
    (h : c ∈ tso.cleanupCommittedTransactions.committedTxns) : c ∈ tso.committedTxns := by
  unfold cleanupCommittedTransactions at h
  dsimp only at h
  split_ifs at h
  · exact h
  · exact (List.mem_filter.mp h).1

/-- A cleanup leaves everything but the records and its own bound. -/
theorem cleanup_frame (tso : Tso) :
    tso.cleanupCommittedTransactions.toClock = tso.toClock ∧
      tso.cleanupCommittedTransactions.txnMark = tso.txnMark ∧
      tso.cleanupCommittedTransactions.readMark = tso.readMark ∧
      tso.cleanupCommittedTransactions.readers = tso.readers := by
  unfold cleanupCommittedTransactions
  dsimp only
  split_ifs <;> exact ⟨rfl, rfl, rfl, rfl⟩

/-- What a successful `newCommitTs` does: there is no conflict, the read is done, the clock has
allocated the timestamp, and it is recorded and begun. -/
theorem newCommitTs_ok (h : tso.newCommitTs txn readings = .ok ts tso') :
    tso.hasConflict txn = false ∧
      ∃ tso₁, tso.doneRead txn.readTs = some tso₁ ∧
        tso.toClock.allocate readings = some tso'.toClock ∧ ts = tso'.current.compose ∧
        tso.txnMark.beginMark ts = some tso'.txnMark ∧
        tso'.readMark = tso₁.readMark ∧ tso'.readers = tso₁.readers ∧
        tso'.committedTxns =
          tso₁.cleanupCommittedTransactions.committedTxns ++ [⟨ts, txn.conflictKeys⟩] := by
  unfold newCommitTs at h
  split_ifs at h with hc
  refine ⟨by simpa using hc, ?_⟩
  split at h
  · simp at h
  · rename_i tso₁ hd
    obtain ⟨hclock, htxn, hread, hreaders⟩ := cleanup_frame tso₁
    -- Neither `doneRead` nor the cleanup touches the clock and the pending commits.
    have hsame : tso₁.toClock = tso.toClock ∧ tso₁.txnMark = tso.txnMark := by
      obtain ⟨-, m, -, rfl⟩ | ⟨-, rfl⟩ := doneRead_cases hd
      · exact ⟨rfl, rfl⟩
      · exact ⟨rfl, rfl⟩
    dsimp only at h
    rw [hclock, htxn, hsame.1, hsame.2] at h
    split at h
    · simp at h
    · rename_i c hc'
      split at h
      · simp at h
      · rename_i m hm
        obtain ⟨rfl, rfl⟩ := CommitResult.ok.inj h
        exact ⟨tso₁, hd, hc', rfl, hm, hread, hreaders, rfl⟩

/-- A commit keeps the records above the new bound of the pending reads. -/
theorem mem_newCommitTs_of_lt {c : CommittedTxn} (h : tso.newCommitTs txn readings = .ok ts tso')
    (hc : tso.readMark.doneUntil < c.ts → c ∈ tso.committedTxns)
    (hlt : tso'.readMark.doneUntil < c.ts) : c ∈ tso'.committedTxns := by
  obtain ⟨-, tso₁, hdone, -, -, -, hmark, -, hrecords⟩ := newCommitTs_ok h
  obtain ⟨-, -, hbound, hsame⟩ := doneRead_spec hdone
  rw [hmark] at hlt
  rw [hrecords]
  -- It was above the old bound as well, and survives the cleanup.
  refine List.mem_append_left _ (mem_cleanup_of_lt ?_ hlt)
  rw [hsame]
  exact hc (lt_of_le_of_lt hbound hlt)

/-- A commit adds its own record. -/
theorem stamp_mem_newCommitTs (h : tso.newCommitTs txn readings = .ok ts tso') :
    ⟨ts, txn.conflictKeys⟩ ∈ tso'.committedTxns := by
  obtain ⟨-, tso₁, -, -, -, -, -, -, hrecords⟩ := newCommitTs_ok h
  rw [hrecords]
  exact List.mem_append_right _ List.mem_cons_self

/-- It adds no other one. -/
theorem mem_of_mem_newCommitTs {c : CommittedTxn} (h : tso.newCommitTs txn readings = .ok ts tso')
    (hc : c ∈ tso'.committedTxns) : c ∈ tso.committedTxns ∨ c = ⟨ts, txn.conflictKeys⟩ := by
  obtain ⟨-, tso₁, hdone, -, -, -, -, -, hrecords⟩ := newCommitTs_ok h
  obtain ⟨-, -, -, hsame⟩ := doneRead_spec hdone
  rw [hrecords] at hc
  rcases List.mem_append.mp hc with hc | hc
  · rw [← hsame]
    exact .inl (mem_of_mem_cleanup hc)
  · exact .inr (List.mem_singleton.mp hc)

/-- Where the clock moves forward, the commit timestamp is above the read timestamps so far. -/
theorem lt_newCommitTs (hf : tso.toClock.Advances readings)
    (h : tso.newCommitTs txn readings = .ok ts tso') : tso.currentReadTs < ts := by
  obtain ⟨-, -, -, hclock, hts, -⟩ := newCommitTs_ok h
  rw [hts]
  exact hf _ hclock

end Tso

end Omashu
