import Omashu.Lib.Versions
import Omashu.Lib.Scan
import Omashu.Store.Bytes

/-!
# The managed Badger store

Badger in managed mode is a multi-version store. A transaction opened at `readTs` reads its own
pending writes first, then the newest version of a key at or below `readTs`, and `commitAt` installs
the pending writes at the commit timestamp. A version is a value, which may expire, or a tombstone;
a deleted or expired version reads as absent. Iterators walk the live keys in bytewise order.

The operations below are those of `badger.go` inside a transaction. They read the wall clock (for
expiry) and poll a context (in scans), which are the two fields of `Env`.

What Badger refuses besides (a conflict with another transaction, a transaction that is too big, the
commit timestamp zero) depends on its options and on what it has committed since it was opened.
`Store/Managed.lean` adds it: a transaction that Badger does not refuse does what it does here.
-/

namespace Omashu

open Lib

/-- The errors of the store's operations, and the panic that an out-of-range decode causes. -/
inductive Err
  /-- `badger.ErrEmptyKey`. -/
  | emptyKey
  /-- `badger.ErrInvalidKey`: the key begins with Badger's own namespace. -/
  | invalidKey
  /-- The key is longer than Badger allows. -/
  | exceedsSize
  /-- `badger.ErrReadOnlyTxn`. -/
  | readOnlyTxn
  /-- `badger.ErrDiscardedTxn`. -/
  | discardedTxn
  /-- `badger.ErrConflict`. -/
  | conflict
  /-- `badger.ErrTxnTooBig`. -/
  | txnTooBig
  /-- A managed transaction is committed at the timestamp zero. -/
  | zeroCommitTs
  /-- An assertion of Badger fails, which terminates the process. -/
  | assertFailed
  /-- `ErrBatchTooBig`. -/
  | batchTooBig
  /-- `ErrUnknownOp`. -/
  | unknownOp
  /-- `ErrUnknownProtoMsg`. -/
  | unknownProtoMsg
  /-- `ErrNotLeader`. -/
  | notLeader
  /-- `ErrProposeTimeout`. -/
  | proposeTimeout
  /-- The node has been removed from the cluster. -/
  | nodeRemoved
  /-- A codec of the value rejected its input. -/
  | malformed
  /-- `ctx.Err()` of a context that is done. -/
  | ctxDone
  /-- An operation of the runtime is out of range and panics. -/
  | panicked
  deriving DecidableEq, Repr

/-- What one version of a key holds. -/
inductive Entry
  /-- A value, with the second from which on it is expired; zero means never. -/
  | value (bytes : Bytes) (expiresAt : ℕ)
  /-- A deletion. -/
  | tombstone
  deriving DecidableEq, Repr

/-- The contents of the database. -/
abbrev Store := List (Version Key Entry)

/-- What an operation takes from its surroundings: the wall clock in nanoseconds, and the number of
times its context is polled before it is found done (`none` when it never is). -/
structure Env where
  /-- The wall clock. -/
  now : ℤ
  /-- How many polls of the context succeed. -/
  doneAfter : Option ℕ
  deriving DecidableEq, Repr

/-- The Unix second, as the `uint64` that Badger keeps expiry times in. -/
def unixSecond (t : ℤ) : ℕ := (t / 10^9 % 2^64).toNat

/-- The value of an entry that is neither deleted nor expired. -/
def Entry.live (now : ℤ) : Entry → Option Bytes
  | .value b e => if e = 0 ∨ unixSecond now < e then some b else none
  | .tombstone => none

/-- A managed `badger.Txn`. -/
structure BTxn where
  /-- The database it was opened on. -/
  db : Store
  /-- The timestamp it reads at. -/
  readTs : ℕ
  /-- Its pending writes, the latest first. -/
  pendingWrites : List (Key × Entry)

namespace BTxn

/-- `NewTransactionAt`. -/
def newTransactionAt (db : Store) (readTs : ℕ) : BTxn := ⟨db, readTs, []⟩

/-- The entry of a key that the transaction sees: its own pending write, or the newest version at
its read timestamp. -/
def entry (txn : BTxn) (key : Key) : Option Entry :=
  match Versions.latest txn.pendingWrites key with
  | some e => some e
  | none => (Versions.newest txn.db key txn.readTs).map Version.val

/-- The live value of a key that the transaction sees. -/
def lookup (txn : BTxn) (now : ℤ) (key : Key) : Option Bytes := (txn.entry key).bind (·.live now)

/-- `Badger.GetWithTxn`: the value and whether it was found. -/
def getWithTxn (txn : BTxn) (env : Env) (key : Key) : Except Err (Option Bytes) :=
  if key = [] then .error .emptyKey else .ok (txn.lookup env.now key)

/-- Badger's own namespace, `!badger!`. -/
def badgerPrefix : Bytes := [33, 98, 97, 100, 103, 101, 114, 33]

/-- The checks that `txn.modify` makes of a key, in its order. -/
def checkKey (key : Key) : Except Err Unit :=
  if key = [] then .error .emptyKey
  else if badgerPrefix <+: key then .error .invalidKey
  else if 65000 < key.length then .error .exceedsSize
  else .ok ()

/-- `txn.modify`: one more pending write. -/
def modify (txn : BTxn) (key : Key) (e : Entry) : Except Err BTxn := do
  checkKey key
  return { txn with pendingWrites := (key, e) :: txn.pendingWrites }

/-- `Badger.SetWithTxn`: a value with an optional time to live in nanoseconds. -/
def setWithTxn (txn : BTxn) (env : Env) (key : Key) (value : Bytes) (ttl : Option ℤ) :
    Except Err BTxn :=
  match ttl with
  | none => txn.modify key (.value value 0)
  | some d => txn.modify key (.value value (unixSecond (env.now + d)))

/-- `Badger.DeleteWithTxn`. -/
def deleteWithTxn (txn : BTxn) (key : Key) : Except Err BTxn := txn.modify key .tombstone

/-- `Badger.DecrByWithTxn`: the counter less `delta`, clamped at zero; an absent key becomes zero. -/
def decrByWithTxn (txn : BTxn) (env : Env) (key : Key) (delta : UInt64) : Except Err BTxn := do
  match ← txn.getWithTxn env key with
  | some b =>
    match bytesToUint64 b with
    -- The value is shorter than a counter.
    | none => .error .panicked
    | some currentVal =>
      txn.setWithTxn env key (uint64ToBytes
        (if currentVal < delta.toNat then 0 else currentVal - delta.toNat)) none
  | none => txn.setWithTxn env key (uint64ToBytes 0) none

/-- `Badger.IncrByWithTxn`: the counter plus `delta` modulo `2^64`; an absent key counts as zero. -/
def incrByWithTxn (txn : BTxn) (env : Env) (key : Key) (delta : UInt64) : Except Err BTxn := do
  match ← txn.getWithTxn env key with
  | some b =>
    match bytesToUint64 b with
    | none => .error .panicked
    | some currentVal => txn.setWithTxn env key (uint64ToBytes (currentVal + delta.toNat)) none
  | none => txn.setWithTxn env key (uint64ToBytes delta.toNat) none

/-- The live keys that an iterator of the transaction walks, in bytewise order. -/
def liveKeys (txn : BTxn) (now : ℤ) : List Key :=
  ((txn.pendingWrites.map Prod.fst ++ txn.db.map Version.key).dedup.insertionSort (· ≤ ·)).filter
    fun k => (txn.lookup now k).isSome

/-- `Badger.GetKeysByPrefixWithTxn`. -/
def getKeysByPrefixWithTxn (txn : BTxn) (env : Env) (pre : Bytes) : Except Err (List Key) :=
  let keys := scan pre (txn.liveKeys env.now)
  match env.doneAfter with
  | none => .ok keys
  | some n => if n < keys.length then .error .ctxDone else .ok keys

/-- `Badger.GetByPrefixWithTxn`: the keys with their values. -/
def getByPrefixWithTxn (txn : BTxn) (env : Env) (pre : Bytes) : Except Err (List (Key × Bytes)) := do
  let keys ← txn.getKeysByPrefixWithTxn env pre
  return keys.filterMap fun k => (txn.lookup env.now k).map (k, ·)

/-- The keys that `DeleteByPrefixWithTxn` visits: those with the prefix, up to where the context is
found done. -/
def keysVisited (txn : BTxn) (env : Env) (pre : Bytes) : List Key :=
  let keys := scan pre (txn.liveKeys env.now)
  match env.doneAfter with
  | none => keys
  | some n => keys.take n

/-- The keys that are visited are found by the scan. -/
theorem mem_scan_of_mem_keysVisited {txn : BTxn} {env : Env} {pre : Bytes} {k : Key}
    (h : k ∈ txn.keysVisited env pre) : k ∈ scan pre (txn.liveKeys env.now) := by
  unfold keysVisited at h
  cases hdone : env.doneAfter with
  | none => simpa [hdone] using h
  | some n =>
    rw [hdone] at h
    exact List.mem_of_mem_take h

/-- The loop of `DeleteByPrefixWithTxn` over the keys it visits. -/
def deleteKeys (txn : BTxn) : List Key → Except Err BTxn
  | [] => .ok txn
  | k :: keys => do deleteKeys (← txn.deleteWithTxn k) keys

/-- `Badger.DeleteByPrefixWithTxn`: a context that is found done ends the scan without an error. -/
def deleteByPrefixWithTxn (txn : BTxn) (env : Env) (pre : Bytes) : Except Err BTxn :=
  txn.deleteKeys (txn.keysVisited env pre)

/-- `CommitAt`: the pending writes are installed at the commit timestamp. -/
def commitAt (txn : BTxn) (commitTs : ℕ) : Store :=
  Versions.install txn.db commitTs txn.pendingWrites

end BTxn

/-- `Badger.newTransactionAt`, where Badger does not refuse the commit: runs the operations at
`readTs` and commits them at `commitTs`; an error discards the pending writes. -/
def Store.newTransactionAt (db : Store) (readTs commitTs : ℕ)
    (performOps : BTxn → Except Err BTxn) : Except Err Store :=
  (performOps (BTxn.newTransactionAt db readTs)).map fun txn => txn.commitAt commitTs

/-- `Badger.getAt`: a point read at a timestamp. -/
def Store.getAt (db : Store) (env : Env) (key : Key) (readTs : ℕ) : Except Err (Option Bytes) :=
  (BTxn.newTransactionAt db readTs).getWithTxn env key

/-- `Badger.getByPrefixAt`: a prefix read at a timestamp. -/
def Store.getByPrefixAt (db : Store) (env : Env) (pre : Bytes) (readTs : ℕ) :
    Except Err (List (Key × Bytes)) :=
  (BTxn.newTransactionAt db readTs).getByPrefixWithTxn env pre

/-- `Badger.getKeysByPrefixAt`: a prefix read of the keys at a timestamp. -/
def Store.getKeysByPrefixAt (db : Store) (env : Env) (pre : Bytes) (readTs : ℕ) :
    Except Err (List Key) :=
  (BTxn.newTransactionAt db readTs).getKeysByPrefixWithTxn env pre

end Omashu
