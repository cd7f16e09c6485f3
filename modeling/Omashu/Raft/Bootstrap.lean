import Mathlib.Data.Finset.Insert
import Omashu.Lib.Wire
import Omashu.Raft.Crash
import Omashu.Raft.Transport

/-!
# The first start of a node

`Node.Start` begins with `newStorage` and `Initialize`, which create the write-ahead log if there is none, and then
chooses between `raft.StartNode` with the configured peers and `raft.RestartNode`, which takes the configuration from
the log. It asks `Storage.Existing`, that is, whether there was a log when the storage was made. `StartNode` puts one
configuration change for each peer into the log and commits them; they come to the disk with the first Ready, entry by
entry and the hard state last.

So there is a time in which the log exists and the configuration is not in it: a process that is killed then restarts
with `RestartNode`, without voters, and so does every one after it. Such a node does not campaign. It takes part again
if a leader sends it the log; a cluster of one has no leader to do that. `voters_after_crashes` says what a start
after any number of crashes finds, and that only the first process which has created the log matters.
-/

namespace Omashu

open Lib

variable {δ : Type}

/-- The encoding of configuration changes. -/
structure ConfCodec where
  /-- `cc.Marshal`. -/
  marshal : ConfChange → Bytes
  /-- `cc.Unmarshal`. -/
  unmarshal : Bytes → Option ConfChange
  /-- A change is decoded as it was. -/
  unmarshal_marshal : ∀ cc, unmarshal (marshal cc) = some cc

namespace ConfCodec

variable (C : ConfCodec)

/-- What an entry makes of the configuration when it is applied. -/
def applyTo (conf : ConfState) (e : RaftEntry) : ConfState :=
  match e.type, C.unmarshal e.data with
  | .confChange, some cc => conf.change cc
  | _, _ => conf

/-- The entries that add peers, from an index on. -/
def additions (index : ℕ) : List ℕ → List RaftEntry
  | [] => []
  | id :: peers => ⟨index + 1, 1, .confChange, C.marshal ⟨.addNode, id, []⟩⟩ :: additions (index + 1) peers

variable {C} {index : ℕ} {peers : List ℕ}

/-- There is one for each peer. -/
theorem length_additions : (C.additions index peers).length = peers.length := by
  induction peers generalizing index with
  | nil => rfl
  | cons id peers ih => exact congrArg Nat.succ ih

/-- The first ones are those of the first peers. -/
theorem take_additions (k : ℕ) : (C.additions index peers).take k = C.additions index (peers.take k) := by
  induction peers generalizing index k with
  | nil => rw [List.take_nil, additions, List.take_nil]
  | cons id peers ih =>
    cases k with
    | zero => rfl
    | succ k => exact congrArg (_ :: ·) (ih k)

/-- Their indices. -/
theorem index_additions {k : ℕ} {e : RaftEntry} (h : (C.additions index peers)[k]? = some e) :
    e.index = index + k + 1 := by
  induction peers generalizing index k with
  | nil => cases h
  | cons id peers ih =>
    cases k with
    | zero => rw [← Option.some.inj h]
    | succ k =>
      have hindex := ih h
      omega

/-- As a log they are numbered from the index on. -/
theorem numbered_additions : Suffix.Numbered RaftEntry.index ⟨index, C.additions index peers⟩ := by
  intro j e hj
  unfold Suffix.get? at hj
  dsimp only at hj
  split_ifs at hj with hlt
  have hindex := index_additions hj
  omega

/-- They add the peers to the voters. Node 0 stands for no node. -/
theorem voters_foldl_additions (hzero : 0 ∉ peers) (conf : ConfState) :
    ((C.additions index peers).foldl C.applyTo conf).voters.toFinset = conf.voters.toFinset ∪ peers.toFinset := by
  induction peers generalizing index conf with
  | nil => exact (Finset.union_empty _).symm
  | cons id peers ih =>
    obtain ⟨hid, hrest⟩ := not_or.mp (mt List.mem_cons.mpr hzero)
    have hfirst : C.applyTo conf ⟨index + 1, 1, .confChange, C.marshal ⟨.addNode, id, []⟩⟩ =
        ⟨ConfState.addNode conf.voters id, ConfState.removeNode conf.learners id⟩ := by
      unfold applyTo
      rw [C.unmarshal_marshal]
      exact if_neg (Ne.symm hid)
    show ((C.additions (index + 1) peers).foldl C.applyTo (C.applyTo conf _)).voters.toFinset = _
    rw [hfirst, ih hrest]
    ext i
    simp only [Finset.mem_union, List.mem_toFinset, ConfState.mem_addNode, List.mem_cons]
    tauto

/-- The configuration of `raft.StartNode`, which applies the changes that it puts into the log. -/
def startNode (C : ConfCodec) (peers : List ℕ) : ConfState := (C.additions 0 peers).foldl C.applyTo ⟨[], []⟩

/-- The first Ready of `raft.StartNode`: a configuration change for each peer, in the first term, all of them
committed. -/
def firstReady [Inhabited δ] (C : ConfCodec) (peers : List ℕ) : StorageReady δ where
  snapshot := MemoryStorage.emptySnapshot
  hardState := ⟨1, 0, peers.length⟩
  batch := ⟨C.additions 0 peers, numbered_additions.consecutive⟩

end ConfCodec

/-- `wal.Exist`. -/
def Wal.exist (w : Wal δ) : Bool := !w.records.isEmpty

/-- The voters that a node which restarts comes to by itself: those of its snapshot, with the committed entries
applied. -/
def DurableStorage.recoveredVoters (C : ConfCodec) (d : DurableStorage δ) : Finset ℕ :=
  ((d.memStorage.ents.items.filter fun e => e.index ≤ d.hardState.commit).foldl C.applyTo
    d.snapshot.confState).voters.toFinset

/-- The directory of a node between two processes. -/
structure NodeDir (δ : Type) where
  /-- The write-ahead log and the snapshot files. -/
  wal : Wal δ
  /-- The log ends with a record that is only partly written. -/
  torn : Bool

/-- When a process is killed, before it has saved more than its first Ready. -/
inductive Killed
  /-- Before the write-ahead log is created or opened. -/
  | beforeOpen
  /-- After so many operations on files of the first `SaveState`, and perhaps in the middle of the next one. -/
  | saving (k : ℕ) (partly : Bool)

namespace NodeDir

variable [Inhabited δ] (C : ConfCodec) (peers : List ℕ)

/-- Nothing is there. -/
def new : NodeDir δ := ⟨Wal.empty, false⟩

/-- `Node.Start`: the voters that the node has, from the peers it is given or from its log. It fails if the log cannot
be read. -/
def start (d : NodeDir δ) : Option (Finset ℕ) :=
  match DurableStorage.initializeStorage d.wal d.torn with
  | .error _ => none
  | .ok storage =>
    -- `Existing` is what `newWal` has found before `Initialize` creates the log.
    if d.wal.exist then some (storage.recoveredVoters C) else some (C.startNode peers).voters.toFinset

/-- A process that is started and killed. -/
def live (d : NodeDir δ) : Killed → NodeDir δ
  | .beforeOpen => d
  | .saving k partly =>
    match DurableStorage.initializeStorage d.wal d.torn with
    | .error _ => d
    | .ok storage =>
      -- A node that restarts has nothing to save before it has heard from others.
      if d.wal.exist then ⟨storage.wal, false⟩
      else
        let ops := (C.firstReady peers : StorageReady δ).ops
        ⟨storage.wal.cutOff ops k partly, tornRecord ops k partly⟩

/-- Processes that are started and killed one after the other. -/
def lives (d : NodeDir δ) (ks : List Killed) : NodeDir δ := ks.foldl (live C peers) d

end NodeDir

/-- The first process that has come to the log was killed after so many operations. -/
def firstOpened : List Killed → Option (ℕ × Bool)
  | [] => none
  | .beforeOpen :: ks => firstOpened ks
  | .saving k partly :: _ => some (k, partly)

/-! ## What is on the disk -/

namespace NodeDir

variable [Inhabited δ] {C : ConfCodec} {peers : List ℕ} {k : ℕ} {partly : Bool}

/-- The directory after the first process that has come to the log. -/
def opened (C : ConfCodec) (peers : List ℕ) (k : ℕ) (partly : Bool) : NodeDir δ :=
  ⟨⟨[], .snapshot 0 0 ⟨[], []⟩ :: (C.firstReady peers : StorageReady δ).records.take k⟩,
    tornRecord (C.firstReady peers : StorageReady δ).ops k partly⟩

/-- The first Ready is saved by its records only. -/
theorem ops_firstReady :
    (C.firstReady peers : StorageReady δ).ops = (C.firstReady peers : StorageReady δ).records.map FileOp.record := rfl

/-- The first process that comes to the log. -/
theorem live_new : (new : NodeDir δ).live C peers (.saving k partly) = opened C peers k partly := by
  show (⟨Wal.cutOff ⟨[], [.snapshot 0 0 ⟨[], []⟩]⟩ (C.firstReady peers : StorageReady δ).ops k partly, _⟩ :
    NodeDir δ) = _
  rw [Wal.cutOff_of_le (Nat.zero_le k), ops_firstReady, ← List.map_take, Wal.applyAll_records]
  rfl

/-- A start that succeeds has read a log without a part of a record, and leaves it as it is but for its creation. -/
theorem initializeStorage_wal {w : Wal δ} {torn : Bool} {d : DurableStorage δ}
    (h : DurableStorage.initializeStorage w torn = .ok d) : d.wal = w.openWAL ∧ torn = false := by
  obtain ⟨⟨snapshot, r⟩, hopen, h⟩ := bind_eq_ok h
  obtain ⟨m, -, h⟩ := bind_eq_ok h
  obtain ⟨m', -, h⟩ := bind_eq_ok h
  obtain ⟨r', -, htorn⟩ := bind_eq_ok (mapError_eq_ok hopen)
  split_ifs at htorn with hend
  exact ⟨(congrArg (fun d : DurableStorage δ => d.wal) (Except.ok.inj h)).symm, Bool.eq_false_iff.mpr hend⟩

/-- The processes after it leave the directory as it is. -/
theorem live_opened (l : Killed) :
    (opened C peers k partly : NodeDir δ).live C peers l = opened C peers k partly := by
  cases l with
  | beforeOpen => rfl
  | saving k' partly' =>
    unfold live
    dsimp only
    cases hinit : DurableStorage.initializeStorage (opened C peers k partly : NodeDir δ).wal
        (opened C peers k partly : NodeDir δ).torn with
    | error e => rfl
    | ok storage =>
      obtain ⟨hwal, htorn⟩ := initializeStorage_wal hinit
      show (⟨storage.wal, false⟩ : NodeDir δ) = ⟨_, (opened C peers k partly : NodeDir δ).torn⟩
      rw [hwal, htorn]
      rfl

/-- So do all of them. -/
theorem lives_opened (ks : List Killed) :
    (opened C peers k partly : NodeDir δ).lives C peers ks = opened C peers k partly := by
  unfold lives
  induction ks with
  | nil => rfl
  | cons l ks ih => rw [List.foldl_cons, live_opened, ih]

/-- The processes leave what the first one has left that came to the log. -/
theorem lives_new (ks : List Killed) :
    (new : NodeDir δ).lives C peers ks =
      match firstOpened ks with
      | none => new
      | some (k, partly) => opened C peers k partly := by
  induction ks with
  | nil => rfl
  | cons l ks ih =>
    cases l with
    | beforeOpen => exact ih
    | saving k partly =>
      show ((new : NodeDir δ).live C peers (.saving k partly)).lives C peers ks = opened C peers k partly
      rw [live_new, lives_opened]

/-! ## What a start finds there -/

/-- The records of the first Ready up to some operation: entries, and the hard state if all of them are there. -/
theorem take_records_firstReady :
    (C.firstReady peers : StorageReady δ).records.take k =
      (C.additions 0 (peers.take k)).map WalRecord.entry ++
        if peers.length < k then [.state ⟨1, 0, peers.length⟩] else [] := by
  show ((C.additions 0 peers).map WalRecord.entry ++ [WalRecord.state ⟨1, 0, peers.length⟩]).take k = _
  rw [List.take_append, ← List.map_take, ConfCodec.take_additions, List.length_map, ConfCodec.length_additions]
  congr 1
  split_ifs with hk
  · exact List.take_of_length_le (Nat.sub_pos_of_lt hk)
  · rw [Nat.sub_eq_zero_of_le (Nat.le_of_not_lt hk), List.take_zero]

/-- The entries on the disk. -/
theorem loggedEntries_opened :
    loggedEntries (opened C peers k partly : NodeDir δ).wal.records = C.additions 0 (peers.take k) := by
  show loggedEntries ((C.firstReady peers : StorageReady δ).records.take k) = _
  rw [StorageReady.loggedEntries_take]
  exact ConfCodec.take_additions k

/-- The hard state on the disk. -/
theorem lastState_opened :
    Wal.lastState (opened C peers k partly : NodeDir δ).wal.records =
      if peers.length < k then ⟨1, 0, peers.length⟩ else HardState.empty := by
  have hentries : ∀ (es : List RaftEntry) (st : HardState),
      (es.map WalRecord.entry).foldl WalRecord.stateAfter st = st := by
    intro es st
    induction es with
    | nil => rfl
    | cons e es ih => exact ih
  rw [Wal.lastState_eq]
  show ((C.firstReady peers : StorageReady δ).records.take k).foldl WalRecord.stateAfter HardState.empty = _
  rw [take_records_firstReady, List.foldl_append, hentries]
  split_ifs
  · rfl
  · rfl

/-- The only snapshot on the disk is the empty one of the creation. -/
theorem term_of_hasRecord_opened {i t : ℕ} (h : (opened C peers k partly : NodeDir δ).wal.HasRecord i t) : t = 0 := by
  obtain ⟨c, hc⟩ := h
  rcases List.mem_cons.mp hc with hc | hc
  · cases hc
    rfl
  · rw [take_records_firstReady] at hc
    rcases List.mem_append.mp hc with hc | hc
    · obtain ⟨e, -, he⟩ := List.mem_map.mp hc
      cases he
    · split_ifs at hc
      · cases List.mem_singleton.mp hc
      · cases hc

/-- A start after the first process which has come to the log finds the entries and the hard state that it has
written. -/
theorem exists_initializeStorage_opened (htorn : (opened C peers k partly : NodeDir δ).torn = false) :
    ∃ d, DurableStorage.initializeStorage (opened C peers k partly : NodeDir δ).wal
        (opened C peers k partly : NodeDir δ).torn = .ok d ∧
      d.snapshot = MemoryStorage.emptySnapshot ∧ d.memStorage.ents.items = C.additions 0 (peers.take k) ∧
      d.hardState = if peers.length < k then ⟨1, 0, peers.length⟩ else HardState.empty := by
  have hents : Suffix.putAll RaftEntry.index ⟨0, []⟩
      (loggedEntries (opened C peers k partly : NodeDir δ).wal.records) = some ⟨0, C.additions 0 (peers.take k)⟩ := by
    rw [loggedEntries_opened]
    exact ConfCodec.numbered_additions.putAll_items
  obtain ⟨d, hd, -, hstate, -, hsnap, -, hitems⟩ := DurableStorage.exists_initializeStorage
    (w := (opened C peers k partly : NodeDir δ).wal) ⟨_, List.mem_cons_self⟩ rfl
    (fun t ht => term_of_hasRecord_opened ht) hents
  rw [htorn]
  refine ⟨d, hd, hsnap.resolve_right nofun, ?_, ?_⟩
  · rw [hitems]
  · rw [hstate, lastState_opened]

/-- The voters of a log with the first of the additions: all peers if they are committed, and none otherwise. -/
theorem recoveredVoters_eq {d : DurableStorage δ} (hzero : 0 ∉ peers) (hsnap : d.snapshot = MemoryStorage.emptySnapshot)
    (hitems : d.memStorage.ents.items = C.additions 0 (peers.take k))
    (hstate : d.hardState = if peers.length < k then ⟨1, 0, peers.length⟩ else HardState.empty) :
    d.recoveredVoters C = if peers.length < k then peers.toFinset else ∅ := by
  have hindex : ∀ e ∈ C.additions 0 (peers.take k), 0 < e.index ∧ e.index ≤ peers.length := by
    intro e he
    obtain ⟨j, hj⟩ := List.mem_iff_getElem?.mp he
    have hnum : e.index = 0 + j + 1 := ConfCodec.index_additions hj
    have hlt : j < (C.additions 0 (peers.take k)).length := (List.getElem?_eq_some_iff.mp hj).1
    rw [ConfCodec.length_additions, List.length_take] at hlt
    omega
  unfold DurableStorage.recoveredVoters
  rw [hsnap, hitems, hstate]
  split_ifs with hk
  · have hall : (C.additions 0 (peers.take k)).filter (fun e => e.index ≤ peers.length) = C.additions 0 peers := by
      rw [List.filter_eq_self.mpr fun e he => decide_eq_true (hindex e he).2, List.take_of_length_le hk.le]
    rw [hall, ConfCodec.voters_foldl_additions hzero]
    exact Finset.empty_union _
  · have hnone : (C.additions 0 (peers.take k)).filter (fun e => e.index ≤ HardState.empty.commit) = [] :=
      List.filter_eq_nil_iff.mpr fun e he hle =>
        absurd (of_decide_eq_true hle) (Nat.not_le.mpr (hindex e he).1)
    rw [hnone]
    rfl

/-- What a start finds after the first process which has come to the log: all peers if that had written the hard state,
and otherwise none, or a log that it cannot read. -/
theorem start_opened (hzero : 0 ∉ peers) :
    (opened C peers k partly : NodeDir δ).start C peers =
      if (opened C peers k partly : NodeDir δ).torn then none
      else if peers.length < k then some peers.toFinset else some ∅ := by
  split_ifs with htorn hk
  · unfold start
    cases hinit : DurableStorage.initializeStorage (opened C peers k partly : NodeDir δ).wal
        (opened C peers k partly : NodeDir δ).torn with
    | error e => rfl
    | ok storage =>
      rw [(initializeStorage_wal hinit).2] at htorn
      cases htorn
  all_goals
    obtain ⟨d, hd, hsnap, hitems, hstate⟩ := exists_initializeStorage_opened (Bool.eq_false_iff.mpr htorn)
    have hvoters := recoveredVoters_eq hzero hsnap hitems hstate
    unfold start
    rw [hd]
    show some (d.recoveredVoters C) = _
    rw [hvoters]
  · rw [if_pos hk]
  · rw [if_neg hk]

/-- A part of a record is left only if not all of them have been written. -/
theorem torn_opened (hk : peers.length < k) : (opened C peers k partly : NodeDir δ).torn = false := by
  have hlen : (C.firstReady peers : StorageReady δ).ops.length ≤ k := by
    rw [ops_firstReady, List.length_map]
    show ((C.additions 0 peers).map WalRecord.entry ++ [WalRecord.state ⟨1, 0, peers.length⟩]).length ≤ k
    rw [List.length_append, List.length_map, ConfCodec.length_additions]
    exact hk
  show tornRecord _ k partly = false
  unfold tornRecord
  rw [List.getElem?_eq_none hlen]
  cases partly with
  | true | false => rfl

/-- After any number of processes that were killed before they had saved more than their first Ready, a start has the
configured peers as its voters exactly if the first process that had come to the write-ahead log had written all of its
first Ready. Otherwise it has no voters, or does not come up at all. The id zero is no node's. -/
theorem voters_after_crashes (hpeers : peers ≠ []) (hzero : 0 ∉ peers) (ks : List Killed) :
    (((new : NodeDir δ).lives C peers ks).start C peers = some peers.toFinset ↔
        ∀ l ∈ firstOpened ks, peers.length < l.1) ∧
      ((∃ l ∈ firstOpened ks, l.1 ≤ peers.length) →
        ((new : NodeDir δ).lives C peers ks).start C peers = none ∨
          ((new : NodeDir δ).lives C peers ks).start C peers = some ∅) := by
  have hne : peers.toFinset ≠ ∅ := fun h => hpeers (List.toFinset_eq_empty_iff peers |>.mp h)
  rw [lives_new]
  cases hfirst : firstOpened ks with
  | none =>
    -- No process has come to the log: the next one creates it, and has the peers it is given.
    have hvoters : (C.startNode peers).voters.toFinset = peers.toFinset :=
      (ConfCodec.voters_foldl_additions hzero _).trans (Finset.empty_union _)
    refine ⟨iff_of_true (congrArg some hvoters) fun l hl => absurd hl (Option.not_mem_none l), ?_⟩
    rintro ⟨l, hl, -⟩
    exact absurd hl (Option.not_mem_none l)
  | some l =>
    obtain ⟨k, partly⟩ := l
    have hstart : (opened C peers k partly : NodeDir δ).start C peers = _ := start_opened hzero
    simp only [Option.mem_some_iff, forall_eq', exists_eq_left']
    rw [hstart]
    by_cases hk : peers.length < k
    · rw [torn_opened hk, if_neg Bool.false_ne_true, if_pos hk]
      exact ⟨iff_of_true rfl hk, fun hle => absurd hk (Nat.not_lt.mpr hle)⟩
    · rw [if_neg hk]
      split_ifs with htorn
      · exact ⟨iff_of_false nofun hk, fun _ => .inl rfl⟩
      · exact ⟨iff_of_false (fun h => hne (Option.some.inj h).symm) hk, fun _ => .inr rfl⟩

/-- A varint that has room is read back. -/
theorem getVarint_putVarintIn {k n : ℕ} (h : n ≤ k) (bs : Bytes) :
    getVarint (Wire.putVarintIn k n ++ bs) = some (n, bs) := by
  induction k generalizing n with
  | zero =>
    obtain rfl := Nat.le_zero.mp h
    rfl
  | succ k ih =>
    unfold Wire.putVarintIn
    split_ifs with hn
    · have hbyte := Wire.toNat_ofNat_of_lt (show n < 256 by omega)
      show (if (UInt8.ofNat n).toNat < 128 then _ else _) = _
      rw [hbyte, if_pos hn]
      rfl
    · -- The low seven bits are in the first byte, and the others are a smaller number.
      have hbyte := Wire.toNat_ofNat_of_lt (show n % 128 + 128 < 256 by omega)
      have hsum : n % 128 + 128 - 128 + 128 * (n / 128) = n := by omega
      show (if (UInt8.ofNat (n % 128 + 128)).toNat < 128 then _ else
        (getVarint (Wire.putVarintIn k (n / 128) ++ bs)).map _) = _
      rw [hbyte, if_neg (by omega), ih (by omega)]
      exact congrArg (fun m => some (m, bs)) hsum

/-- `cc.Marshal` of a change without an id of its own. -/
def marshalConfChange (cc : ConfChange) : Bytes :=
  8 :: 0 :: 16 :: cc.type.number :: 24 :: (Wire.putVarintIn cc.nodeID cc.nodeID ++
    if cc.context = [] then [] else 34 :: (Wire.putVarintIn cc.context.length cc.context.length ++ cc.context))

/-- The encoding of `raftpb`. -/
def raftpbCodec : ConfCodec where
  marshal := marshalConfChange
  unmarshal := ConfChange.unmarshal
  unmarshal_marshal cc := by
    obtain ⟨type, nodeID, context⟩ := cc
    have hkind : ConfChangeType.ofNumber type.number = some type := by cases type <;> rfl
    have hcontext : ConfChange.unmarshalContext (if context = [] then [] else
        34 :: (Wire.putVarintIn context.length context.length ++ context)) = some context := by
      split_ifs with hnil
      · rw [hnil]
        rfl
      · show (getVarint (Wire.putVarintIn context.length context.length ++ context)).bind _ = _
        rw [getVarint_putVarintIn le_rfl]
        exact if_pos rfl
    show (ConfChangeType.ofNumber type.number).bind _ = _
    rw [hkind]
    show (getVarint (Wire.putVarintIn nodeID nodeID ++ _)).bind _ = _
    rw [getVarint_putVarintIn le_rfl]
    show (ConfChange.unmarshalContext _).bind _ = _
    rw [hcontext]
    rfl

/-- A cluster of one whose first process was killed between the entry and the hard state has no voters for good. -/
theorem voters_after_crashes_single :
    ((new : NodeDir Unit).lives raftpbCodec [1] [.beforeOpen, .saving 1 false, .saving 5 false]).start raftpbCodec [1] ≠
        some {1} ∧
      ((new : NodeDir Unit).lives raftpbCodec [1] [.beforeOpen, .saving 2 false, .saving 0 true]).start
        raftpbCodec [1] =
        some {1} := by
  constructor
  · intro h
    have hall := (voters_after_crashes (by decide) (by decide) [.beforeOpen, .saving 1 false, .saving 5 false]).1.mp h
    exact absurd (hall (1, false) rfl) (by decide)
  · refine (voters_after_crashes (by decide) (by decide) [.beforeOpen, .saving 2 false, .saving 0 true]).1.mpr ?_
    intro l hl
    obtain rfl := Option.some.inj hl
    decide

end NodeDir

end Omashu
