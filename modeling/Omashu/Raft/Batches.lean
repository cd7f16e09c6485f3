import Omashu.Lib.Lift
import Omashu.Raft.Node
import Mathlib.Data.List.Range
import Mathlib.Data.List.Pairwise

/-!
# Every committed entry is applied once

`processReady` hands the committed entries of a Ready to the store. `getEntriesToApply` cuts off what
is already applied with unsigned arithmetic on the first index and the applied index, `applyNormalEntry`
skips once more what is not above the applied index, a snapshot moves the applied index forward, and
otherwise the applied index changes only after the last entry of the batch. This module is about whole
runs of `processReady` inside one process, for any start of the applied index and any batches that Raft
may deliver, with the calls it makes succeeding or failing as they like.

The indices are `uint64`s, and the difference in `getEntriesToApply` is taken modulo `2^64`. It does not
wrap where the entries have an index of at least one, as the entries of a Raft log do
(`ReadyLoop.getEntriesToApply_of_ok`). So the entries to apply are those above the applied index
(`getEntriesToApply_eq_filter`), and a batch appends to what the store was handed exactly its commands
above the applied index (`processReady_ok`). The results for a run are in `ReadyLoop.AppliedOnce`.
-/

namespace Omashu

open Lib

/-! ## Consecutive entries -/

section Consecutive

variable {log : CommittedLog} {a j : ℕ} {e f : RaftEntry} {es es' : List RaftEntry}

/-- Consecutive entries are the entries of the log from the first index on. -/
theorem Consecutive.eq_map (h : Consecutive log (f :: es)) :
    f :: es = (List.range' f.index (es.length + 1)).map log.entry := h

/-- The indices of consecutive entries are consecutive. -/
theorem Consecutive.map_index (h : Consecutive log (f :: es)) :
    (f :: es).map RaftEntry.index = List.range' f.index (f :: es).length := by
  rw [h.eq_map, List.map_map, List.length_map, List.length_range']
  have hid : RaftEntry.index ∘ log.entry = id := funext log.index_entry
  rw [hid, List.map_id]

/-- The indices of consecutive entries increase. -/
theorem Consecutive.pairwise (h : Consecutive log es) : es.Pairwise fun e e' => e.index < e'.index := by
  rw [h, List.pairwise_map]
  simp only [log.index_entry]
  exact List.pairwise_lt_range'

/-- An entry of the batch is the entry of the log at its index. -/
theorem Consecutive.entry_index (h : Consecutive log es) (he : e ∈ es) : log.entry e.index = e := by
  rw [h] at he
  obtain ⟨k, -, rfl⟩ := List.mem_map.mp he
  rw [log.index_entry]

/-- The index that ends a batch, and zero for an empty one. -/
def lastIndex (es : List RaftEntry) : ℕ := (es.getLast?.map RaftEntry.index).getD 0

/-- The last index of consecutive entries. -/
theorem Consecutive.lastIndex_eq (h : Consecutive log (f :: es)) :
    lastIndex (f :: es) = f.index + es.length := by
  unfold lastIndex
  rw [h.eq_map, List.getLast?_map, List.getLast?_range']
  simp [log.index_entry]

/-- The indices of consecutive entries are those from the first one to the last one. -/
theorem Consecutive.entry_mem_iff (h : Consecutive log (f :: es)) :
    log.entry j ∈ f :: es ↔ f.index ≤ j ∧ j ≤ lastIndex (f :: es) := by
  have hmem : log.entry j ∈ f :: es ↔ j ∈ List.range' f.index (es.length + 1) := by
    rw [h.eq_map, List.mem_map]
    constructor
    · rintro ⟨k, hk, heq⟩
      have hkj : k = j := by rw [← log.index_entry k, heq, log.index_entry]
      rwa [← hkj]
    · exact fun hj => ⟨j, hj, rfl⟩
  rw [hmem, List.mem_range'_1, h.lastIndex_eq]
  omega

/-- No index of a batch is above its last one. -/
theorem Consecutive.index_le_lastIndex (h : Consecutive log es) (he : e ∈ es) :
    e.index ≤ lastIndex es := by
  cases es with
  | nil => exact absurd he List.not_mem_nil
  | cons f es => exact (h.entry_mem_iff.mp (by rwa [h.entry_index he])).2

/-- In a list whose indices are consecutive, what lies above a bound that is not below its start is what is
left after the others are dropped. -/
theorem filter_lt_index_eq_drop {b : ℕ} (hes : es.map RaftEntry.index = List.range' b es.length)
    (hb : b ≤ a + 1) : es.filter (fun e => a < e.index) = es.drop (a + 1 - b) := by
  induction es generalizing b with
  | nil => simp
  | cons e es ih =>
    rw [List.map_cons, List.length_cons, List.range'_succ, List.cons.injEq] at hes
    obtain ⟨rfl, hes⟩ := hes
    rcases hb.lt_or_eq with hlt | heq
    · have hle : a + 1 - e.index = (a + 1 - (e.index + 1)) + 1 := by omega
      have hea : ¬a < e.index := by omega
      rw [List.filter_cons_of_neg (by simpa using hea), ih hes hlt, hle, List.drop_succ_cons]
    · -- The first entry is the next one to apply, and so all are to be applied.
      have hrest : ∀ f ∈ es, a < f.index := by
        intro f hf
        have hmem : f.index ∈ List.range' (e.index + 1) es.length := hes ▸ List.mem_map_of_mem hf
        have hbounds := List.mem_range'_1.mp hmem
        omega
      have hzero : a + 1 - e.index = 0 := by omega
      rw [hzero, List.drop_zero, List.filter_eq_self]
      intro f hf
      rcases List.mem_cons.mp hf with rfl | hf
      · exact decide_eq_true (by omega)
      · exact decide_eq_true (hrest f hf)

/-- The entries to apply are those above the applied index. -/
theorem getEntriesToApply_eq_filter (hes : Consecutive log es) (h : getEntriesToApply a es = some es') :
    es' = es.filter fun e => a < e.index := by
  unfold getEntriesToApply at h
  split at h
  · cases h
    rfl
  next f fs =>
    have hfilter (hgap : ¬a + 1 < f.index) :
        (f :: fs).filter (fun e => a < e.index) = (f :: fs).drop (a + 1 - f.index) :=
      filter_lt_index_eq_drop hes.map_index (not_lt.mp hgap)
    split_ifs at h with hgap hlt
    · rw [hfilter hgap, ← Option.some.inj h]
    · rw [hfilter hgap, ← Option.some.inj h, List.drop_eq_nil_of_le (not_lt.mp hlt)]

/-- The entries to apply end where the batch ends. -/
theorem lastIndex_of_getEntriesToApply (h : getEntriesToApply a es = some es') (hne : es' ≠ []) :
    lastIndex es' = lastIndex es := by
  unfold getEntriesToApply at h
  split at h
  · cases h
    rfl
  next f fs =>
    split_ifs at h with hgap hlt
    · rw [← Option.some.inj h, lastIndex, lastIndex, List.getLast?_drop, if_neg (not_le.mpr hlt)]
    · exact absurd (Option.some.inj h).symm hne

/-- There is no gap before the entries to apply. -/
theorem index_le_of_getEntriesToApply (h : getEntriesToApply a (f :: es) = some es') :
    f.index ≤ a + 1 := by
  rw [getEntriesToApply] at h
  split_ifs at h with hgap
  all_goals exact not_lt.mp hgap

/-- Where nothing is to be applied, the batch ends at or below the applied index. -/
theorem lastIndex_le_of_getEntriesToApply (hes : Consecutive log es)
    (h : getEntriesToApply a es = some []) : lastIndex es ≤ a := by
  cases hlast : es.getLast? with
  | none => simp [lastIndex, hlast]
  | some e =>
    have hnil := getEntriesToApply_eq_filter hes h
    have hmem : e ∈ es := List.mem_of_getLast? hlast
    have hle := List.filter_eq_nil_iff.mp hnil.symm e hmem
    simpa [lastIndex, hlast] using hle

end Consecutive

/-! ## `processReady` -/

/-- How the calls that `processReady` makes for a Ready come out. -/
structure Responses where
  /-- `SaveState` succeeds. -/
  saveState : Bool
  /-- `FSM.RestoreSnapshot` succeeds. -/
  restoreSnapshot : Bool
  /-- `FSM.Apply` succeeds for the entry. -/
  fsmApply : RaftEntry → Bool
  /-- The change of the configuration is decoded, and whether it removes this node. -/
  applyConfChange : RaftEntry → Option Bool

/-- Why `processReady` does not return nil. -/
inductive ReadyFailure
  /-- `SaveState` fails. -/
  | saveState
  /-- "snapshot index %d less then applied index %d". -/
  | snapshotIndex (index appliedIndex : ℕ)
  /-- "failed to restore FSM snapshot". -/
  | restoreSnapshot
  /-- `FSM.Apply` fails at the index. -/
  | fsmApply (index : ℕ)
  /-- The change of the configuration at the index is not decoded. -/
  | confChange (index : ℕ)
  | unknownEntryType (type : EntryType)
  /-- The panic: "First index of committed entries (%d) is greater than applied index + 1 (%d)". -/
  | panic (firstIndex next : ℕ)
  deriving DecidableEq

/-- What `processReady` works on, with a record of what the store was handed. -/
structure ReadyLoop where
  appliedIndex : ℕ
  selfRemoved : Bool
  /-- The entries that `FSM.Apply` was called with, the oldest first. -/
  handed : List RaftEntry
  deriving DecidableEq

/-- The slice expression `es[n:]`, `none` for the panic where `n` is out of range. -/
def sliceFrom (es : List RaftEntry) (n : ℕ) : Option (List RaftEntry) :=
  if n ≤ es.length then some (es.drop n) else none

namespace ReadyLoop

/-- The loop at its start. -/
def startAt (appliedIndex : ℕ) : ReadyLoop := ⟨appliedIndex, false, []⟩

/-- The offset at which `getEntriesToApply` cuts: `appliedIndex - firstIndex + 1`, on `uint64`s. -/
def cutOffset (s : ReadyLoop) (first : RaftEntry) : ℕ :=
  (s.appliedIndex + (2 ^ 64 - first.index) + 1) % 2 ^ 64

/-- `getEntriesToApply` on `uint64`s. -/
def getEntriesToApply (s : ReadyLoop) : List RaftEntry → Except ReadyFailure (List RaftEntry)
  | [] => .ok []
  | e :: es =>
    if (s.appliedIndex + 1) % 2 ^ 64 < e.index then
      .error (.panic e.index ((s.appliedIndex + 1) % 2 ^ 64))
    else if s.cutOffset e < (e :: es).length then .ok ((e :: es).drop (s.cutOffset e))
    else .ok []

/-- `applySnapshotToFSM`. -/
def applySnapshotToFSM (r : Responses) (s : ReadyLoop) (snap : Snapshot (Finset ℕ)) :
    Except ReadyFailure ReadyLoop :=
  if snap.isEmptySnap then .ok s
  else if snap.index ≤ s.appliedIndex then .error (.snapshotIndex snap.index s.appliedIndex)
  else if r.restoreSnapshot then .ok { s with appliedIndex := snap.index }
  else .error .restoreSnapshot

/-- `applyNormalEntry`. -/
def applyNormalEntry (r : Responses) (s : ReadyLoop) (e : RaftEntry) : Except ReadyFailure ReadyLoop :=
  if e.index ≤ s.appliedIndex then .ok s
  else if r.fsmApply e then .ok { s with handed := s.handed ++ [e] }
  else .error (.fsmApply e.index)

/-- The loop of `applyEntries`, with the value of `selfRemove` so far. -/
def applyEach (r : Responses) (s : ReadyLoop) (selfRemove : Bool) :
    List RaftEntry → Except ReadyFailure (ReadyLoop × Bool)
  | [] => .ok (s, selfRemove)
  | e :: es =>
    match e.type with
    | .normal =>
      if e.data = [] then s.applyEach r selfRemove es
      else do
        let s ← s.applyNormalEntry r e
        s.applyEach r selfRemove es
    | .confChange =>
      match r.applyConfChange e with
      | none => .error (.confChange e.index)
      | some removed => s.applyEach r removed es
    | .confChangeV2 => .error (.unknownEntryType e.type)

/-- `applyEntries`: the applied index is that of the last entry. -/
def applyEntries (r : Responses) (s : ReadyLoop) (es : List RaftEntry) :
    Except ReadyFailure (ReadyLoop × Bool) := do
  let (s, selfRemove) ← s.applyEach r false es
  .ok ({ s with appliedIndex := lastIndex es }, selfRemove)

/-- The snapshot of a Ready in `processReady`. -/
def installSnapshot (r : Responses) (s : ReadyLoop) (rd : Ready) : Except ReadyFailure ReadyLoop :=
  if rd.snapshot.isEmptySnap then .ok s else s.applySnapshotToFSM r rd.snapshot

/-- `processReady`, as far as it is about the applied index. The Ready loop stops after a change that
removes the node, but `processReady` returns nil for it. -/
def processReady (r : Responses) (s : ReadyLoop) (rd : Ready) : Except ReadyFailure ReadyLoop :=
  if r.saveState then do
    let s ← s.installSnapshot r rd
    let es ← s.getEntriesToApply rd.committedEntries
    if es = [] then .ok s
    else do
      let (s, selfRemove) ← s.applyEntries r es
      .ok { s with selfRemoved := s.selfRemoved || selfRemove }
  else .error .saveState

end ReadyLoop

/-! ## One batch -/

/-- What Raft guarantees of the entries and of the snapshot of a Ready: the entries are consecutive
entries of the committed log, whose first index is one, and the indices are `uint64`s. -/
structure Ready.FromLog (log : CommittedLog) (rd : Ready) : Prop where
  /-- The entries are from the committed log. -/
  consecutive : Consecutive log rd.committedEntries
  /-- The first index of a log is one. -/
  index_pos : ∀ e ∈ rd.committedEntries, 0 < e.index
  /-- An index is a `uint64`. -/
  index_lt : ∀ e ∈ rd.committedEntries, e.index < 2 ^ 64
  /-- The index of the snapshot is a `uint64`. -/
  snapshot_lt : rd.snapshot.index < 2 ^ 64

instance (log : CommittedLog) (rd : Ready) : Decidable (rd.FromLog log) :=
  decidable_of_iff
    (Consecutive log rd.committedEntries ∧ (∀ e ∈ rd.committedEntries, 0 < e.index) ∧
      (∀ e ∈ rd.committedEntries, e.index < 2 ^ 64) ∧ rd.snapshot.index < 2 ^ 64)
    ⟨fun ⟨h₁, h₂, h₃, h₄⟩ => ⟨h₁, h₂, h₃, h₄⟩, fun ⟨h₁, h₂, h₃, h₄⟩ => ⟨h₁, h₂, h₃, h₄⟩⟩

/-- The applied index after the snapshot of a Ready is installed. -/
def Ready.afterSnapshot (rd : Ready) (appliedIndex : ℕ) : ℕ :=
  if rd.snapshot.isEmptySnap then appliedIndex else rd.snapshot.index

/-- The commands of a Ready above an index. -/
def Ready.commandsAbove (rd : Ready) (i : ℕ) : List RaftEntry :=
  rd.committedEntries.filter fun e => e.HasEffect ∧ i < e.index

namespace ReadyLoop

variable {log : CommittedLog} {r : Responses} {s t : ReadyLoop} {rd : Ready} {es es' : List RaftEntry}

/-- The unsigned arithmetic of `getEntriesToApply` is exact where it does not panic. The sum in the
comparison wraps only for the largest applied index, and then it is zero and below every first index. -/
theorem getEntriesToApply_of_ok (ha : s.appliedIndex < 2 ^ 64) (hpos : ∀ e ∈ es, 0 < e.index)
    (hlt : ∀ e ∈ es, e.index < 2 ^ 64) (h : s.getEntriesToApply es = .ok es') :
    Omashu.getEntriesToApply s.appliedIndex es = some es' := by
  cases es with
  | nil => exact congrArg some (Except.ok.inj h)
  | cons f fs =>
    have hf := hpos f List.mem_cons_self
    have hf' := hlt f List.mem_cons_self
    rw [ReadyLoop.getEntriesToApply] at h
    rw [Omashu.getEntriesToApply]
    split at h
    · cases h
    next hgap =>
      have hsum : (s.appliedIndex + 1) % 2 ^ 64 = s.appliedIndex + 1 := by omega
      have hoffset : s.cutOffset f = s.appliedIndex + 1 - f.index := by
        unfold cutOffset
        omega
      rw [hsum] at hgap
      rw [hoffset] at h
      rw [if_neg hgap]
      split_ifs at h ⊢
      all_goals exact congrArg some (Except.ok.inj h)

/-- A gap before the batch panics. -/
theorem getEntriesToApply_gap {f : RaftEntry} (hlt : f.index < 2 ^ 64) (hgap : s.appliedIndex + 1 < f.index) :
    s.getEntriesToApply (f :: es) = .error (.panic f.index (s.appliedIndex + 1)) := by
  have hsum : (s.appliedIndex + 1) % 2 ^ 64 = s.appliedIndex + 1 := by omega
  rw [ReadyLoop.getEntriesToApply, hsum, if_pos hgap]

/-- The offset wraps on the way, from `appliedIndex - firstIndex` back to zero where the first entry is the
next one to apply, but it comes out exact. -/
theorem cutOffset_eq {f : RaftEntry} (ha : s.appliedIndex < 2 ^ 64 - 1) (hf : f.index ≤ s.appliedIndex + 1) :
    s.cutOffset f = s.appliedIndex + 1 - f.index := by
  unfold cutOffset
  omega

/-- `getEntriesToApply` panics exactly on a gap before the batch, and otherwise returns the entries above the
applied index in their order. Where the slice expression is evaluated, it is in range and these are its
entries. The first index may be zero, and the entries need not be of a committed log. -/
theorem getEntriesToApply_cuts {f : RaftEntry} (ha : s.appliedIndex < 2 ^ 64 - 1)
    (hindex : (f :: es).map RaftEntry.index = List.range' f.index (f :: es).length)
    (hlt : ∀ e ∈ f :: es, e.index < 2 ^ 64) :
    ((∃ failure, s.getEntriesToApply (f :: es) = .error failure) ↔ s.appliedIndex + 1 < f.index) ∧
      (f.index ≤ s.appliedIndex + 1 →
        s.getEntriesToApply (f :: es) = .ok ((f :: es).filter fun e => s.appliedIndex < e.index) ∧
          (s.cutOffset f < (f :: es).length →
            sliceFrom (f :: es) (s.cutOffset f) =
              some ((f :: es).filter fun e => s.appliedIndex < e.index))) := by
  have hcut (hf : f.index ≤ s.appliedIndex + 1) :
      s.getEntriesToApply (f :: es) = .ok ((f :: es).filter fun e => s.appliedIndex < e.index) := by
    have hsum : (s.appliedIndex + 1) % 2 ^ 64 = s.appliedIndex + 1 := by omega
    rw [ReadyLoop.getEntriesToApply, hsum, if_neg (not_lt.mpr hf), filter_lt_index_eq_drop hindex hf,
      cutOffset_eq ha hf]
    split_ifs with hlen
    · rfl
    · rw [List.drop_eq_nil_of_le (not_lt.mp hlen)]
  constructor
  · constructor
    · rintro ⟨failure, herror⟩
      by_contra hgap
      rw [hcut (not_lt.mp hgap)] at herror
      cases herror
    · intro hgap
      exact ⟨_, getEntriesToApply_gap (hlt f List.mem_cons_self) hgap⟩
  · intro hf
    refine ⟨hcut hf, fun hlen => ?_⟩
    rw [sliceFrom, if_pos hlen.le, filter_lt_index_eq_drop hindex hf, cutOffset_eq ha hf]

/-- Entries four to six at the applied index five. -/
theorem getEntriesToApply_cuts_five :
    (startAt 5).getEntriesToApply [⟨4, 1, .normal, [1]⟩, ⟨5, 1, .normal, [2]⟩, ⟨6, 1, .normal, [3]⟩] =
      .ok [⟨6, 1, .normal, [3]⟩] :=
  ((getEntriesToApply_cuts (by decide) rfl (by decide)).2 (by decide)).1

/-- The loop of `applyEntries` hands over the commands above the applied index, which it leaves as it
is. -/
theorem applyEach_ok {b b' : Bool} (h : s.applyEach r b es = .ok (t, b')) :
    t.appliedIndex = s.appliedIndex ∧
      t.handed = s.handed ++ es.filter fun e => e.HasEffect ∧ s.appliedIndex < e.index := by
  induction es generalizing s b with
  | nil =>
    cases h
    simp
  | cons e es ih =>
    unfold applyEach at h
    split at h
    next hnormal =>
      split_ifs at h with hdata
      · -- An empty entry has no effect.
        have hno : ¬e.HasEffect := fun he => he.2 hdata
        rw [List.filter_cons_of_neg (by simp [hno])]
        exact ih h
      · have heff : e.HasEffect := ⟨hnormal, hdata⟩
        unfold applyNormalEntry at h
        split_ifs at h with hle happly
        · rw [List.filter_cons_of_neg (by simp [hle])]
          exact ih h
        · obtain ⟨hindex, hhanded⟩ := ih (s := { s with handed := s.handed ++ [e] }) h
          rw [List.filter_cons_of_pos (by simp [heff, not_le.mp hle]), hhanded]
          exact ⟨hindex, by simp⟩
        · cases h
    next hconf =>
      have hno : ¬e.HasEffect := fun he => by simp [he.1] at hconf
      rw [List.filter_cons_of_neg (by simp [hno])]
      split at h
      · cases h
      · exact ih h
    · cases h

/-- The applied index after the snapshot, and what `applySnapshotToFSM` checks. -/
theorem installSnapshot_ok (h : s.installSnapshot r rd = .ok t) :
    t.appliedIndex = rd.afterSnapshot s.appliedIndex ∧ t.handed = s.handed ∧
      (rd.snapshot.isEmptySnap = false → s.appliedIndex < rd.snapshot.index) := by
  unfold Ready.afterSnapshot
  unfold installSnapshot applySnapshotToFSM at h
  split_ifs at h ⊢ with hempty hle hrestore
  · cases h
    simp [hempty]
  · cases h
    exact ⟨rfl, rfl, fun _ => not_le.mp hle⟩

/-- What a batch does to the loop. -/
structure BatchDone (s : ReadyLoop) (rd : Ready) (t : ReadyLoop) : Prop where
  /-- A snapshot is above what was applied. -/
  snapshot_lt : rd.snapshot.isEmptySnap = false → s.appliedIndex < rd.snapshot.index
  /-- The batch continues what is applied. -/
  no_gap : ∀ f ∈ rd.committedEntries.head?, f.index ≤ rd.afterSnapshot s.appliedIndex + 1
  /-- The store is handed the commands above the applied index. -/
  handed : t.handed = s.handed ++ rd.commandsAbove (rd.afterSnapshot s.appliedIndex)
  /-- The applied index is the larger one of that of the snapshot and that of the last entry. -/
  appliedIndex : t.appliedIndex = max (rd.afterSnapshot s.appliedIndex) (lastIndex rd.committedEntries)

/-- `processReady` without an error. -/
theorem processReady_ok (hrd : rd.FromLog log) (ha : s.appliedIndex < 2 ^ 64)
    (h : s.processReady r rd = .ok t) : BatchDone s rd t := by
  unfold processReady at h
  split at h
  case isFalse => cases h
  obtain ⟨u, hu, h⟩ := bind_eq_ok h
  obtain ⟨es, hes, h⟩ := bind_eq_ok h
  obtain ⟨hindex, hhanded, hsnap⟩ := installSnapshot_ok hu
  have hu64 : u.appliedIndex < 2 ^ 64 := by
    rw [hindex, Ready.afterSnapshot]
    split
    · exact ha
    · exact hrd.snapshot_lt
  have hes := getEntriesToApply_of_ok hu64 hrd.index_pos hrd.index_lt hes
  have hfilter := getEntriesToApply_eq_filter hrd.consecutive hes
  -- The skip in `applyNormalEntry` does not take place: all of these are above the applied index.
  have hcommands : (es.filter fun e => e.HasEffect ∧ u.appliedIndex < e.index) =
      rd.commandsAbove (rd.afterSnapshot s.appliedIndex) := by
    rw [hfilter, List.filter_filter, Ready.commandsAbove, ← hindex]
    apply List.filter_congr
    intro e _
    simp only [Bool.decide_and, Bool.and_assoc, Bool.and_self]
  have hgap : ∀ f ∈ rd.committedEntries.head?, f.index ≤ rd.afterSnapshot s.appliedIndex + 1 := by
    intro f hf
    obtain ⟨fs, hfs⟩ := List.head?_eq_some_iff.mp hf
    rw [hfs] at hes
    rw [← hindex]
    exact index_le_of_getEntriesToApply hes
  split_ifs at h with hnil
  · cases h
    rw [hnil] at hes hcommands
    refine ⟨hsnap, hgap, ?_, ?_⟩
    · rw [hhanded, ← hcommands, List.filter_nil, List.append_nil]
    · have hlast := lastIndex_le_of_getEntriesToApply hrd.consecutive hes
      rw [← hindex, max_eq_left hlast]
  · obtain ⟨⟨v, b⟩, hv, h⟩ := bind_eq_ok h
    obtain ⟨⟨w, b'⟩, hw, hv⟩ := bind_eq_ok hv
    obtain ⟨-, hhanded'⟩ := applyEach_ok hw
    cases hv
    cases h
    refine ⟨hsnap, hgap, ?_, ?_⟩
    · rw [hhanded', hhanded, hcommands]
    · -- The first of the entries to apply is above the applied index.
      obtain ⟨e, he⟩ := List.exists_mem_of_ne_nil es hnil
      have hlt : u.appliedIndex < e.index := by
        rw [hfilter] at he
        simpa using (List.mem_filter.mp he).2
      have hle := hrd.consecutive.index_le_lastIndex (mem_of_mem_getEntriesToApply hes he)
      rw [← hindex, max_eq_right (by omega), lastIndex_of_getEntriesToApply hes hnil]

/-- A batch after a gap panics, once its state is saved and its snapshot is installed. -/
theorem processReady_gap {f : RaftEntry} (hrd : rd.FromLog log) (hf : f ∈ rd.committedEntries.head?)
    (hsave : r.saveState = true)
    (hsnap : rd.snapshot.isEmptySnap ∨ s.appliedIndex < rd.snapshot.index ∧ r.restoreSnapshot = true)
    (hgap : rd.afterSnapshot s.appliedIndex + 1 < f.index) :
    s.processReady r rd = .error (.panic f.index (rd.afterSnapshot s.appliedIndex + 1)) := by
  obtain ⟨fs, hfs⟩ := List.head?_eq_some_iff.mp hf
  have hlt := hrd.index_lt f (by rw [hfs]; exact List.mem_cons_self)
  -- The state after the snapshot.
  obtain ⟨u, hu, hindex⟩ : ∃ u, s.installSnapshot r rd = .ok u ∧
      u.appliedIndex = rd.afterSnapshot s.appliedIndex := by
    unfold installSnapshot applySnapshotToFSM Ready.afterSnapshot
    rcases hsnap with hempty | ⟨habove, hrestore⟩
    · simp [hempty]
    · cases hempty : rd.snapshot.isEmptySnap with
      | true => simp
      | false => simp [habove.not_ge, hrestore]
  rw [← hindex] at hgap ⊢
  unfold processReady
  rw [if_pos hsave, hu, hfs]
  change ((u.getEntriesToApply (f :: fs)).bind _) = _
  rw [getEntriesToApply_gap hlt hgap]
  rfl

/-! ## A run -/

/-- A Ready with the outcome of the calls for it, as a step of the loop that returns nil. -/
def step (s : ReadyLoop) (b : Ready × Responses) : Option ReadyLoop := (s.processReady b.2 b.1).toOption

/-- A step is a call of `processReady` without an error. -/
theorem step_eq_some_iff {b : Ready × Responses} :
    s.step b = some t ↔ s.processReady b.2 b.1 = .ok t := by
  unfold step
  cases s.processReady b.2 b.1 with
  | error | ok => simp [Except.toOption]

/-- What holds between the batches of a run from the applied index `start`. -/
structure RunInv (log : CommittedLog) (start : ℕ) (batches : List (Ready × Responses)) (s : ReadyLoop) :
    Prop where
  /-- The applied index is a `uint64`. -/
  lt : s.appliedIndex < 2 ^ 64
  /-- The store is handed the entries in order. -/
  sorted : s.handed.Pairwise fun e e' => e.index < e'.index
  /-- What the store was handed is applied. -/
  handed_le : ∀ e ∈ s.handed, e.index ≤ s.appliedIndex
  /-- The commands from the start to the applied index were handed over, or are in a snapshot. -/
  covered : ∀ j, start < j → j ≤ s.appliedIndex → (log.entry j).HasEffect → log.entry j ∈ s.handed ∨
    ∃ b ∈ batches, b.1.snapshot.isEmptySnap = false ∧ j ≤ b.1.snapshot.index

variable {start : ℕ} {b : Ready × Responses} {batches : List (Ready × Responses)}

/-- A snapshot does not take the applied index back. -/
theorem BatchDone.le_afterSnapshot (h : BatchDone s rd t) :
    s.appliedIndex ≤ rd.afterSnapshot s.appliedIndex := by
  unfold Ready.afterSnapshot
  split
  · exact le_rfl
  next hne => exact (h.snapshot_lt (Bool.eq_false_of_not_eq_true hne)).le

/-- The applied index after the snapshot is a `uint64`. -/
theorem afterSnapshot_lt (hrd : rd.FromLog log) (hs : s.appliedIndex < 2 ^ 64) :
    rd.afterSnapshot s.appliedIndex < 2 ^ 64 := by
  unfold Ready.afterSnapshot
  split
  · exact hs
  · exact hrd.snapshot_lt

/-- So is the last index of the batch. -/
theorem lastIndex_lt (hrd : rd.FromLog log) :
    lastIndex rd.committedEntries < 2 ^ 64 := by
  unfold lastIndex
  cases hlast : rd.committedEntries.getLast? with
  | none => simp
  | some e => exact hrd.index_lt e (List.mem_of_getLast? hlast)

/-- An index that a snapshot puts at or below the applied one is in the snapshot. -/
theorem le_snapshot {j i : ℕ} (hj : i < j) (hle : j ≤ rd.afterSnapshot i) :
    rd.snapshot.isEmptySnap = false ∧ j ≤ rd.snapshot.index := by
  unfold Ready.afterSnapshot at hle
  split at hle
  · omega
  next hne => exact ⟨Bool.eq_false_of_not_eq_true hne, hle⟩

/-- There is no gap between the applied index and the batch. -/
theorem BatchDone.entry_mem {j : ℕ} (h : BatchDone s rd t) (hrd : rd.FromLog log)
    (hj : rd.afterSnapshot s.appliedIndex < j) (hle : j ≤ t.appliedIndex) :
    log.entry j ∈ rd.committedEntries := by
  rw [h.appliedIndex] at hle
  have hlast : j ≤ lastIndex rd.committedEntries := by omega
  cases hes : rd.committedEntries with
  | nil =>
    rw [hes] at hlast
    exact absurd hlast (by simp [lastIndex]; omega)
  | cons f fs =>
    have hgap := h.no_gap f (by rw [hes]; rfl)
    have hcons := hrd.consecutive
    rw [hes] at hlast hcons
    exact hcons.entry_mem_iff.mpr ⟨by omega, hlast⟩

/-- One batch. -/
theorem RunInv.step (h : RunInv log start batches s) (hrd : b.1.FromLog log) (hb : s.step b = some t) :
    RunInv log start (batches ++ [b]) t := by
  have hdone := processReady_ok hrd h.lt (step_eq_some_iff.mp hb)
  have hle := hdone.le_afterSnapshot
  refine ⟨?_, ?_, ?_, ?_⟩
  · rw [hdone.appliedIndex]
    exact max_lt (afterSnapshot_lt hrd h.lt) (lastIndex_lt hrd)
  · -- What was handed before is not above the applied index, and what is handed now is.
    rw [hdone.handed, List.pairwise_append]
    refine ⟨h.sorted, hrd.consecutive.pairwise.filter _, ?_⟩
    intro e he f hf
    have he := h.handed_le e he
    have hf : _ ∧ _ < _ := of_decide_eq_true (List.mem_filter.mp hf).2
    omega
  · intro e he
    rw [hdone.appliedIndex]
    rw [hdone.handed, List.mem_append] at he
    rcases he with he | he
    · have he := h.handed_le e he
      omega
    · have he := hrd.consecutive.index_le_lastIndex (List.mem_filter.mp he).1
      omega
  · intro j hstart hj heff
    rw [hdone.handed, List.mem_append]
    by_cases hold : j ≤ s.appliedIndex
    · -- It was applied before.
      rcases h.covered j hstart hold heff with hmem | ⟨c, hc, hcover⟩
      · exact .inl (.inl hmem)
      · exact .inr ⟨c, List.mem_append_left _ hc, hcover⟩
    · by_cases hsnap : j ≤ b.1.afterSnapshot s.appliedIndex
      · -- It is in the snapshot of this batch.
        exact .inr ⟨b, List.mem_append_right _ List.mem_cons_self, le_snapshot (not_le.mp hold) hsnap⟩
      · -- It is in the batch itself.
        have hmem := hdone.entry_mem hrd (not_le.mp hsnap) hj
        refine .inl (.inr (List.mem_filter.mpr ⟨hmem, decide_eq_true ⟨heff, ?_⟩⟩))
        rw [log.index_entry]
        exact not_le.mp hsnap

/-- The last batch of a run. -/
theorem exists_of_run_concat (h : run ReadyLoop.step s (batches ++ [b]) = some t) :
    ∃ u, run ReadyLoop.step s batches = some u ∧ u.step b = some t := by
  rw [run_append] at h
  obtain ⟨u, hu, h⟩ := Option.bind_eq_some_iff.mp h
  obtain ⟨v, hv, h⟩ := Option.bind_eq_some_iff.mp h
  obtain rfl := Option.some.inj h
  exact ⟨u, hu, hv⟩

/-- Every run. -/
theorem RunInv.of_run (hstart : start < 2 ^ 64) (hrd : ∀ b ∈ batches, b.1.FromLog log)
    (h : run ReadyLoop.step (startAt start) batches = some t) : RunInv log start batches t := by
  induction batches using List.reverseRecOn generalizing t with
  | nil =>
    obtain rfl := Option.some.inj h
    refine ⟨hstart, .nil, fun e he => absurd he List.not_mem_nil, ?_⟩
    intro j hlt hle
    exact absurd hle (not_le.mpr hlt)
  | append_singleton batches b ih =>
    obtain ⟨u, hu, hb⟩ := exists_of_run_concat h
    have hinv := ih (fun c hc => hrd c (List.mem_append_left _ hc)) hu
    exact hinv.step (hrd b (List.mem_append_right _ List.mem_cons_self)) hb

/-- What the store was handed is not taken back. -/
theorem handed_subset_of_run {rest : List (Ready × Responses)} (hstart : start < 2 ^ 64)
    (hrd : ∀ b ∈ batches ++ rest, b.1.FromLog log)
    (hs : run ReadyLoop.step (startAt start) batches = some s)
    (ht : run ReadyLoop.step (startAt start) (batches ++ rest) = some t) : s.handed ⊆ t.handed := by
  induction rest using List.reverseRecOn generalizing t with
  | nil =>
    rw [List.append_nil, hs] at ht
    rw [Option.some.inj ht]
    exact List.Subset.refl _
  | append_singleton rest b ih =>
    rw [← List.append_assoc] at ht hrd
    obtain ⟨u, hu, hb⟩ := exists_of_run_concat ht
    have hrd' : ∀ c ∈ batches ++ rest, c.1.FromLog log := fun c hc => hrd c (List.mem_append_left _ hc)
    have hdone := processReady_ok (hrd b (List.mem_append_right _ List.mem_cons_self))
      (RunInv.of_run hstart hrd' hu).lt (step_eq_some_iff.mp hb)
    rw [hdone.handed]
    exact List.Subset.trans (ih hrd' hu) (List.subset_append_left _ _)

/-- Nothing is handed over twice. -/
theorem RunInv.nodup (h : RunInv log start batches t) : t.handed.Nodup :=
  h.sorted.imp fun hlt heq => absurd (congrArg RaftEntry.index heq) hlt.ne

/-- A command of a batch is handed over in it or before, or it is in a snapshot. -/
theorem RunInv.count_eq_one {e : RaftEntry} (h : RunInv log start batches t) (hrd : b.1.FromLog log)
    (he : e ∈ b.1.committedEntries) (heff : e.HasEffect) (hstart : start < e.index)
    (hle : e.index ≤ t.appliedIndex)
    (hsnap : ∀ c ∈ batches, c.1.snapshot.isEmptySnap = false → c.1.snapshot.index < e.index) :
    t.handed.count e = 1 := by
  have hentry := hrd.consecutive.entry_index he
  have hcovered := h.covered e.index hstart hle
  rw [hentry] at hcovered
  rcases hcovered heff with hmem | ⟨c, hc, hne, hcover⟩
  · exact List.count_eq_one_of_mem h.nodup hmem
  · exact absurd hcover (not_le.mpr (hsnap c hc hne))

/-- The store is handed every committed command once and in order. Here `t` is the loop after the
batches, from the applied index `start`. -/
structure AppliedOnce (log : CommittedLog) (start : ℕ) (batches : List (Ready × Responses))
    (t : ReadyLoop) : Prop where
  /-- The indices that are handed to `FSM.Apply` increase. -/
  increasing : (t.handed.map RaftEntry.index).Pairwise (· < ·)
  /-- Every batch leads from a state `u` to a state `v` such that the applied index does not decrease and
  is at the end the larger one of its value after the snapshot and of the last index of the batch, and
  such that the commands of the batch have been handed over once, and are not handed over again. Left out
  are those up to the start and those that a snapshot installed before contains. -/
  batch : ∀ before b after, batches = before ++ b :: after → ∃ u v : ReadyLoop,
    run ReadyLoop.step (startAt start) before = some u ∧ u.processReady b.2 b.1 = .ok v ∧
      run ReadyLoop.step v after = some t ∧
      u.appliedIndex ≤ b.1.afterSnapshot u.appliedIndex ∧
      v.appliedIndex = max (b.1.afterSnapshot u.appliedIndex) (lastIndex b.1.committedEntries) ∧
      ∀ e ∈ b.1.committedEntries, e.HasEffect → start < e.index →
        (∀ c ∈ before ++ [b], c.1.snapshot.isEmptySnap = false → c.1.snapshot.index < e.index) →
        v.handed.count e = 1 ∧ t.handed.count e = 1
  /-- A next batch that does not continue what is applied panics, once its state is saved and its
  snapshot is installed. -/
  gap : ∀ (rd : Ready) (r : Responses), rd.FromLog log → ∀ f ∈ rd.committedEntries.head?,
    r.saveState = true →
    (rd.snapshot.isEmptySnap ∨ t.appliedIndex < rd.snapshot.index ∧ r.restoreSnapshot = true) →
    rd.afterSnapshot t.appliedIndex + 1 < f.index →
    t.processReady r rd = .error (.panic f.index (rd.afterSnapshot t.appliedIndex + 1))

/-- In every run of `processReady` without an error, from every applied index, the committed commands are
applied once and in order. -/
theorem committed_applied_once (log : CommittedLog) (start : ℕ) (batches : List (Ready × Responses))
    (t : ReadyLoop) (hstart : start < 2 ^ 64) (hrd : ∀ b ∈ batches, b.1.FromLog log)
    (h : run ReadyLoop.step (startAt start) batches = some t) : AppliedOnce log start batches t := by
  refine ⟨List.pairwise_map.mpr (RunInv.of_run hstart hrd h).sorted, ?_, ?_⟩
  · rintro before b after rfl
    have hassoc : before ++ b :: after = (before ++ [b]) ++ after := by simp
    rw [hassoc] at h hrd
    have hrd' : ∀ c ∈ before ++ [b], c.1.FromLog log := fun c hc => hrd c (List.mem_append_left _ hc)
    have hb : b.1.FromLog log := hrd' b (List.mem_append_right _ List.mem_cons_self)
    -- The states before and after the batch.
    have hsplit := h
    rw [run_append] at hsplit
    obtain ⟨v, hv, hafter⟩ := Option.bind_eq_some_iff.mp hsplit
    obtain ⟨u, hu, huv⟩ := exists_of_run_concat hv
    have hok := step_eq_some_iff.mp huv
    have hinv := RunInv.of_run hstart (fun c hc => hrd' c (List.mem_append_left _ hc)) hu
    have hinv' := RunInv.of_run hstart hrd' hv
    have hdone := processReady_ok hb hinv.lt hok
    refine ⟨u, v, hu, hok, hafter, hdone.le_afterSnapshot, hdone.appliedIndex, ?_⟩
    intro e he heff hlt hsnap
    have hle : e.index ≤ v.appliedIndex := by
      rw [hdone.appliedIndex]
      exact le_max_of_le_right (hb.consecutive.index_le_lastIndex he)
    have hcount := hinv'.count_eq_one hb he heff hlt hle hsnap
    refine ⟨hcount, ?_⟩
    -- It stays in the list, which has no duplicates.
    have hmem : e ∈ t.handed :=
      handed_subset_of_run hstart hrd hv h (List.count_pos_iff.mp (by omega))
    exact List.count_eq_one_of_mem (RunInv.of_run hstart hrd h).nodup hmem
  · intro rd r hrd f hf hsave hsnap hgap
    exact processReady_gap hrd hf hsave hsnap hgap

/-- A log with commands, an empty entry at two and a change of the configuration at three. -/
def mixedLog : CommittedLog where
  entry j := ⟨j, 1, if j = 3 then .confChange else .normal, if j = 2 then [] else [7]⟩
  index_entry _ := rfl

/-- A Ready with the entries of the log from an index on, after a snapshot. -/
def mixedReady (snapshot first n : ℕ) : Ready × Responses :=
  (⟨⟨snapshot, 1, ⟨[], []⟩, ∅⟩, HardState.empty, [], (List.range' first n).map mixedLog.entry⟩,
    ⟨true, true, fun _ => true, fun _ => some false⟩)

/-- Overlapping batches, and a snapshot that is ahead of what is applied. -/
def mixedBatches : List (Ready × Responses) :=
  [mixedReady 0 1 3, mixedReady 0 2 3, mixedReady 6 6 3]

/-- The store is handed the entries one, four, seven and eight. -/
theorem committed_applied_once_mixed :
    ∃ t : ReadyLoop, t.handed.map RaftEntry.index = [1, 4, 7, 8] ∧
      AppliedOnce mixedLog 0 mixedBatches t :=
  ⟨final ReadyLoop.step (startAt 0) mixedBatches (by decide +kernel), by decide +kernel,
    committed_applied_once mixedLog 0 mixedBatches _ (by decide) (by decide +kernel)
      (Option.some_get _).symm⟩

end ReadyLoop

end Omashu
