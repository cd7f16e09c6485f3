import Omashu.Lib.Reinstall
import Omashu.Lib.Run
import Omashu.Store.Replay

/-!
# Replicas converge

All replicas apply one committed log. A replica applies entries in order, restarts with its store
kept and its applied index back at its last snapshot, and restores snapshots of other replicas. A
snapshot is labelled with an index that the sender has applied, while its data may already hold the
effects of later entries. So an entry is applied again on stores that hold its own effects and those
of later entries.

`reached` is not part of the program. It is the last entry whose effects are in a store, and it is
carried along by snapshots and restarts. The invariant (`ReplicasInv`) is that a store has exactly the
versions of the entries up to `reached`. It is kept because the writes of a command are determined by
the values below its commit timestamp (`writes_eq_inOrder`), which are the same in every store that
has the entries before it.
-/

namespace Omashu

open Lib Versions

/-- A replica. -/
structure Replica where
  store : Store
  appliedIndex : ℕ
  /-- The index of its last snapshot. -/
  snapshotIndex : ℕ
  /-- The last entry whose effects are in the store. -/
  reached : ℕ
  deriving DecidableEq

/-- A snapshot that a replica has taken. -/
structure StoreSnapshot where
  /-- `Metadata.Index`. -/
  index : ℕ
  /-- The backup of the store. -/
  data : Store
  /-- The last entry whose effects are in the data. -/
  reached : ℕ
  deriving DecidableEq

/-- The replicas, and the snapshots that they have taken. -/
structure Replicas (ν : Type*) where
  /-- The replicas. -/
  nodes : ν → Replica
  /-- The snapshots, in the order in which they were taken. -/
  snapshots : List StoreSnapshot

/-- A step of one replica. -/
inductive ReplicaAction (ν : Type*)
  /-- The next entry is applied, at this reading of the clock. -/
  | apply (v : ν) (now : ℤ)
  /-- `takeSnapshotIfNeeded` with the label `i`, an index that is applied by the time of the backup. -/
  | takeSnapshot (v : ν) (i : ℕ)
  /-- The process restarts. -/
  | restart (v : ν)
  /-- `applySnapshotToFSM` with the `n`-th of the snapshots. -/
  | restore (v : ν) (n : ℕ)

namespace Replicas

variable {ν : Type*} [DecidableEq ν]

omit [DecidableEq ν] in
/-- All replicas are empty. -/
def start : Replicas ν := ⟨fun _ => ⟨[], 0, 0, 0⟩, []⟩

/-- Replaces one replica. -/
def setNode (s : Replicas ν) (v : ν) (r : Replica) : Replicas ν :=
  { s with nodes := Function.update s.nodes v r }

/-- Applies the next entry of the log. -/
def apply (M : Merge) (log : List Command) (s : Replicas ν) (v : ν) (now : ℤ) :
    Option (Replicas ν) :=
  let r := s.nodes v
  match log[r.appliedIndex]? with
  | none => none
  | some c =>
    match Fsm.apply M r.store ⟨now, none⟩ c with
    | .error _ => none
    | .ok store => some (s.setNode v { r with
        store
        appliedIndex := r.appliedIndex + 1
        reached := max r.reached (r.appliedIndex + 1) })

/-- Takes a snapshot. Storage rejects one that is not newer than the last. -/
def takeSnapshot (s : Replicas ν) (v : ν) (i : ℕ) : Option (Replicas ν) :=
  let r := s.nodes v
  if r.snapshotIndex < i ∧ i ≤ r.appliedIndex then
    some { s.setNode v { r with snapshotIndex := i } with
      snapshots := s.snapshots ++ [⟨i, r.store, r.reached⟩] }
  else none

/-- Restores a snapshot, which has to be newer than what is applied: `DropAll`, then `Load`. -/
def restore (s : Replicas ν) (v : ν) (n : ℕ) : Option (Replicas ν) :=
  match s.snapshots[n]? with
  | none => none
  | some snapshot =>
    if (s.nodes v).appliedIndex < snapshot.index then
      some (s.setNode v ⟨snapshot.data, snapshot.index, snapshot.index, snapshot.reached⟩)
    else none

/-- One step of a replica. -/
def step (M : Merge) (log : List Command) (s : Replicas ν) : ReplicaAction ν → Option (Replicas ν)
  | .apply v now => s.apply M log v now
  | .takeSnapshot v i => s.takeSnapshot v i
  | .restart v => some (s.setNode v { s.nodes v with appliedIndex := (s.nodes v).snapshotIndex })
  | .restore v n => s.restore v n

end Replicas

/-- The command sets one key, and reads nothing. -/
def Command.Blind (c : Command) : Prop := ∃ key value ttl, c.body = .single (.set key value ttl)

/-- What is asked of the log. -/
structure ReplayableLog (M : Merge) (log : List Command) : Prop where
  /-- No command carries a time to live. -/
  untimed : ∀ c ∈ log, c.Untimed
  /-- The commit timestamps increase. -/
  commitTs_lt : log.Pairwise (·.commitTs < ·.commitTs)
  /-- A command reads below its commit timestamp, or is a blind set at it. -/
  readTs_lt : ∀ c ∈ log, c.readTs < c.commitTs ∨ c.Blind ∧ c.readTs = c.commitTs
  /-- Applied in order to the empty store, every command succeeds. -/
  succeeds : ∃ clock : ℕ → ℤ,
    ∀ r ∈ (Fsm.replay M (surroundings clock fun _ => none) [] log).2, r = none

/-! ## The in-order replay -/

/-- The stores of an in-order replay, and what each command writes in it. -/
structure InOrder (M : Merge) (log : List Command) (db : Store) (envs : ℕ → Env) (stores : ℕ → Store)
    (ws : ℕ → List (Key × Entry)) : Prop where
  /-- The replay begins with the given store. -/
  zero : stores 0 = db
  /-- What a command writes. -/
  writes : ∀ i c, log[i]? = some c → Fsm.writes M (stores i) (envs i) c = .ok (ws i)
  /-- Its writes are installed. -/
  succ : ∀ i c, log[i]? = some c → stores (i + 1) = install (stores i) c.commitTs (ws i)

/-- A replay without errors is a sequence of installations. -/
theorem exists_inOrder {M : Merge} {log : List Command} {db : Store} {envs : ℕ → Env}
    (h : ∀ r ∈ (Fsm.replay M envs db log).2, r = none) :
    ∃ stores ws, InOrder M log db envs stores ws := by
  induction log generalizing db envs with
  | nil => exact ⟨fun _ => db, fun _ => [], rfl, by simp, by simp⟩
  | cons c log ih =>
    obtain ⟨db', happ, hrest⟩ := Fsm.exists_apply_of_replay_cons h
    obtain ⟨stores, ws, hzero, hwrites, hsucc⟩ := ih hrest
    rw [Fsm.apply_eq_install] at happ
    obtain ⟨w, hw, hdb'⟩ := map_eq_ok happ
    -- The first store and the first writes come before those of the rest.
    refine ⟨fun i => i.casesOn db stores, fun i => i.casesOn w ws, rfl, ?_, ?_⟩
    · intro i c' hc'
      cases i with
      | zero =>
        obtain rfl : c = c' := by simpa using hc'
        exact hw
      | succ i => exact hwrites i c' (by simpa using hc')
    · intro i c' hc'
      cases i with
      | zero =>
        obtain rfl : c = c' := by simpa using hc'
        exact hzero.trans hdb'.symm
      | succ i => exact hsucc i c' (by simpa using hc')

/-- The commit timestamp of the `i`-th command. -/
def commitTsAt (log : List Command) (i : ℕ) : ℕ := (log[i]?.map Command.commitTs).getD 0

/-- It is that of the command which is there. -/
theorem commitTsAt_eq {log : List Command} {i : ℕ} {c : Command} (h : log[i]? = some c) :
    commitTsAt log i = c.commitTs := by
  unfold commitTsAt
  rw [h]
  rfl

/-- The commit timestamps increase along the log. -/
theorem strictMonoOn_commitTsAt {log : List Command}
    (h : log.Pairwise (·.commitTs < ·.commitTs)) :
    StrictMonoOn (commitTsAt log) (Set.Iio log.length) := by
  intro i hi j hj hij
  rw [Set.mem_Iio] at hi hj
  rw [commitTsAt_eq (List.getElem?_eq_getElem hi), commitTsAt_eq (List.getElem?_eq_getElem hj)]
  exact List.pairwise_iff_getElem.mp h i j hi hj hij

/-- A blind set writes the same in every store. -/
theorem writes_blind (M : Merge) (db : Store) (env : Env) {c : Command} {key : Key} {value : Bytes}
    (h : c.body = .single (.set key value none)) :
    Fsm.writes M db env c = (BTxn.checkKey key).map fun _ => [(key, .value value 0)] := by
  unfold Fsm.writes
  rw [h]
  show ((BTxn.newTransactionAt db c.readTs).modify key (.value value 0)).map _ = _
  rw [BTxn.modify_eq]
  cases BTxn.checkKey key with
  | error | ok => rfl

section Sequence

variable {M : Merge} {log : List Command} {envs : ℕ → Env} {stores : ℕ → Store}
  {ws : ℕ → List (Key × Entry)} {db : Store} {n i : ℕ} {c : Command}

/-- The in-order replay has, after `n` commands, the versions of those. -/
theorem InOrder.contains (h : InOrder M log [] envs stores ws)
    (hts : log.Pairwise (·.commitTs < ·.commitTs)) (hn : n ≤ log.length) :
    Contains (commitTsAt log) ws n (stores n) := by
  induction n with
  | zero =>
    rw [h.zero]
    exact Contains.nil
  | succ n ih =>
    have hc : log[n]? = some log[n] := List.getElem?_eq_getElem hn
    have hinstall := (ih (by omega)).install (strictMonoOn_commitTsAt hts) le_rfl hn (by omega)
    rw [h.succ n _ hc, ← commitTsAt_eq hc]
    rwa [max_eq_right (Nat.le_succ n)] at hinstall

/-- The stores with the versions of some of the commands have no expiring version. -/
theorem InOrder.lasting (h : InOrder M log [] envs stores ws) (hlog : ∀ c ∈ log, c.Untimed)
    (hdb : Contains (commitTsAt log) ws n db) (hn : n ≤ log.length) : db.Lasting := by
  intro x hx
  obtain ⟨i, hi, -, hw⟩ := (hdb x).mp hx
  have hil : i < log.length := by omega
  have hc : log[i]? = some log[i] := List.getElem?_eq_getElem hil
  obtain ⟨w, hws, -, hval⟩ := exists_of_latest_eq_some hw
  rw [← hval]
  exact Fsm.writes_lasting (hlog _ (List.getElem_mem hil)) (h.writes i _ hc) w hws

/-- On every store that has the versions of at least the commands before it, a command writes what it
writes in the in-order replay. -/
theorem InOrder.writes_eq (h : InOrder M log [] envs stores ws) (hlog : ReplayableLog M log)
    (hpolls : ∀ i, (envs i).doneAfter = none) (hdb : Contains (commitTsAt log) ws n db)
    (hn : n ≤ log.length) (hi : i ≤ n) (hc : log[i]? = some c) (now : ℤ) :
    Fsm.writes M db ⟨now, none⟩ c = .ok (ws i) := by
  have hmem : c ∈ log := List.mem_of_getElem? hc
  have hil : i < log.length := (List.getElem?_eq_some_iff.mp hc).1
  rw [← h.writes i c hc]
  rcases hlog.readTs_lt c hmem with hread | ⟨⟨key, value, ttl, hbody⟩, -⟩
  · -- Below the commit timestamp the two stores have the same newest versions, which do not expire.
    have hmono := strictMonoOn_commitTsAt hlog.commitTs_lt
    have hcontains := h.contains hlog.commitTs_lt hil.le
    have hnewest : ∀ k, newest db k c.readTs = newest (stores i) k c.readTs :=
      hdb.newest_eq hmono hcontains hi le_rfl hil hn hil.le (by rwa [commitTsAt_eq hc])
    apply Fsm.writes_congr (hlog.untimed c hmem) (hpolls i).symm
    rw [BTxn.lookup_eq_of_lasting (h.lasting hlog.untimed hdb hn) c.readTs now (envs i).now]
    funext k
    rw [lookup_newTransactionAt, lookup_newTransactionAt, hnewest k]
  · have httl : ttl = none := hlog.untimed c hmem (.set key value ttl) (by simp [hbody, Body.subCommands])
    rw [httl] at hbody
    rw [writes_blind M db _ hbody, writes_blind M (stores i) _ hbody]

/-- Applying a command to a store that has the commands before it succeeds, and the store then has
this command too. -/
theorem InOrder.apply_contains (h : InOrder M log [] envs stores ws) (hlog : ReplayableLog M log)
    (hpolls : ∀ i, (envs i).doneAfter = none) (hdb : Contains (commitTsAt log) ws n db)
    (hn : n ≤ log.length) (hi : i ≤ n) (hc : log[i]? = some c) (now : ℤ) :
    ∃ db', Fsm.apply M db ⟨now, none⟩ c = .ok db' ∧
      Contains (commitTsAt log) ws (max n (i + 1)) db' := by
  have hil : i < log.length := (List.getElem?_eq_some_iff.mp hc).1
  refine ⟨install db c.commitTs (ws i), ?_, ?_⟩
  · rw [Fsm.apply_eq_install, h.writes_eq hlog hpolls hdb hn hi hc now]
    rfl
  · rw [← commitTsAt_eq hc]
    exact hdb.install (strictMonoOn_commitTsAt hlog.commitTs_lt) hi hil hn

end Sequence

/-! ## The replicas -/

/-- The store has exactly the versions of the commands up to `reached`. -/
structure Caught (log : List Command) (ws : ℕ → List (Key × Entry)) (db : Store) (reached : ℕ) :
    Prop where
  /-- There are so many commands. -/
  le : reached ≤ log.length
  /-- The store has their versions. -/
  contains : Contains (commitTsAt log) ws reached db

/-- What the replicas keep. -/
structure ReplicasInv (log : List Command) (ws : ℕ → List (Key × Entry)) {ν : Type*}
    (s : Replicas ν) : Prop where
  /-- The stores of the replicas. -/
  nodes : ∀ v, Caught log ws (s.nodes v).store (s.nodes v).reached
  /-- What is applied has its effects in the store. -/
  applied : ∀ v, (s.nodes v).appliedIndex ≤ (s.nodes v).reached
  /-- The last snapshot is not newer than what is applied. -/
  snapshot : ∀ v, (s.nodes v).snapshotIndex ≤ (s.nodes v).appliedIndex
  /-- The data of the snapshots, which may be newer than their labels. -/
  snapshots : ∀ x ∈ s.snapshots, Caught log ws x.data x.reached ∧ x.index ≤ x.reached

namespace Replicas

variable {ν : Type*} [DecidableEq ν] {M : Merge} {log : List Command} {envs : ℕ → Env}
  {stores : ℕ → Store} {ws : ℕ → List (Key × Entry)} {s t : Replicas ν} {a : ReplicaAction ν}

omit [DecidableEq ν] in
/-- The empty replicas have nothing applied. -/
theorem inv_start : ReplicasInv log ws (start : Replicas ν) where
  nodes _ := ⟨Nat.zero_le _, Contains.nil⟩
  applied _ := le_rfl
  snapshot _ := le_rfl
  snapshots := by simp [start]

/-- A replica is replaced by one that keeps the invariant. -/
theorem inv_setNode (hI : ReplicasInv log ws s) (v : ν) {r : Replica}
    (hr : Caught log ws r.store r.reached) (happlied : r.appliedIndex ≤ r.reached)
    (hsnapshot : r.snapshotIndex ≤ r.appliedIndex) : ReplicasInv log ws (s.setNode v r) where
  nodes := (Function.forall_update_iff s.nodes fun _ r => Caught log ws r.store r.reached).mpr
    ⟨hr, fun w _ => hI.nodes w⟩
  applied := (Function.forall_update_iff s.nodes fun _ r => r.appliedIndex ≤ r.reached).mpr
    ⟨happlied, fun w _ => hI.applied w⟩
  snapshot := (Function.forall_update_iff s.nodes fun _ r => r.snapshotIndex ≤ r.appliedIndex).mpr
    ⟨hsnapshot, fun w _ => hI.snapshot w⟩
  snapshots := hI.snapshots

/-- Every step keeps the invariant. -/
theorem inv_step (h : InOrder M log [] envs stores ws) (hlog : ReplayableLog M log)
    (hpolls : ∀ i, (envs i).doneAfter = none) (hI : ReplicasInv log ws s)
    (ha : s.step M log a = some t) : ReplicasInv log ws t := by
  cases a with
  | apply v now =>
    simp only [step, apply] at ha
    cases hc : log[(s.nodes v).appliedIndex]? with
    | none => simp [hc] at ha
    | some c =>
      have hnode := hI.nodes v
      have hil := (List.getElem?_eq_some_iff.mp hc).1
      have hle := hnode.le
      obtain ⟨db', happ, hdb'⟩ := h.apply_contains hlog hpolls hnode.contains hle (hI.applied v) hc now
      rw [hc] at ha
      simp only [happ, Option.some.injEq] at ha
      subst ha
      have hsnapshot := hI.snapshot v
      exact inv_setNode hI v ⟨max_le hle hil, hdb'⟩ (le_max_right _ _) (by simp only; omega)
  | takeSnapshot v i =>
    simp only [step, takeSnapshot] at ha
    split_ifs at ha with hi
    obtain rfl := Option.some.inj ha
    have hset := inv_setNode hI v (r := { s.nodes v with snapshotIndex := i }) (hI.nodes v)
      (hI.applied v) hi.2
    refine { hset with snapshots := ?_ }
    intro x hx
    rcases List.mem_append.mp hx with hx | hx
    · exact hI.snapshots x hx
    · obtain rfl := List.mem_singleton.mp hx
      exact ⟨hI.nodes v, hi.2.trans (hI.applied v)⟩
  | restart v =>
    obtain rfl := Option.some.inj ha
    exact inv_setNode hI v (hI.nodes v) ((hI.snapshot v).trans (hI.applied v)) le_rfl
  | restore v n =>
    simp only [step, restore] at ha
    cases hx : s.snapshots[n]? with
    | none => simp [hx] at ha
    | some x =>
      rw [hx] at ha
      dsimp only at ha
      split_ifs at ha with hlt
      obtain rfl := Option.some.inj ha
      obtain ⟨hdata, hindex⟩ := hI.snapshots x (List.mem_of_getElem? hx)
      exact inv_setNode hI v hdata hindex le_rfl

/-- A blind set, an increment, a transaction and a prefix deletion. -/
def fourCommands : List Command :=
  [⟨1, 1, .single (.set [1] (uint64ToBytes 5) none)⟩, ⟨1, 2, .single (.incrBy [1] 2)⟩,
    ⟨2, 3, .transaction [.set [2] [7] none, .decrBy [1] 1]⟩, ⟨3, 4, .single (.deleteByPrefix [2])⟩]

/-- They can be applied in order. -/
theorem replayableLog_fourCommands : ReplayableLog rejectDeltas fourCommands where
  untimed := by decide
  commitTs_lt := by decide
  readTs_lt := by
    intro c hc
    rcases List.mem_cons.mp hc with rfl | hc
    · exact .inr ⟨⟨_, _, _, rfl⟩, rfl⟩
    · have hrest : ∀ c ∈ fourCommands.tail, c.readTs < c.commitTs := by decide
      exact .inl (hrest c hc)
  succeeds := ⟨fun _ => 0, by decide +kernel⟩

/-- The first replica applies three commands, takes a snapshot that it labels with the second, and
restarts. The second one applies the first command and restores the snapshot. Both go on to the
end. -/
def restartAndRestore : List (ReplicaAction Two) :=
  [.apply .first 0, .apply .first 0, .apply .first 0, .takeSnapshot .first 2, .restart .first,
    .apply .second 5, .restore .second 0, .apply .second 6, .apply .second 7, .apply .first 8,
    .apply .first 9]

/-- The replicas after these steps. -/
def afterRestartAndRestore : Replicas Two :=
  final (guarded (step rejectDeltas fourCommands) fun _ _ => True) start restartAndRestore
    (by decide +kernel)

end Replicas

end Omashu
