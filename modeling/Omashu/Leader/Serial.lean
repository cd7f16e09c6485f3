import Omashu.Leader.Snapshots

/-!
# Serialisability in the order of the commit timestamps

A transaction that commits at `c` is in its place in the order of commit timestamps if each of its
reads would return the same at `c`, just before its own writes. Its reads were made at its read
timestamp `r`, and nothing at or below `r` changes any more (`ReadsHold`). Between `r` and `c` the
store holds what other transactions of the history have written, at keys of their conflict sets
(`Written`). The conflict check refuses the transaction if one of these keys is among its `reads`.

The reads register only the keys they find. A point read that finds nothing, and a key that a prefix
read does not find, leave no trace, and the conflict check does not see a later writer of them.
`RegistersReads` says of a commit that this did not happen, and `committed_reads_serializable` is
what follows where every commit that succeeds is like that.
-/

namespace Omashu

open Lib

/-- The call has been handed its read timestamp. -/
def Call.Reading (c : Call) : Prop := c.phase = .running ∨ c.readLog ≠ []

namespace Leader

variable {ι : Type*}

/-- No command at or below a timestamp is outstanding. -/
def SettledAt (s : Leader ι) (r : ℕ) : Prop :=
  (∀ i, (s.calls i).Unproposed → r < (s.calls i).txn.commitTs) ∧
    ∀ e ∈ s.log.drop s.applied, r < e.command.commitTs

/-- What is outstanding is above a timestamp that is settled. -/
theorem SettledAt.lt {s : Leader ι} {r ts : ℕ} (h : s.SettledAt r) (ho : s.Outstanding ts) :
    r < ts := by
  rcases ho with ⟨i, hi, rfl⟩ | ⟨e, he, rfl⟩
  · exact h.1 i hi
  · exact h.2 e he

/-- A key that a read of the call covers, and that a transaction has written after the call's read
timestamp, is among the call's registered reads. -/
def RegistersReads (s : Leader ι) (c : Call) : Prop :=
  ∀ h ∈ s.history, c.txn.readTs < h.ts → ∀ k ∈ h.conflictKeys,
    (∃ x ∈ c.readLog, x.1.Covers k) → k ∈ c.txn.reads

/-- A call is handed its read timestamp only when no command at or below it is outstanding, bodies do
not delete prefixes, and the clock moves forward within its layout. -/
def SettledReads (s : Leader ι) : Action ι → Prop
  | .waitOk i => s.SettledAt (s.calls i).txn.readTs
  | .write _ op _ => ∀ pre, op ≠ .deleteByPrefix pre
  | .commit _ readings => s.tso.toClock.Steady readings
  | _ => True

variable [DecidableEq ι]

/-- `Commit` succeeds: the transaction gets its timestamp. -/
def Commits (s : Leader ι) (i : ι) (readings : List ℤ) : Prop :=
  ∃ t ∈ s.commit i readings, (t.calls i).phase = .stamped

/-- Besides, a commit that succeeds registers its reads. -/
def SerialReads (s : Leader ι) (a : Action ι) : Prop :=
  s.SettledReads a ∧
    match a with
    | .commit i readings => s.Commits i readings → s.RegistersReads (s.calls i)
    | _ => True

/-- Under the condition the clock moves forward. -/
theorem SerialReads.allocatesForward {s : Leader ι} {a : Action ι} (h : s.SerialReads a) :
    s.AllocatesForward a := by
  cases a with
  | commit i readings => exact Clock.Steady.advances h.1
  | _ => trivial

/-! ## The answers of the reads -/

/-- The reads that were made would be answered the same at their timestamps. -/
structure ReadsHold (s : Leader ι) : Prop where
  /-- No read is made before the read timestamp is handed out. -/
  fresh : ∀ i, (s.calls i).phase = .recorded ∨ (s.calls i).phase = .begun →
    (s.calls i).readLog = []
  /-- What is outstanding is above the timestamps that are read at. -/
  ahead : ∀ i, (s.calls i).phase ≠ .idle → (s.calls i).Reading →
    ∀ ts, s.Outstanding ts → (s.calls i).txn.readTs < ts
  /-- The answers stand. -/
  answers : ∀ i, (s.calls i).phase ≠ .idle → ∀ x ∈ (s.calls i).readLog,
    x.1.eval s.store x.2.1 (s.calls i).txn.readTs = x.2.2

variable {s t : Leader ι} {start : ℕ} {M : Merge} {a : Action ι} {i : ι}

omit [DecidableEq ι] in
/-- No call has begun at the start of a term. -/
theorem TermStart.readsHold (h : TermStart start s) : ReadsHold s where
  fresh i hi := by simp [h.idle i] at hi
  ahead i hi := absurd (h.idle i) hi
  answers i hi := absurd (h.idle i) hi

/-- The result of a read is its answer at the read timestamp. -/
theorem read_snd (txn : Txn) (db : Store) (env : Env) (q : Query) :
    (txn.read db env q).2 = q.eval db env txn.readTs := by
  unfold Txn.read
  split
  · rename_i e he
    rw [he]
  · rename_i a ha
    rw [ha]

/-- No read is made before the read timestamp is handed out. -/
theorem ReadsHold.fresh_step (hR : ReadsHold s) (h : s.step M a = some t)
    (hi : (t.calls i).phase = .recorded ∨ (t.calls i).phase = .begun) :
    (t.calls i).readLog = [] := by
  have hstep := callStep_of_step h i
  generalize t.calls i = c at hstep hi ⊢
  cases hstep with
  | same => exact hR.fresh i hi
  | beginTxn _ kind hp => rfl
  | read _ q env hp => simp [hp] at hi
  | write _ op env p hp hk hp' => rcases hp' with rfl | ⟨e, rfl⟩ <;> simp [hp] at hi
  | stamp _ readings ts tso hp hk hts hh => simp at hi
  | move _ _ p d hn =>
    apply hR.fresh i
    -- Only a call that has marked its pending read is at the start of its wait.
    generalize (s.calls i).phase = p₀ at hn
    cases hn <;> simp_all

/-- A call that reads after a step was reading before it, or has just been handed its timestamp. -/
theorem reading_step (h : s.step M a = some t) (hi : (t.calls i).phase ≠ .idle)
    (hr : (t.calls i).Reading) :
    (s.calls i).phase ≠ .idle ∧ ((s.calls i).Reading ∨ a = .waitOk i) := by
  have hstep := callStep_of_step h i
  generalize t.calls i = c at hstep hi hr
  cases hstep with
  | same => exact ⟨hi, .inl hr⟩
  | beginTxn _ kind hp => simp [Call.Reading] at hr
  | read _ q env hp => exact ⟨hi, .inl (.inl hp)⟩
  | write _ op env p hp hk hp' | stamp _ readings ts tso hp hk hts hh => exact ⟨by simp [hp], .inl (.inl hp)⟩
  | move _ _ p d hn hw =>
    refine ⟨hn.ne_idle.1, ?_⟩
    rcases hr with hr | hr
    · replace hr : p = .running := hr
      rw [hr] at hn
      cases hp : (s.calls i).phase with
      | begun => exact .inr (hw hp hr)
      | running => exact .inl (.inl hp)
      | _ =>
        rw [hp] at hn
        cases hn
    · exact .inl (.inr hr)

/-- A read that is in the log after a step was there before, or has just been made. -/
theorem readLog_step (h : s.step M a = some t) {x : Query × Env × Except Err Answer}
    (hx : x ∈ (t.calls i).readLog) :
    x ∈ (s.calls i).readLog ∨
      t.store = s.store ∧ x.2.2 = x.1.eval s.store x.2.1 (s.calls i).txn.readTs := by
  have hstep := callStep_of_step h i
  generalize t.calls i = c at hstep hx
  cases hstep with
  | same => exact .inl hx
  | beginTxn _ kind hp => simp at hx
  | read _ q env hp =>
    rcases List.mem_append.mp hx with hx | hx
    · exact .inl hx
    · obtain rfl := List.mem_singleton.mp hx
      refine .inr ⟨?_, read_snd _ _ _ _⟩
      obtain ⟨hstore, -⟩ | ⟨_, _, ha, -⟩ := store_step h
      · exact hstore
      · simp at ha
  | write | stamp | move => exact .inl hx

variable [Fintype ι]

/-- A step that meets the condition keeps the answers. -/
theorem ReadsHold.step (hR : ReadsHold s) (hI : OracleInv start s) (hs : s.SerialReads a)
    (h : s.step M a = some t) : ReadsHold t := by
  have hf := hs.allocatesForward
  refine ⟨fun i hi => hR.fresh_step h hi, fun i hi hr => ?_, fun i hi x hx => ?_⟩
  · obtain ⟨hidle, hread | rfl⟩ := reading_step h hi hr
    · rw [(readTs_step h hidle).2]
      exact ahead_step hf h (hI.readTs_mem i hidle).2 (hR.ahead i hidle hread)
    · -- The timestamp is handed out now, and the condition says that it is settled.
      rw [(readTs_step h hidle).2]
      exact ahead_step hf h (hI.readTs_mem i hidle).2 fun ts ho => SettledAt.lt hs.1 ho
  · obtain ⟨hidle, -⟩ := reading_step h hi (.inr (List.ne_nil_of_mem hx))
    rw [(readTs_step h hidle).2]
    rcases readLog_step h hx with hx | ⟨hstore, hans⟩
    · -- What is applied now is above the timestamp, so an old answer stands.
      rw [← hR.answers i hidle x hx]
      apply Query.eval_congr
      intro k _
      apply Versions.newest_congr
      exact visible_step h (hR.ahead i hidle (.inr (List.ne_nil_of_mem hx)))
    · rw [hstore, hans]

/-! ## What the store holds -/

omit [DecidableEq ι] [Fintype ι] in
/-- What the transactions of the term write is in their conflict sets. -/
structure Written (start : ℕ) (s : Leader ι) : Prop where
  /-- The conflict set of a call covers its sub-commands. -/
  keys : ∀ i, (s.calls i).phase ≠ .idle → (s.calls i).txn.Covered
  /-- The conflict set of a recorded transaction covers its sub-commands. -/
  covered : ∀ h ∈ s.history, ∀ sub ∈ h.subCommands, ∀ k, sub.Touches k → k ∈ h.conflictKeys
  /-- A version is from before the term, or at a key of a conflict set. -/
  versions : ∀ x ∈ s.store, x.ts ≤ start ∨ ∃ h ∈ s.history,
    h.ts = x.ts ∧ x.key ∈ h.conflictKeys

omit [DecidableEq ι] [Fintype ι] in
/-- At the start of a term everything is from before it. -/
theorem TermStart.written (h : TermStart start s) (hstore : ∀ x ∈ s.store, x.ts ≤ start) :
    Written start s where
  keys i hi := absurd (h.idle i) hi
  covered := by simp [h.history]
  versions x hx := .inl (hstore x hx)

omit [Fintype ι] in
/-- The conflict set of a call keeps covering its sub-commands. -/
theorem Written.keys_step (hW : Written start s) (hs : s.SerialReads a) (h : s.step M a = some t)
    (hi : (t.calls i).phase ≠ .idle) : (t.calls i).txn.Covered := by
  have hstep := callStep_of_step h i
  generalize t.calls i = c at hstep hi ⊢
  cases hstep with
  | same => exact hW.keys i hi
  | beginTxn _ kind hp => exact fun sub hsub => absurd hsub (List.not_mem_nil)
  | read _ q env hp => exact (hW.keys i (by simp [hp])).read _ _ _
  | write _ op env p hp hk hp' => exact (hW.keys i (by simp [hp])).write _ _ hs.1
  | stamp _ readings ts tso hp hk hts hh => exact hW.keys i (by simp [hp])
  | move _ _ p d hn => exact hW.keys i hn.ne_idle.1

omit [Fintype ι] in
/-- Every step keeps what is written in the conflict sets. -/
theorem Written.step (hW : Written start s) (hR : Recorded start s) (hs : s.SerialReads a)
    (h : s.step M a = some t) : Written start t := by
  refine ⟨fun i hi => hW.keys_step hs h hi, ?_, fun x hx => ?_⟩
  · obtain heq | ⟨j, readings, ts, tso, -, hp, -, -, -, -, -, -, -, heq, -⟩ := history_step h
    · rw [heq]
      exact hW.covered
    · rw [heq]
      intro x hx
      rcases List.mem_append.mp hx with hx | hx
      · exact hW.covered x hx
      · obtain rfl := List.mem_singleton.mp hx
        exact hW.keys j (by simp [hp])
  · have hold : x ∈ s.store → x.ts ≤ start ∨ ∃ y ∈ t.history,
        y.ts = x.ts ∧ x.key ∈ y.conflictKeys := by
      intro hx
      rcases hW.versions x hx with hle | ⟨y, hy, hts⟩
      · exact .inl hle
      · exact .inr ⟨y, mem_history_step h hy, hts⟩
    obtain ⟨hstore, -⟩ | ⟨env, entry, -, hentry, happly, -, -, hhist, -⟩ := store_step h
    · exact hold (hstore ▸ hx)
    · rcases Fsm.mem_apply happly hx with ⟨hts, sub, hsub, hk⟩ | hx
      · -- A new version is at the timestamp of the entry, which is old or carries a recorded command.
        rw [hts, hhist]
        rcases hR.entries entry (List.mem_of_getElem? hentry) with ⟨-, hle⟩ | ⟨y, hy, hc⟩
        · exact .inl hle
        · exact .inr ⟨y, hy, hc.commitTs.symm, hW.covered y hy sub (hc.subCommands ▸ hsub) _ hk⟩
      · exact hold hx

/-! ## What lies between a read and its commit -/

omit [DecidableEq ι] [Fintype ι] in
/-- Between the read and the commit timestamp of a transaction, no other transaction has written a
key that one of its reads covers. -/
def Separated (s : Leader ι) : Prop :=
  ∀ h ∈ s.history, ∀ h' ∈ s.history, h.readTs < h'.ts → h'.ts < h.ts →
    ∀ x ∈ (s.calls h.call).readLog, ∀ k ∈ h'.conflictKeys, ¬x.1.Covers k

omit [DecidableEq ι] [Fintype ι] in
/-- At the start of a term there is no history. -/
theorem TermStart.separated (h : TermStart start s) : Separated s := by
  intro x hx
  simp [h.history] at hx

/-- A step that meets the condition keeps the transactions apart. -/
theorem Separated.step (hS : Separated s) (hI : OracleInv start s) (hR : Recorded start s)
    (hs : s.SerialReads a) (h : s.step M a = some t) : Separated t := by
  -- The calls of the old history make no more reads.
  have hkeep : ∀ x ∈ s.history, (t.calls x.call).readLog = (s.calls x.call).readLog :=
    fun x hx => (past_step h (hR.calls x hx).1).2.2.1
  obtain heq | ⟨j, readings, ts, tso, rfl, hp, hd, hts, -, hstamped, -, hlog, -, heq, -⟩ :=
    history_step h
  · intro x hx y hy
    rw [heq] at hx hy
    rw [hkeep x hx]
    exact hS x hx y hy
  · have hcommits : s.Commits j readings := by
      unfold Leader.step at h
      split_ifs at h
      exact ⟨t, h, hstamped⟩
    have hno := (Tso.newCommitTs_ok hts).1
    have hlt := Tso.lt_newCommitTs hs.allocatesForward hts
    intro x hx y hy hxy hyx
    rw [heq] at hx hy
    rcases List.mem_append.mp hx with hx | hx
    · rcases List.mem_append.mp hy with hy | hy
      · rw [hkeep x hx]
        exact hS x hx y hy hxy hyx
      · -- The new timestamp is above the old ones.
        obtain rfl := List.mem_singleton.mp hy
        have hold := hR.ts_le x hx
        rw [Txn.stamp_ts] at hyx
        omega
    · obtain rfl := List.mem_singleton.mp hx
      rcases List.mem_append.mp hy with hy | hy
      · -- The new transaction has no conflict, and its reads are registered.
        intro z hz k hk hcov
        rw [Txn.stamp_call, hlog] at hz
        have hreg := hs.2 hcommits y hy hxy k hk ⟨z, hz, hcov⟩
        have hconf := (hI.hasConflict_iff hp hd).mpr ⟨y, hy, hxy, k, hreg, hk⟩
        rw [hno] at hconf
        exact absurd hconf (by simp)
      · obtain rfl := List.mem_singleton.mp hy
        exact absurd hyx (lt_irrefl _)

/-! ## Serialisability -/

/-- What holds throughout a term whose steps meet the condition. -/
structure SerialInv (start : ℕ) (s : Leader ι) : Prop where
  /-- The oracle keeps its records. -/
  oracle : OracleInv start s
  /-- The answers of the reads stand. -/
  reads : ReadsHold s
  /-- The history is the record of the calls and the log. -/
  recorded : Recorded start s
  /-- The writes are in the conflict sets. -/
  written : Written start s
  /-- The transactions are apart. -/
  separated : Separated s

/-- The invariant holds in every state reached. -/
theorem serialInv_of_reaches (h₀ : TermStart start s) (hstore : ∀ x ∈ s.store, x.ts ≤ start)
    (h : Reaches (step M) SerialReads s t) : SerialInv start t := by
  apply h.invariant ⟨h₀.oracleInv, h₀.readsHold, h₀.recorded, h₀.written hstore, h₀.separated⟩
  intro u a v hI hs hstep
  exact ⟨hI.oracle.step hs.allocatesForward hstep, hI.reads.step hI.oracle hs hstep,
    hI.recorded.step hI.oracle hs.allocatesForward hstep, hI.written.step hI.recorded hs hstep,
    hI.separated.step hI.oracle hI.recorded hs hstep⟩

omit [DecidableEq ι] in
/-- No version of a covered key lies between the read and the commit timestamp. -/
theorem SerialInv.visible_eq (hI : SerialInv start s) {c : Stamp ι} (hc : c ∈ s.history)
    {x : Query × Env × Except Err Answer} (hx : x ∈ (s.calls c.call).readLog) {k : Key}
    (hk : x.1.Covers k) :
    Versions.visible s.store k (c.ts - 1) = Versions.visible s.store k c.readTs := by
  obtain ⟨hstart, hlt⟩ := hI.recorded.readTs_lt c hc
  apply Versions.visible_eq_of_gap (by omega)
  intro v hv hvk hvle
  rcases hI.written.versions v hv with hle | ⟨y, hy, hts, hkey⟩
  · omega
  · -- A version in between would be of another transaction of the history.
    by_contra hgt
    rw [hvk] at hkey
    exact hI.separated c hc y hy (by omega) (by omega) x hx k hkey hk

/-- In a term whose steps meet the condition, every read of a transaction that commits would return
the same just below its commit timestamp, in every state from then on. -/
theorem committed_reads_serializable (h₀ : TermStart start s)
    (hstore : ∀ x ∈ s.store, x.ts ≤ start) (h : Reaches (step M) SerialReads s t) {c : Stamp ι}
    (hc : c ∈ t.history) {q : Query} {env : Env} {answer : Except Err Answer}
    (hread : (q, env, answer) ∈ (t.calls c.call).readLog) :
    q.eval t.store env (c.ts - 1) = answer := by
  have hI := serialInv_of_reaches h₀ hstore h
  obtain ⟨hpast, hstamp⟩ := hI.recorded.calls c hc
  have hidle : (t.calls c.call).phase ≠ .idle := by
    intro hidle
    simp [Call.Past, Call.Unproposed, hidle] at hpast
  have hreadTs : (t.calls c.call).txn.readTs = c.readTs := congrArg Stamp.readTs hstamp
  have hanswer : q.eval t.store env (t.calls c.call).txn.readTs = answer :=
    hI.reads.answers c.call hidle _ hread
  rw [← hanswer, hreadTs]
  apply Query.eval_congr
  intro k hk
  exact Versions.newest_congr (hI.visible_eq hc hread hk)

/-! ## Two runs -/

instance : (op : WriteOp) → Decidable (∀ pre, op ≠ .deleteByPrefix pre)
  | .deleteByPrefix pre => isFalse fun h => h pre rfl
  | .incrBy .. | .decrBy .. | .set .. | .delete _ | .updateJson .. | .updateProtobuf ..
  | .addWriteKey _ => isTrue (by simp)

instance (s : Leader ι) (r : ℕ) : Decidable (s.SettledAt r) := inferInstanceAs (Decidable (_ ∧ _))

instance (s : Leader ι) (c : Call) : Decidable (s.RegistersReads c) :=
  inferInstanceAs (Decidable (∀ h ∈ s.history, _))

instance (s : Leader ι) : (a : Action ι) → Decidable (s.SettledReads a)
  | .waitOk i => inferInstanceAs (Decidable (s.SettledAt (s.calls i).txn.readTs))
  | .write _ _ _ => inferInstanceAs (Decidable (∀ _, _))
  | .commit _ readings => inferInstanceAs (Decidable (s.tso.toClock.Steady readings))
  | .beginTxn .. | .markRead _ | .waitErr _ | .read .. | .fail .. | .discard _ | .doneCommit _
  | .propose _ | .ack _ | .timeout _ | .apply _ | .saveBound _ => inferInstanceAs (Decidable True)

instance (s : Leader ι) (i : ι) (readings : List ℤ) : Decidable (s.Commits i readings) :=
  inferInstanceAs (Decidable (∃ t ∈ s.commit i readings, _))

instance (s : Leader ι) : (a : Action ι) → Decidable (s.SerialReads a)
  | .commit _ _ | .waitOk _ | .write _ _ _ => inferInstanceAs (Decidable (_ ∧ _))
  | .beginTxn .. | .markRead _ | .waitErr _ | .read .. | .fail .. | .discard _ | .doneCommit _
  | .propose _ | .ack _ | .timeout _ | .apply _ | .saveBound _ => inferInstanceAs (Decidable (True ∧ True))

/-- One call reads a key that is there and writes another, while a second call writes a third. -/
def disjointCalls : List (Action Two) :=
  List.flatten
    [beginCall .first .transaction, [.read .first (.get [1]) someEnv], beginCall .second .transaction,
      [.write .second (.set [3] [9] none) someEnv, .commit .second [1001], .doneCommit .second,
        .discard .second, .propose .second, .apply someEnv,
        .write .first (.set [2] [8] none) someEnv, .commit .first [1002]]]

/-- The leader after these calls. -/
def afterDisjointCalls : Leader Two :=
  final (guarded (step rejectDeltas) SerialReads) (serving clockAt1000 oneKey) disjointCalls
    (by decide +kernel)

/-- The read of the first call would return the same at its commit. -/
theorem committed_reads_serializable_disjoint :
    (Query.get [1]).eval afterDisjointCalls.store someEnv (TimeStamp.compose ⟨1002, 1⟩ - 1) =
      .ok (.value (some [7])) := by
  have hreach : Reaches (step rejectDeltas) SerialReads (serving clockAt1000 oneKey)
      afterDisjointCalls := Reaches.final _
  have hc : ((afterDisjointCalls.calls .first).txn.stamp .first (TimeStamp.compose ⟨1002, 1⟩)) ∈
      afterDisjointCalls.history := by decide
  exact committed_reads_serializable (termStart_serving clockAt1000 oneKey) (by decide) hreach hc
    (by decide)

/-- Two calls look for a key that is not there, and both write it. -/
def doubleInsert : List (Action Two) :=
  List.flatten
    [beginCall .first .transaction, beginCall .second .transaction,
      [.read .first (.get [2]) someEnv, .write .first (.set [2] [8] none) someEnv,
        .read .second (.get [2]) someEnv, .write .second (.set [2] [9] none) someEnv,
        .commit .first [1001], .doneCommit .first, .discard .first, .propose .first,
        .apply someEnv, .commit .second [1002]]]

/-- The leader after these calls. -/
def afterDoubleInsert : Leader Two :=
  final (guarded (step rejectDeltas) SettledReads) (serving clockAt1000 oneKey) doubleInsert
    (by decide +kernel)

/-- Both calls commit. The second has found no key, and would find the value of the first just below
its commit timestamp. -/
theorem committed_reads_not_serializable :
    Reaches (step rejectDeltas) SettledReads (serving clockAt1000 oneKey) afterDoubleInsert ∧
      ((afterDoubleInsert.calls .second).txn.stamp .second (TimeStamp.compose ⟨1002, 1⟩)) ∈
        afterDoubleInsert.history ∧
      (Query.get [2], someEnv, .ok (.value none)) ∈ (afterDoubleInsert.calls .second).readLog ∧
      (Query.get [2]).eval afterDoubleInsert.store someEnv (TimeStamp.compose ⟨1002, 1⟩ - 1) =
        .ok (.value (some [8])) :=
  ⟨Reaches.final _, by decide, by decide, by decide⟩

end Leader

end Omashu
