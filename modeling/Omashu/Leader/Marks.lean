import Mathlib.Data.Fintype.Option
import Omashu.Leader.Serving

/-!
# The calls of `Begin` and `Done`

A watermark terminates the process when it is given an index below its bound. `markCalls` are the calls
that a step of the leader makes, and `exited_step_iff` says that apart from an entry that cannot be applied
they are what a process terminates from.

The program does not keep them above the bounds (`markCalls_below`). `ReadTs` gives up its lock before it
calls `readMark.Begin`, so a later transaction may begin and end in between. And `StartServing` moves the
bounds of both watermarks to the first timestamp of the term, while a transaction of an earlier term still
has a `Done` to come.

Both are excluded where calls are admitted only while the oracle serves, the node is replaced as the leader
only after they have run `Discard`, and no pending read is done while a call with a smaller read timestamp
has not marked its own. Then the calls stay at or above the bounds (`markCalls_ge_doneUntil`): the bound of
the pending reads never passes the timestamp of a call before its `Begin`, nor one that is held, and the
bound of the pending commits never passes the current timestamp.
-/

namespace Omashu

open Lib

/-- The watermarks of the oracle. -/
inductive Mark
  /-- `readMark`. -/
  | read
  /-- `txnMark`. -/
  | txn
  deriving DecidableEq

/-- A call of `Begin` or `Done`. -/
structure MarkCall where
  /-- The watermark. -/
  mark : Mark
  index : ℕ
  deriving DecidableEq

/-- A call between the critical section of `ReadTs` and the end of its `Discard`. -/
def Phase.InUse : Phase → Prop
  | .recorded | .begun | .running | .stamped | .leaving _ => True
  | _ => False

instance : (p : Phase) → Decidable p.InUse
  | .recorded | .begun | .running | .stamped | .leaving _ => isTrue trivial
  | .idle | .ready | .proposed | .returned _ => isFalse id

namespace Tso

/-- One of the watermarks. -/
def mark (tso : Tso) : Mark → WaterMark
  | .read => tso.readMark
  | .txn => tso.txnMark

/-- The call that `doneRead` makes. -/
def doneReadCalls (tso : Tso) (readTs : ℕ) : List MarkCall :=
  if readTs ∈ tso.readers then [⟨.read, readTs⟩] else []

/-- The index of the call is below the bound. -/
def Below (tso : Tso) (x : MarkCall) : Prop := x.index < (tso.mark x.mark).doneUntil

instance (tso : Tso) (x : MarkCall) : Decidable (tso.Below x) := inferInstanceAs (Decidable (_ < _))

variable {tso : Tso} {readTs : ℕ}

/-- `doneRead` terminates the process if its call is below the bound. -/
theorem doneRead_eq_none_iff :
    tso.doneRead readTs = none ↔ ∃ x ∈ tso.doneReadCalls readTs, tso.Below x := by
  unfold doneRead doneReadCalls
  split_ifs with h
  · simp [WaterMark.doneMark, WaterMark.mark_eq_none_iff, Below, mark]
  · simp

/-- The calls that `newCommitTs` makes where it finds no conflict. -/
def newCommitTsCalls (tso : Tso) (readTs : ℕ) (readings : List ℤ) : List MarkCall :=
  tso.doneReadCalls readTs ++
    (tso.toClock.allocate readings).toList.map fun c => ⟨.txn, c.current.compose⟩

/-- `newCommitTs` terminates the process if there is no conflict and one of its calls is below its
bound. -/
theorem newCommitTs_eq_terminated_iff {txn : Txn} {readings : List ℤ} :
    tso.newCommitTs txn readings = .terminated ↔
      tso.hasConflict txn = false ∧ ∃ x ∈ tso.newCommitTsCalls txn.readTs readings, tso.Below x := by
  unfold newCommitTs newCommitTsCalls
  split_ifs with hc
  · simp [hc]
  cases hd : tso.doneRead txn.readTs with
  | none =>
    obtain ⟨x, hx, hbelow⟩ := doneRead_eq_none_iff.mp hd
    simpa [hc] using ⟨x, .inl hx, hbelow⟩
  | some tso₁ =>
    have hread : ¬∃ x ∈ tso.doneReadCalls txn.readTs, tso.Below x := by
      rw [← doneRead_eq_none_iff, hd]
      simp
    -- Neither `doneRead` nor the cleanup touches the clock and the pending commits.
    obtain ⟨hclock, htxn, -, -⟩ := cleanup_frame tso₁
    have hsame : tso₁.toClock = tso.toClock ∧ tso₁.txnMark = tso.txnMark := by
      obtain ⟨-, m, -, rfl⟩ | ⟨-, rfl⟩ := doneRead_cases hd
      · exact ⟨rfl, rfl⟩
      · exact ⟨rfl, rfl⟩
    dsimp only
    rw [hclock, htxn, hsame.1, hsame.2]
    cases ha : tso.toClock.allocate readings with
    | none => simpa [hc] using hread
    | some c =>
      have hiff : (∃ x ∈ tso.doneReadCalls txn.readTs ++ [⟨.txn, c.current.compose⟩], tso.Below x) ↔
          tso.txnMark.beginMark c.current.compose = none := by
        rw [WaterMark.beginMark, WaterMark.mark_eq_none_iff]
        simp only [List.mem_append, List.mem_singleton, or_and_right, exists_or, hread, false_or,
          exists_eq_left]
        rfl
      simp only [Option.toList_some, List.map_cons, List.map_nil, hiff]
      cases hm : tso.txnMark.beginMark c.current.compose with
      | none => simpa using hc
      | some m => simp

end Tso

namespace Leader

variable {ι : Type*} [DecidableEq ι]

/-- `Commit` gets to `newCommitTs`, which finds no conflict. -/
def Allocates (s : Leader ι) (i : ι) : Prop :=
  (s.calls i).phase = .running ∧
    ¬((s.calls i).kind = .single ∧ (s.calls i).txn.subCommands = []) ∧
    (s.calls i).txn.discarded = false ∧
    ¬((s.calls i).txn.writes = [] ∧ (s.calls i).txn.subCommands = []) ∧
    (s.calls i).txn.subCommands.length ≤ MaxBatchSize ∧ s.writeChLock = none ∧
    s.tso.hasConflict (s.calls i).txn = false

instance (s : Leader ι) (i : ι) : Decidable (s.Allocates i) := inferInstanceAs (Decidable (_ ∧ _))

/-- The calls of `Begin` and `Done` in a step. -/
def markCalls (s : Leader ι) : Action ι → List MarkCall
  | .markRead i =>
    if (s.calls i).phase = .recorded then [⟨.read, (s.calls i).txn.readTs⟩] else []
  | .waitErr i =>
    if (s.calls i).phase = .begun then [⟨.read, (s.calls i).txn.readTs⟩] else []
  | .discard i =>
    if (phaseAfterDiscard (s.calls i)).isSome ∧ (s.calls i).txn.discarded = false then
      s.tso.doneReadCalls (s.calls i).txn.readTs
    else []
  | .commit i readings =>
    if s.Allocates i then s.tso.newCommitTsCalls (s.calls i).txn.readTs readings else []
  | .doneCommit i =>
    if (s.calls i).phase = .stamped then [⟨.txn, (s.calls i).txn.commitTs⟩] else []
  | _ => []

variable {M : Merge} {s t : Leader ι} {i : ι}

omit [DecidableEq ι] in
/-- The calls are made for a transaction in use. -/
theorem inUse_of_mem_markCalls {a : Action ι} {x : MarkCall} (hx : x ∈ s.markCalls a) :
    ∃ i, (s.calls i).phase.InUse := by
  cases a with
  | markRead i | waitErr i | doneCommit i =>
    simp only [markCalls] at hx
    split_ifs at hx with hp
    · exact ⟨i, by rw [hp]; trivial⟩
    · cases hx
  | discard i =>
    simp only [markCalls] at hx
    split_ifs at hx with hp
    · refine ⟨i, ?_⟩
      obtain ⟨p, hphase⟩ := Option.isSome_iff_exists.mp hp.1
      obtain ⟨hp, -⟩ | ⟨hp, -⟩ | ⟨e, hp, -⟩ := phaseAfterDiscard_cases hphase
      all_goals
        rw [hp]
        trivial
    · cases hx
  | commit i readings =>
    simp only [markCalls] at hx
    split_ifs at hx with hp
    · exact ⟨i, by rw [hp.1]; trivial⟩
    · cases hx
  | _ => cases hx

/-! ## The calls are what a process terminates from -/

/-- `Commit` fails before it gets to `newCommitTs` or in its conflict check, or it allocates. -/
theorem commit_cases {readings : List ℤ} (h : s.commit i readings = some t) :
    ¬s.Allocates i ∧ (s.calls i).phase = .running ∧ (∃ e, t = s.setPhase i (.leaving (.failed e))) ∨
      s.Allocates i ∧ (s.tso.newCommitTs (s.calls i).txn readings = .terminated ∧ t = s.terminate ∨
        ∃ ts tso, s.tso.newCommitTs (s.calls i).txn readings = .ok ts tso ∧
          t = { s.setCall i { s.calls i with
              phase := .stamped
              txn := { (s.calls i).txn with commitTs := ts } } with
            tso
            writeChLock := some i
            history := s.history ++ [(s.calls i).txn.stamp i ts] }) := by
  unfold commit at h
  dsimp only at h
  by_cases hp : (s.calls i).phase ≠ .running ∨ (s.calls i).kind = .single ∧ (s.calls i).txn.subCommands = []
  · rw [if_pos hp] at h
    cases h
  rw [if_neg hp] at h
  push Not at hp
  split_ifs at h with hd hw hb hl
  · exact .inl ⟨fun ha => by simp [ha.2.2.1] at hd, hp.1, _, (Option.some.inj h).symm⟩
  · exact .inl ⟨fun ha => ha.2.2.2.1 hw, hp.1, _, (Option.some.inj h).symm⟩
  · exact .inl ⟨fun ha => not_lt.mpr ha.2.2.2.2.1 hb, hp.1, _, (Option.some.inj h).symm⟩
  · have hallocates (hc : s.tso.hasConflict (s.calls i).txn = false) : s.Allocates i :=
      ⟨hp.1, fun hk => hp.2 hk.1 hk.2, by simpa using hd, hw, not_lt.mp hb, by simpa using hl, hc⟩
    split at h
    next hres =>
      refine .inl ⟨fun ha => ?_, hp.1, _, (Option.some.inj h).symm⟩
      have hc := ha.2.2.2.2.2.2
      rw [Tso.newCommitTs_eq_conflict_iff.mp hres] at hc
      cases hc
    next => cases h
    next hres =>
      have hc := (Tso.newCommitTs_eq_terminated_iff.mp hres).1
      exact .inr ⟨hallocates hc, .inl ⟨hres, (Option.some.inj h).symm⟩⟩
    next ts tso hres =>
      have hc := (Tso.newCommitTs_ok hres).1
      exact .inr ⟨hallocates hc, .inr ⟨ts, tso, hres, (Option.some.inj h).symm⟩⟩

/-- A commit. -/
theorem exited_commit_iff {readings : List ℤ} (h : s.commit i readings = some t)
    (hexited : s.exited = false) :
    t.exited = true ↔ ∃ x ∈ s.markCalls (.commit i readings), s.tso.Below x := by
  have hiff : s.tso.newCommitTs (s.calls i).txn readings = .terminated ↔
      s.tso.hasConflict (s.calls i).txn = false ∧
        ∃ x ∈ s.tso.newCommitTsCalls (s.calls i).txn.readTs readings, s.tso.Below x :=
    Tso.newCommitTs_eq_terminated_iff
  obtain ⟨ha, -, e, rfl⟩ | ⟨ha, hres⟩ := commit_cases h
  · simp [setPhase, setCall, hexited, markCalls, ha]
  · rw [markCalls, if_pos ha]
    simp only [ha.2.2.2.2.2.2, true_and] at hiff
    obtain ⟨hres, rfl⟩ | ⟨ts, tso, hres, rfl⟩ := hres
    · exact iff_of_true rfl (hiff.mp hres)
    · rw [hres] at hiff
      simpa [setCall, hexited] using hiff

omit [DecidableEq ι] in
/-- A step that makes one call terminates the process if the watermark refuses the call. -/
theorem exited_mark_iff {k : Mark} {index : ℕ} {d : ℤ}
    (h : (s.tso.mark k).mark index d = none ∧ t = s.terminate ∨
      ∃ m, (s.tso.mark k).mark index d = some m ∧ t.exited = false) :
    t.exited = true ↔ ∃ x ∈ [(⟨k, index⟩ : MarkCall)], s.tso.Below x := by
  have hbelow : (∃ x ∈ [(⟨k, index⟩ : MarkCall)], s.tso.Below x) ↔ (s.tso.mark k).mark index d = none := by
    simp [Tso.Below, WaterMark.mark_eq_none_iff]
  rw [hbelow]
  obtain ⟨hm, rfl⟩ | ⟨m, hm, hexited⟩ := h
  · exact ⟨fun _ => hm, fun _ => rfl⟩
  · simp [hm, hexited]

/-- The end of a transaction. -/
theorem exited_discard_iff (h : s.discard i = some t) (hexited : s.exited = false) :
    t.exited = true ↔ ∃ x ∈ s.markCalls (.discard i), s.tso.Below x := by
  unfold discard at h
  cases hp : phaseAfterDiscard (s.calls i) with
  | none => simp [hp] at h
  | some p =>
    have hiff : s.discardRead i = none ↔ ∃ x ∈ s.markCalls (.discard i), s.tso.Below x := by
      rw [markCalls, hp, discardRead]
      by_cases hd : (s.calls i).txn.discarded = true
      · simp [hd]
      · simp [hd, Tso.doneRead_eq_none_iff]
    rw [← hiff]
    cases ht : s.discardRead i with
    | none =>
      simp only [hp, ht] at h
      obtain rfl := Option.some.inj h
      exact ⟨fun _ => rfl, fun _ => rfl⟩
    | some tso =>
      simp only [hp, ht] at h
      obtain rfl := Option.some.inj h
      simpa [setCall] using hexited

/-- A step terminates the process if one of its calls is below the bound of its watermark, and otherwise
only if it applies an entry. -/
theorem exited_step_iff {a : Action ι} (h : s.step M a = some t) (ha : ∀ env, a ≠ .apply env) :
    t.exited = true ↔ ∃ x ∈ s.markCalls a, s.tso.Below x := by
  unfold step at h
  split_ifs at h with hexited
  have hexited : s.exited = false := by simpa using hexited
  -- A step without a call of a watermark.
  have hnone (heq : t.exited = s.exited) (hcalls : s.markCalls a = []) :
      t.exited = true ↔ ∃ x ∈ s.markCalls a, s.tso.Below x := by
    simp [heq, hexited, hcalls]
  cases a with
  | markRead i =>
    simp only [markRead] at h
    split_ifs at h with hp
    rw [markCalls, if_pos hp]
    refine exited_mark_iff (d := 1) ?_
    split at h
    next hm => exact .inl ⟨hm, (Option.some.inj h).symm⟩
    next m hm =>
      obtain rfl := Option.some.inj h
      exact .inr ⟨m, hm, hexited⟩
  | waitErr i | doneCommit i =>
    simp only [waitErr, doneCommit] at h
    split_ifs at h with hp
    rw [markCalls, if_pos hp]
    refine exited_mark_iff (d := -1) ?_
    split at h
    next hm => exact .inl ⟨hm, (Option.some.inj h).symm⟩
    next m hm =>
      obtain rfl := Option.some.inj h
      exact .inr ⟨m, hm, hexited⟩
  | discard i => exact exited_discard_iff h hexited
  | commit i readings => exact exited_commit_iff h hexited
  | apply env => exact absurd rfl (ha env)
  | saveBound upperBound =>
    obtain rfl := Option.some.inj h
    exact hnone rfl rfl
  | _ =>
    simp only [beginTxn, waitOk, read, write, fail, propose, finish] at h
    repeat' split at h
    all_goals first
      | obtain rfl := Option.some.inj h
        exact hnone rfl rfl
      | cases h

/-! ## The bounds while the oracle serves -/

/-- The clock allows the allocation of a commit to move forward. -/
def SteadyClock (s : Leader ι) : Action ι → Prop
  | .commit _ readings => s.tso.toClock.Steady readings
  | _ => True

instance (s : Leader ι) : (a : Action ι) → Decidable (s.SteadyClock a)
  | .commit _ readings => inferInstanceAs (Decidable (s.tso.toClock.Steady readings))
  | .beginTxn .. | .markRead _ | .waitOk _ | .waitErr _ | .read .. | .write .. | .fail ..
  | .discard _ | .doneCommit _ | .propose _ | .ack _ | .timeout _ | .apply _ | .saveBound _ =>
    isTrue trivial

omit [DecidableEq ι] in
/-- With such a clock the timestamps increase. -/
theorem SteadyClock.allocatesForward {a : Action ι} (h : s.SteadyClock a) : s.AllocatesForward a := by
  cases a with
  | commit i readings => exact Clock.Steady.advances h
  | _ => trivial

/-- A pending read is given back only while every call that is to mark its own has a read timestamp that is
not smaller. -/
def InOrder (s : Leader ι) (a : Action ι) : Prop :=
  ∀ i ∈ a.givesBack, (s.calls i).holds = true → ∀ j, (s.calls j).phase = .recorded →
    (s.calls i).txn.readTs ≤ (s.calls j).txn.readTs

instance [Fintype ι] (s : Leader ι) (a : Action ι) : Decidable (s.InOrder a) :=
  inferInstanceAs (Decidable (∀ i ∈ a.givesBack, _))

variable [Fintype ι]

/-- What the watermarks keep while the oracle serves. -/
structure MarksInv (s : Leader ι) : Prop extends ReadsCounted s where
  /-- The bound of the pending reads does not get above the current timestamp. -/
  readMark : s.tso.readMark.Within (· ≤ s.tso.currentReadTs)
  /-- Nor does it get above the read timestamp of a call before its `Begin`. -/
  recorded : ∀ i, (s.calls i).phase = .recorded →
    s.tso.readMark.Within (· ≤ (s.calls i).txn.readTs)
  /-- The bound of the pending commits does not get above the current timestamp. -/
  txnMark : s.tso.txnMark.Within (· ≤ s.tso.currentReadTs)
  /-- A call before `DoneCommit` has the lock, and its commit is pending. -/
  stamped : ∀ i, (s.calls i).phase = .stamped → s.writeChLock = some i ∧
    0 < s.tso.txnMark.count (s.calls i).txn.commitTs ∧
    (s.calls i).txn.commitTs ≤ s.tso.currentReadTs

omit [DecidableEq ι] in
/-- After `SetDoneUntil` of both watermarks, with no transaction open. -/
theorem marksInv_of_quiet (hquiet : ∀ i, ¬(s.calls i).phase.InUse)
    (hread : s.tso.readMark = WaterMark.setDoneUntil s.tso.currentReadTs)
    (htxn : s.tso.txnMark = WaterMark.setDoneUntil s.tso.currentReadTs) : s.MarksInv := by
  have hrecorded : ∀ i, (s.calls i).phase ≠ .recorded := fun i hi => hquiet i (by rw [hi]; trivial)
  have hflight : ∀ i, ¬(s.calls i).InFlight := by
    rintro i (hi | hi)
    · exact hrecorded i hi
    · apply hquiet i
      unfold Call.holds at hi
      split at hi
      next hp => rw [hp]; trivial
      next hp => rw [hp]; trivial
      next e hp => rw [hp]; trivial
      next => cases hi
  have hrel : ∀ i, ¬(s.calls i).Released := by
    rintro i (hi | hi)
    · exact hquiet i (by rw [hi]; trivial)
    · exact hquiet i (by rw [hi]; trivial)
  exact {
    toReadsCounted := readsCounted_of_quiet hflight hrel hread
    readMark := hread ▸ WaterMark.within_setDoneUntil le_rfl
    recorded := fun i hi => absurd hi (hrecorded i)
    txnMark := htxn ▸ WaterMark.within_setDoneUntil le_rfl
    stamped := fun i hi => absurd (.inl hi) (hrel i) }

omit [DecidableEq ι] in
/-- The calls of a step are at or above the bounds. -/
theorem MarksInv.not_below {a : Action ι} (h : s.MarksInv) (hf : s.AllocatesForward a) {x : MarkCall}
    (hx : x ∈ s.markCalls a) : ¬s.tso.Below x := by
  apply not_lt.mpr
  -- A read that is done is held.
  have hdone : ∀ i, ((s.calls i).txn.readTs ∈ s.tso.readers → (s.calls i).holds = true) →
      x ∈ s.tso.doneReadCalls (s.calls i).txn.readTs → (s.tso.mark x.mark).doneUntil ≤ x.index := by
    intro i hi hx
    unfold Tso.doneReadCalls at hx
    split_ifs at hx with hr
    · obtain rfl := List.mem_singleton.mp hx
      exact h.doneUntil_le (hi hr)
    · cases hx
  cases a with
  | markRead i =>
    simp only [markCalls] at hx
    split_ifs at hx with hp
    · obtain rfl := List.mem_singleton.mp hx
      exact (h.recorded i hp).doneUntil
    · cases hx
  | waitErr i =>
    simp only [markCalls] at hx
    split_ifs at hx with hp
    · obtain rfl := List.mem_singleton.mp hx
      exact h.doneUntil_le (by simp [Call.holds, hp])
    · cases hx
  | discard i =>
    simp only [markCalls] at hx
    split_ifs at hx with hp
    · obtain ⟨p, hp'⟩ := Option.isSome_iff_exists.mp hp.1
      exact hdone i (h.holds_of_discard hp' hp.2) hx
    · cases hx
  | commit i readings =>
    simp only [markCalls] at hx
    split_ifs at hx with hp
    · rcases List.mem_append.mp hx with hx | hx
      · exact hdone i (fun _ => by simp [Call.holds, hp.1, hp.2.2.1]) hx
      · obtain ⟨c, hc, rfl⟩ := List.mem_map.mp hx
        have hlt := hf c (Option.mem_toList.mp hc)
        exact (h.txnMark.doneUntil).trans (le_of_lt hlt)
    · cases hx
  | doneCommit i =>
    simp only [markCalls] at hx
    split_ifs at hx with hp
    · obtain rfl := List.mem_singleton.mp hx
      exact WaterMark.doneUntil_le_of_count_pos (h.stamped i hp).2.1
    · cases hx
  | _ => cases hx

/-! ## What a step does to the pending commits -/

omit [DecidableEq ι] [Fintype ι] in
/-- No call moves on to the phase before `Begin` or the one before `DoneCommit`. -/
theorem Next.ne_recorded_stamped {p p' : Phase} (h : Next p p') : p' ≠ .recorded ∧ p' ≠ .stamped := by
  cases h <;> simp

omit [DecidableEq ι] [Fintype ι] in
/-- A call that moves on is in use only where it was. -/
theorem Next.inUse {p p' : Phase} (h : Next p p') (hp : p'.InUse) : p.InUse := by
  cases h with
  | markRead | waitOk | discarded | failed | doneCommit => trivial
  | _ => exact absurd hp id

omit [Fintype ι] in
/-- A call is before `Begin` after a step if it was there, or takes the current timestamp. -/
theorem recorded_step {a : Action ι} (h : s.step M a = some t) {j : ι}
    (hj : (t.calls j).phase = .recorded) :
    (s.calls j).phase = .recorded ∧ (t.calls j).txn.readTs = (s.calls j).txn.readTs ∨
      (t.calls j).txn.readTs = t.tso.currentReadTs := by
  have hcall := callStep_of_step h j
  generalize t.calls j = c at hcall hj ⊢
  cases hcall with
  | same => exact .inl ⟨hj, rfl⟩
  | beginTxn _ kind hp =>
    refine .inr ?_
    cases effect_of_step h <;> rfl
  | read _ q env hp => simp [hp] at hj
  | write _ op env p hp hk hp' => rcases hp' with rfl | ⟨e, rfl⟩ <;> simp [hp] at hj
  | stamp _ readings ts tso hp hk hts hh => simp at hj
  | move _ _ p d hnext hw hd hr => exact absurd hj hnext.ne_recorded_stamped.1

omit [Fintype ι] in
/-- A call is before `DoneCommit` after a step if it was there, or gets its commit timestamp. -/
theorem stamped_step {a : Action ι} (h : s.step M a = some t) {j : ι}
    (hj : (t.calls j).phase = .stamped) :
    (s.calls j).phase = .stamped ∧ (t.calls j).txn.commitTs = (s.calls j).txn.commitTs ∨
      ∃ readings, a = .commit j readings ∧ t.history ≠ s.history := by
  have hcall := callStep_of_step h j
  generalize t.calls j = c at hcall hj ⊢
  cases hcall with
  | same => exact .inl ⟨hj, rfl⟩
  | beginTxn _ kind hp => simp at hj
  | read _ q env hp => simp [hp] at hj
  | write _ op env p hp hk hp' => rcases hp' with rfl | ⟨e, rfl⟩ <;> simp [hp] at hj
  | stamp _ readings ts tso hp hk hts hh => exact .inr ⟨readings, rfl, by simp [hh]⟩
  | move _ _ p d hnext hw hd hr => exact absurd hj hnext.ne_recorded_stamped.2

omit [Fintype ι] in
/-- The pending commits change with a commit and with `DoneCommit`. -/
theorem txnMark_step {a : Action ι} (h : s.step M a = some t) :
    (t.tso.txnMark = s.tso.txnMark ∧ t.writeChLock = s.writeChLock ∧ t.history = s.history) ∨
    (∃ i readings, a = .commit i readings ∧ s.writeChLock = none ∧ t.writeChLock = some i ∧
      s.tso.toClock.allocate readings = some t.tso.toClock ∧
      (t.calls i).txn.commitTs = t.tso.currentReadTs ∧
      s.tso.txnMark.beginMark t.tso.currentReadTs = some t.tso.txnMark) ∨
    ∃ i, (s.calls i).phase = .stamped ∧ (t.calls i).phase ≠ .stamped ∧ t.history = s.history ∧
      s.tso.txnMark.doneMark (s.calls i).txn.commitTs = some t.tso.txnMark := by
  cases effect_of_step h with
  | stamp i readings ts tso hp hk hd hl hts =>
    obtain ⟨-, -, -, hclock, hcur, hmark, -⟩ := Tso.newCommitTs_ok hts
    have hcur : ts = tso.currentReadTs := hcur
    refine .inr (.inl ⟨i, readings, rfl, hl, rfl, hclock, by simpa [setCall] using hcur, ?_⟩)
    rw [hcur] at hmark
    exact hmark
  | doneCommit i m hp hm => exact .inr (.inr ⟨i, hp, by simp [setPhase, setCall], rfl, hm⟩)
  | discard i p tso hp ht =>
    refine .inl ⟨?_, rfl, rfl⟩
    unfold discardRead at ht
    split_ifs at ht
    · obtain rfl := Option.some.inj ht
      rfl
    · obtain ⟨-, m, -, rfl⟩ | ⟨-, rfl⟩ := Tso.doneRead_cases ht <;> rfl
  | _ => exact .inl ⟨rfl, rfl, rfl⟩

/-- The bound of the pending reads after a step stays within what the given-back timestamps are in. -/
theorem MarksInv.readMark_within {a : Action ι} {E : ℕ → Prop} (h : s.MarksInv)
    (hs : s.step M a = some t) (hE : s.tso.readMark.Within E)
    (hback : ∀ i ∈ a.givesBack, (s.calls i).holds = true → E (s.calls i).txn.readTs) :
    t.tso.readMark.Within E := by
  rcases h.readMark_step hs with heq | ⟨i, hm⟩ | ⟨i, hi, hheld, -, hm⟩
  · rw [heq]
    exact hE
  · exact hE.mark (.inl one_pos) hm
  · exact hE.mark (.inr (hback i hi hheld)) hm

/-- The pending commits after a step. -/
theorem MarksInv.txnMark_within {a : Action ι} (h : s.MarksInv) (hf : s.AllocatesForward a)
    (hs : s.step M a = some t) : t.tso.txnMark.Within (· ≤ t.tso.currentReadTs) := by
  have hmono : s.tso.txnMark.Within (· ≤ t.tso.currentReadTs) :=
    h.txnMark.mono fun _ hj => hj.trans (current_step hf hs)
  rcases txnMark_step hs with ⟨heq, -, -⟩ | ⟨i, -, -, -, -, -, -, hm⟩ | ⟨i, hi, -, -, hm⟩
  · rw [heq]
    exact hmono
  · exact hmono.mark (.inl one_pos) hm
  · exact hmono.mark (.inr ((h.stamped i hi).2.2.trans (current_step hf hs))) hm

/-- The calls before `DoneCommit` after a step: there is at most one, as it has the lock. -/
theorem MarksInv.stamped_after {a : Action ι} (h : s.MarksInv) (hf : s.AllocatesForward a)
    (hs : s.step M a = some t) (j : ι) (hj : (t.calls j).phase = .stamped) :
    t.writeChLock = some j ∧ 0 < t.tso.txnMark.count (t.calls j).txn.commitTs ∧
      (t.calls j).txn.commitTs ≤ t.tso.currentReadTs := by
  have hcur := current_step hf hs
  rcases txnMark_step hs with ⟨hmark, hlock, hhist⟩ | ⟨i, readings, rfl, hnone, hlock, hclock, hts, hm⟩ |
    ⟨i, hi, hnot, hhist, -⟩
  · rcases stamped_step hs hj with ⟨hold, hts⟩ | ⟨readings, -, hne⟩
    · obtain ⟨h1, h2, h3⟩ := h.stamped j hold
      rw [hlock, hmark, hts]
      exact ⟨h1, h2, h3.trans hcur⟩
    · exact absurd hhist hne
  · rcases stamped_step hs hj with ⟨hold, -⟩ | ⟨readings', ha', -⟩
    · exact absurd ((h.stamped j hold).1.symm.trans hnone) (by simp)
    · obtain ⟨rfl, -⟩ := Action.commit.inj ha'
      have hlt : s.tso.currentReadTs < t.tso.currentReadTs := hf _ hclock
      have hcount := h.txnMark.count_nonneg (not_le.mpr hlt)
      refine ⟨hlock, ?_, le_of_eq hts⟩
      rw [hts, WaterMark.count_mark hm (by simp; omega)]
      simp
      omega
  · rcases stamped_step hs hj with ⟨hold, -⟩ | ⟨readings, -, hne⟩
    · have hsame := (h.stamped i hi).1.symm.trans (h.stamped j hold).1
      obtain rfl := Option.some.inj hsame
      exact absurd hj hnot
    · exact absurd hhist hne

/-- One step. -/
theorem MarksInv.step {a : Action ι} (h : s.MarksInv) (hf : s.AllocatesForward a) (ho : s.InOrder a)
    (hs : s.step M a = some t) : t.MarksInv := by
  have hcur := current_step hf hs
  have hread : t.tso.readMark.Within (· ≤ t.tso.currentReadTs) := by
    refine h.readMark_within hs (h.readMark.mono fun _ hj => hj.trans hcur) fun i _ hi => ?_
    exact (h.inFlight i (.inr hi)).trans hcur
  refine ⟨h.toReadsCounted.step hf hs, hread, ?_, h.txnMark_within hf hs, h.stamped_after hf hs⟩
  intro j hj
  rcases recorded_step hs hj with ⟨hold, heq⟩ | heq
  · rw [heq]
    exact h.readMark_within hs (h.recorded j hold) fun i hi hheld => ho i hi hheld j hold
  · rw [heq]
    exact hread

end Leader

namespace Server

variable {ι : Type*} [DecidableEq ι] [Fintype ι]

/-- A call on its way from the check of `isLeader` to the end of its `Discard`. -/
def InUse (s : Server ι) (i : ι) : Prop := s.admitted i = true ∨ (s.leader.calls i).phase.InUse

omit [DecidableEq ι] [Fintype ι] in
instance (s : Server ι) (i : ι) : Decidable (s.InUse i) := inferInstanceAs (Decidable (_ ∨ _))

/-- Calls are admitted only while the oracle serves, this node is replaced as the leader only while no call
is on its way to the end of its `Discard`, the clock is steady, and no pending read is given back before a
smaller one is marked. -/
def Orderly (nodeId : ℕ) (s : Server ι) : ServerAction ι → Prop
  | .isLeader _ => s.serving = true
  | .leaderChange newLeader => s.lead = nodeId → newLeader ≠ nodeId → ∀ i, ¬s.InUse i
  | .call a => s.leader.SteadyClock a ∧ s.leader.InOrder a
  | _ => True

instance (nodeId : ℕ) (s : Server ι) : (a : ServerAction ι) → Decidable (s.Orderly nodeId a)
  | .isLeader _ => inferInstanceAs (Decidable (s.serving = true))
  | .leaderChange _ => inferInstanceAs (Decidable (s.lead = nodeId → _))
  | .call _ => inferInstanceAs (Decidable (_ ∧ _))
  | .initMarks | .load _ | .persist _ | .persisted | .startFailed | .close | .follow .. => isTrue trivial

/-- What holds under the condition. -/
structure MarksKept (nodeId : ℕ) (s : Server ι) : Prop where
  /-- A call is on its way only while the node is the leader and its oracle serves. -/
  inUse : ∀ i, s.InUse i → s.serving = true ∧ s.lead = nodeId
  /-- `Close` is called when another leader is published. -/
  lost : s.handler = .lost → s.lead ≠ nodeId
  /-- The node is the leader while it starts to serve. -/
  starting : s.handler ≠ .idle → s.handler ≠ .lost → s.lead = nodeId
  /-- It does not start to serve while it serves. -/
  serving : s.serving = true → s.handler = .lost ∨ s.handler = .idle ∧ s.lead = nodeId
  /-- The watermarks while the oracle serves. -/
  marks : s.serving = true → s.leader.MarksInv

variable {M : Merge} {nodeId : ℕ} {s t : Server ι}

omit [DecidableEq ι] in
/-- No call is on its way while the node starts to serve. -/
theorem MarksKept.not_serving (h : s.MarksKept nodeId) (hidle : s.handler ≠ .idle)
    (hlost : s.handler ≠ .lost) : s.serving = false := by
  cases hs : s.serving with
  | false => rfl
  | true =>
    rcases h.serving hs with hl | ⟨hi, -⟩
    · exact absurd hl hlost
    · exact absurd hi hidle

omit [DecidableEq ι] in
/-- A step of `StartServing` before its end. -/
theorem MarksKept.of_starting (h : s.MarksKept nodeId) (hidle : s.handler ≠ .idle)
    (hlost : s.handler ≠ .lost) (hcalls : t.leader.calls = s.leader.calls)
    (hadmitted : t.admitted = s.admitted) (hlead : t.lead = s.lead) (hserving : t.serving = s.serving)
    (hhandler : t.handler ≠ .lost) : t.MarksKept nodeId := by
  have hnot : t.serving = false := by rw [hserving, h.not_serving hidle hlost]
  refine ⟨?_, fun hl => absurd hl hhandler, ?_, fun hs => absurd hs (by simp [hnot]),
    fun hs => absurd hs (by simp [hnot])⟩
  · intro i hi
    unfold InUse at hi
    rw [hcalls, hadmitted] at hi
    rw [hserving, hlead]
    exact h.inUse i hi
  · intro _ _
    rw [hlead]
    exact h.starting hidle hlost

omit [DecidableEq ι] in
/-- The end of `StartServing`. -/
theorem MarksKept.persisted (h : s.MarksKept nodeId) (hidle : s.handler ≠ .idle)
    (hlost : s.handler ≠ .lost) (upperBound : ℤ) : (s.persisted upperBound).MarksKept nodeId := by
  have hnot := h.not_serving hidle hlost
  have hquiet : ∀ i, ¬s.InUse i := by
    intro i hi
    have hserving := (h.inUse i hi).1
    rw [hnot] at hserving
    exact absurd hserving (by simp)
  refine ⟨fun i hi => absurd hi (hquiet i), fun hl => absurd hl (by simp [Server.persisted]),
    fun hi => absurd rfl hi, fun _ => .inr ⟨rfl, h.starting hidle hlost⟩, fun _ => ?_⟩
  exact Leader.marksInv_of_quiet (fun i hi => hquiet i (.inr hi)) rfl rfl

omit [DecidableEq ι] in
/-- `handleLeaderChange`. No call is on its way, as the node was not the leader or by the condition. -/
theorem MarksKept.handleLeaderChange {newLeader : ℕ} (h : s.MarksKept nodeId) (hidle : s.handler = .idle)
    (hc : s.lead = nodeId → newLeader ≠ nodeId → ∀ i, ¬s.InUse i) :
    (s.handleLeaderChange nodeId newLeader).MarksKept nodeId := by
  unfold Server.handleLeaderChange
  split
  · exact h
  next hsame =>
    have hnone : ∀ i, ¬s.InUse i := by
      by_cases hlead : s.lead = nodeId
      · exact hc hlead fun heq => hsame (heq.trans hlead.symm)
      · exact fun i hi => hlead (h.inUse i hi).2
    refine ⟨fun i hi => absurd hi (hnone i), ?_, ?_, ?_, h.marks⟩
    · intro hlost hnew
      have hnew : newLeader = nodeId := hnew
      simp [hnew] at hlost
    · intro hi hl
      by_contra hne
      have hne : newLeader ≠ nodeId := hne
      by_cases hlead : s.lead = nodeId <;> simp [hne, hlead] at hi hl
    · intro hs
      -- A node that serves was the leader, so it is replaced.
      have hlead : s.lead = nodeId := by
        rcases h.serving hs with hl | ⟨-, hl⟩
        · rw [hidle] at hl
          cases hl
        · exact hl
      have hne : newLeader ≠ nodeId := fun heq => hsame (heq.trans hlead.symm)
      simp [hne, hlead]

omit [Fintype ι] in
/-- A call is on its way after a step only where it was before. -/
theorem inUse_of_afterCall {a : Action ι} {l : Leader ι} (ha : s.Allows a)
    (hs : s.leader.step M a = some l) {i : ι} (hi : (s.afterCall a l).InUse i) : s.InUse i := by
  rcases hi with hi | hi
  · refine .inl ?_
    have hi : s.admittedAfter a i = true := hi
    unfold admittedAfter at hi
    split at hi
    · rw [Function.update_apply] at hi
      split_ifs at hi
      exact hi
    · exact hi
  · have hi : (l.calls i).phase.InUse := hi
    have hcall := Leader.callStep_of_step hs i
    generalize l.calls i = c at hcall hi
    cases hcall with
    | same => exact .inr hi
    | beginTxn _ kind hp => exact .inl ha
    | read _ q env hp => exact .inr hi
    | write _ op env p hp hk hp' | stamp _ readings ts tso hp hk hts hh => exact .inr (by rw [hp]; trivial)
    | move _ _ p d hnext hw hd hr => exact .inr (hnext.inUse hi)

/-- One step. -/
theorem MarksKept.step {a : ServerAction ι} (h : s.MarksKept nodeId) (hc : s.Orderly nodeId a)
    (hs : s.step M nodeId a = some t) : t.MarksKept nodeId := by
  unfold Server.step at hs
  split_ifs at hs
  split at hs
  · next newLeader hhandler =>
    cases hs
    exact h.handleLeaderChange hhandler hc
  · next hhandler =>
    cases hs
    exact h.of_starting (by simp [hhandler]) (by simp [hhandler]) rfl rfl rfl rfl (by simp [initMarks])
  · next now hhandler =>
    cases hs
    unfold load
    split
    · exact h.of_starting (by simp [hhandler]) (by simp [hhandler]) rfl rfl rfl rfl
        (by simp [exit, hhandler])
    · exact h.of_starting (by simp [hhandler]) (by simp [hhandler]) rfl rfl rfl rfl (by simp)
  · next now hhandler =>
    obtain ⟨n, -, rfl⟩ := Option.map_eq_some_iff.mp hs
    exact h.of_starting (by simp [hhandler]) (by simp [hhandler]) rfl rfl rfl rfl (by simp)
  · next upperBound hhandler =>
    cases hs
    exact h.persisted (by simp [hhandler]) (by simp [hhandler]) upperBound
  · next hhandler =>
    cases hs
    exact h.of_starting (by simp [hhandler]) (by simp [hhandler]) rfl rfl rfl rfl
      (by simp [exit, hhandler])
  · next hhandler =>
    cases hs
    exact h.of_starting (by simp [hhandler]) (by simp [hhandler]) rfl rfl rfl rfl
      (by simp [exit, hhandler])
  · next hhandler =>
    -- `Close`: another leader has been published, so no call is on its way.
    cases hs
    have hlead := h.lost hhandler
    exact ⟨fun i hi => absurd (h.inUse i hi).2 hlead, fun hl => absurd hl (by simp),
      fun hi => absurd rfl hi, fun hs => absurd hs (by simp), fun hs => absurd hs (by simp)⟩
  · split_ifs at hs
    cases hs
    refine ⟨h.inUse, h.lost, h.starting, h.serving, fun hserving => ?_⟩
    -- The watermarks do not depend on the log.
    have hI := h.marks hserving
    exact ⟨⟨hI.held, hI.released, hI.inFlight⟩, hI.readMark, hI.recorded, hI.txnMark, hI.stamped⟩
  · next i _ =>
    split_ifs at hs with hi
    cases hs
    exact ⟨fun _ _ => ⟨hc, hi.1⟩, h.lost, h.starting, h.serving, h.marks⟩
  · split_ifs at hs with ha
    obtain ⟨l, hl, rfl⟩ := Option.map_eq_some_iff.mp hs
    exact ⟨fun i hi => h.inUse i (inUse_of_afterCall ha hl hi), h.lost, h.starting, h.serving,
      fun hserving => (h.marks hserving).step hc.1.allocatesForward hc.2 hl⟩
  · cases hs

/-- A node that another one leads, without transactions in use. -/
structure Quiet (nodeId : ℕ) (s : Server ι) : Prop extends Follower nodeId s where
  /-- The oracle does not serve. -/
  serving : s.serving = false
  /-- No call is on its way. -/
  quiet : ∀ i, ¬s.InUse i

/-- In every run that meets the condition, over any number of terms, no call of `Begin` or `Done` gets an
index below the bound of its watermark. -/
theorem markCalls_ge_doneUntil {s₀ : Server ι} (h₀ : s₀.Quiet nodeId)
    (h : Reaches (Server.step M nodeId) (Orderly nodeId) s₀ s) {a : Action ι}
    (hc : s.Orderly nodeId (.call a)) :
    ∀ x ∈ s.leader.markCalls a, (s.leader.tso.mark x.mark).doneUntil ≤ x.index := by
  have hstart : s₀.MarksKept nodeId :=
    ⟨fun i hi => absurd hi (h₀.quiet i), fun _ => h₀.lead, fun hi => absurd h₀.handler hi,
      fun hs => absurd hs (by simp [h₀.serving]), fun hs => absurd hs (by simp [h₀.serving])⟩
  have hkept : s.MarksKept nodeId := h.invariant hstart fun _ _ _ hI hC hs => hI.step hC hs
  intro x hx
  -- A call is made for a transaction in use, so the oracle serves.
  obtain ⟨i, hi⟩ := Leader.inUse_of_mem_markCalls hx
  have hserving := (hkept.inUse i (.inr hi)).1
  exact not_lt.mp ((hkept.marks hserving).not_below hc.1.allocatesForward hx)

omit [DecidableEq ι] [Fintype ι] in
/-- Nothing is under way in a node that has just been started. -/
theorem quiet_started : (started : Server ι).Quiet 1 := by
  refine ⟨follower_started, rfl, ?_⟩
  rintro i (hi | hi)
  · exact absurd hi (by simp [started])
  · exact hi

/-- A call up to the body of its transaction, which sets a key. -/
def opensAndSets {ι : Type*} (i : ι) : List (ServerAction ι) :=
  enter i ++ [.call (.write i (.set [1] [7] none) someEnv)]

/-- Its commit. -/
def commits {ι : Type*} (i : ι) (now : ℤ) : List (ServerAction ι) :=
  [.call (.commit i [now]), .call (.doneCommit i), .call (.discard i)]

/-- A transaction in the first of two terms, and one in the second up to its commit. -/
def beforeSecondCommit : List (ServerAction Two) :=
  List.flatten [gainLeadership 1000, opensAndSets .first, commits .first 1001, loseLeadership, gainLeadership 5000,
    opensAndSets .second]

/-- The node before the second commit. -/
def atSecondCommit : Server Two :=
  final (guarded (Server.step rejectDeltas 1) (Orderly 1)) started beforeSecondCommit
    (by decide +kernel)

/-- The second commit gives its read timestamp back and begins its commit timestamp, both at or above the
bounds. -/
theorem markCalls_ge_doneUntil_second_term :
    atSecondCommit.leader.markCalls (.commit .second [5001]) =
        [⟨.read, (TimeStamp.mk 5000 1).compose⟩, ⟨.txn, (TimeStamp.mk 5001 1).compose⟩] ∧
      ∀ x ∈ atSecondCommit.leader.markCalls (.commit .second [5001]),
        (atSecondCommit.leader.tso.mark x.mark).doneUntil ≤ x.index :=
  ⟨by decide +kernel,
    markCalls_ge_doneUntil quiet_started (Reaches.final _) (by decide +kernel)⟩

/-- A call has its read timestamp. Before its `Begin` a second one commits, and a third one begins at the
commit timestamp and is discarded. -/
def delayedBegin : List (ServerAction (Option Two)) :=
  List.flatten [gainLeadership 1000, [.isLeader none, .call (.beginTxn none .transaction)],
    opensAndSets (some .first), commits (some .first) 1001, opensAndSets (some .second),
    [.call (.fail (some .second) .conflict), .call (.discard (some .second))]]

/-- The node before that `Begin`. -/
def atDelayedBegin : Server (Option Two) :=
  final (guarded (Server.step rejectDeltas 1) fun _ _ => True) started delayedBegin
    (by decide +kernel)

/-- A transaction is open when its node loses and gains the leadership. -/
def openOverTerms : List (ServerAction Two) :=
  List.flatten [gainLeadership 1000, opensAndSets .first, loseLeadership, gainLeadership 5000]

/-- The node in its second term. -/
def atOpenOverTerms : Server Two :=
  final (guarded (Server.step rejectDeltas 1) fun _ _ => True) started openOverTerms
    (by decide +kernel)

/-- The delayed `Begin`, and the `Done` in the commit of the transaction of the earlier term, get an index
below the bound of the pending reads, and the process terminates. -/
theorem markCalls_below :
    (Reaches (Server.step rejectDeltas 1) (fun _ _ => True) started atDelayedBegin ∧
      atDelayedBegin.leader.markCalls (.markRead none) = [⟨.read, (TimeStamp.mk 1000 1).compose⟩] ∧
      atDelayedBegin.leader.tso.readMark.doneUntil = (TimeStamp.mk 1001 1).compose ∧
      (atDelayedBegin.step rejectDeltas 1 (.call (.markRead none))).map (·.leader.exited) = some true) ∧
    (Reaches (Server.step rejectDeltas 1) (fun _ _ => True) started atOpenOverTerms ∧
      ⟨.read, (TimeStamp.mk 1000 1).compose⟩ ∈
        atOpenOverTerms.leader.markCalls (.commit .first [5001]) ∧
      atOpenOverTerms.leader.tso.readMark.doneUntil = (TimeStamp.mk 5000 1).compose ∧
      (atOpenOverTerms.step rejectDeltas 1 (.call (.commit .first [5001]))).map (·.leader.exited) =
        some true) :=
  ⟨⟨Reaches.final _, by decide +kernel, by decide +kernel, by decide +kernel⟩,
    Reaches.final _, by decide +kernel, by decide +kernel, by decide +kernel⟩

end Server

end Omashu
