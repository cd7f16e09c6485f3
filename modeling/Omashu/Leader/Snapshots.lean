import Omashu.Leader.History

/-!
# Read timestamps and the commands that are on their way

Between `newCommitTs` and `Apply` a command is outstanding: it has its commit timestamp and is not in
the store. `DoneCommit` runs at the beginning of that stretch, before the command is even proposed,
so `txnMark` does not hold a reader back until the command is applied. Where no command is outstanding
when a read timestamp is taken, the snapshot at it is complete and does not change any more
(`readTs_snapshot_complete`).

`Outstanding` is what the argument goes by. A step makes a timestamp outstanding only above the
current one (`outstanding_step`), and a store changes at or below a timestamp only by a command that
was outstanding there (`visible_step`).
-/

namespace Omashu

open Lib

namespace Leader

variable {ι : Type*}

/-- A commit timestamp whose command is not applied yet. -/
def Outstanding (s : Leader ι) (ts : ℕ) : Prop :=
  (∃ i, (s.calls i).Unproposed ∧ (s.calls i).txn.commitTs = ts) ∨
    ∃ e ∈ s.log.drop s.applied, e.command.commitTs = ts

/-- The command of a call is applied. -/
def Applied (s : Leader ι) (h : Stamp ι) : Prop :=
  ∃ e ∈ s.log.take s.applied, e.id = some h.call ∧ e.command.commitTs = h.ts

instance [DecidableEq ι] (s : Leader ι) (h : Stamp ι) : Decidable (s.Applied h) :=
  inferInstanceAs (Decidable (∃ e ∈ s.log.take s.applied, _ ∧ _))

variable {s t : Leader ι} {ts r start : ℕ} {M : Merge} {a : Action ι} {k : Key}

variable [DecidableEq ι] {i : ι}

/-- An entry that is not applied after a step was there before, or is the command of a call that was
ready to propose it. -/
theorem unapplied_step (h : s.step M a = some t) {e : LogEntry ι} (he : e ∈ t.log.drop t.applied) :
    e ∈ s.log.drop s.applied ∨
      ∃ j cmd, e = ⟨some j, cmd⟩ ∧ (s.calls j).phase = .ready ∧ (s.calls j).command = some cmd := by
  obtain ⟨-, happlied⟩ | ⟨env, entry, -, -, -, happlied, hlog, -⟩ := store_step h
  · rw [happlied] at he
    obtain hlog | ⟨j, cmd, hp, hc, -, hlog, -⟩ := log_step h
    · rw [hlog] at he
      exact .inl he
    · rw [hlog, List.drop_append] at he
      rcases List.mem_append.mp he with he | he
      · exact .inl he
      · exact .inr ⟨j, cmd, List.mem_singleton.mp (List.mem_of_mem_drop he), hp, hc⟩
  · rw [hlog, happlied, ← List.drop_drop] at he
    exact .inl (List.mem_of_mem_drop he)

/-- A step makes a timestamp outstanding only by handing it out, above the current one. -/
theorem outstanding_step (hf : s.AllocatesForward a) (h : s.step M a = some t)
    (ho : t.Outstanding ts) : s.Outstanding ts ∨ s.tso.currentReadTs < ts := by
  rcases ho with ⟨j, hj, hts⟩ | ⟨e, he, hts⟩
  · obtain ⟨hu, d, htxn⟩ | ⟨-, readings, ts', tso, rfl, hnew, htxn, -⟩ := unproposed_step h hj
    · rw [htxn] at hts
      exact .inl (.inl ⟨j, hu, hts⟩)
    · -- The call has just got the timestamp.
      rw [htxn] at hts
      rw [← hts]
      exact .inr (Tso.lt_newCommitTs hf hnew)
  · obtain he | ⟨j, cmd, rfl, hp, hc⟩ := unapplied_step h he
    · exact .inl (.inr ⟨e, he, hts⟩)
    · -- A command that comes into the log was with its call.
      exact .inl (.inl ⟨j, .inr (.inr hp), (Call.command_ts hc).2.symm.trans hts⟩)

/-- A step changes what is visible at a timestamp only by a command that was outstanding at or below
it. -/
theorem visible_step (h : s.step M a = some t) (hr : ∀ ts, s.Outstanding ts → r < ts) :
    Versions.visible t.store k r = Versions.visible s.store k r := by
  cases effect_of_step h with
  | apply env entry store he ha =>
    apply Fsm.visible_apply_of_lt ha
    apply hr
    refine .inr ⟨entry, ?_, rfl⟩
    rw [List.mem_iff_getElem?]
    exact ⟨0, by simpa using he⟩
  | _ => rfl

/-- What is outstanding stays above a read timestamp. -/
theorem ahead_step (hf : s.AllocatesForward a) (h : s.step M a = some t)
    (hr : r ≤ s.tso.currentReadTs) (ha : ∀ ts, s.Outstanding ts → r < ts) (ts : ℕ)
    (ho : t.Outstanding ts) : r < ts := by
  rcases outstanding_step hf h ho with ho | hlt
  · exact ha ts ho
  · exact lt_of_le_of_lt hr hlt

/-! ## Where the command of a commit timestamp is -/

/-- Every command that is proposed can be encoded. -/
def Encodes (s : Leader ι) : Action ι → Prop
  | .propose i => ∀ cmd ∈ (s.calls i).command, cmd.encode = .ok cmd
  | _ => True

/-- Every commit timestamp of the history has its command on the way or in the log. -/
structure Tracked (s : Leader ι) : Prop where
  /-- A call that has its timestamp has a command to propose. -/
  command : ∀ i, (s.calls i).Unproposed → (s.calls i).command.isSome = true
  /-- The command of a timestamp is with its call or in the log. -/
  stamps : ∀ h ∈ s.history,
    ((s.calls h.call).Unproposed ∧ (s.calls h.call).txn.commitTs = h.ts) ∨
      ∃ e ∈ s.log, e.id = some h.call ∧ e.command.commitTs = h.ts

omit [DecidableEq ι] in
/-- Nothing is on the way at the start of a term. -/
theorem TermStart.tracked (h : TermStart start s) : Tracked s where
  command i hi := by simp [Call.Unproposed, h.idle i] at hi
  stamps := by simp [h.history]

/-- Every step keeps track of the commands, if those that are proposed can be encoded. -/
theorem Tracked.step (hT : Tracked s) (he : s.Encodes a) (h : s.step M a = some t) :
    Tracked t := by
  -- The command of a timestamp that is not new.
  have hold : ∀ x ∈ s.history,
      ((t.calls x.call).Unproposed ∧ (t.calls x.call).txn.commitTs = x.ts) ∨
        ∃ e ∈ t.log, e.id = some x.call ∧ e.command.commitTs = x.ts := by
    intro x hx
    rcases hT.stamps x hx with ⟨hu, hts⟩ | ⟨e, hmem, hid⟩
    · obtain ⟨hu', hts'⟩ | hnone | ⟨cmd, rfl, hc, hlog | ⟨e, henc⟩⟩ := unproposed_kept h hu
      · exact .inl ⟨hu', hts'.trans hts⟩
      · rw [hT.command x.call hu] at hnone
        cases hnone
      · refine .inr ⟨⟨some x.call, cmd⟩, ?_, rfl, (Call.command_ts hc).2.trans hts⟩
        rw [hlog]
        exact List.mem_append_right _ (List.mem_singleton.mpr rfl)
      · have hok := he cmd hc
        rw [henc] at hok
        cases hok
    · refine .inr ⟨e, ?_, hid⟩
      obtain hlog | ⟨j, cmd, -, -, -, hlog, -⟩ := log_step h
      · rw [hlog]
        exact hmem
      · rw [hlog]
        exact List.mem_append_left _ hmem
  refine ⟨fun i hi => command_step h (hT.command i) hi, fun x hx => ?_⟩
  obtain hhist | ⟨j, -, ts', -, -, -, -, -, -, hp, htxn, -, -, hhist, -⟩ := history_step h
  · rw [hhist] at hx
    exact hold x hx
  · rw [hhist] at hx
    rcases List.mem_append.mp hx with hx | hx
    · exact hold x hx
    · -- The new timestamp is with its call.
      obtain rfl := List.mem_singleton.mp hx
      exact .inl ⟨.inl hp, by rw [show (Txn.stamp _ j ts').call = j from rfl, htxn]; rfl⟩

/-! ## Complete snapshots -/

/-- No command is outstanding: none is with its call, and the log is applied to its end. -/
def Quiet (s : Leader ι) : Prop := (∀ i, ¬(s.calls i).Unproposed) ∧ s.log.length ≤ s.applied

omit [DecidableEq ι] in
/-- In a quiet state no timestamp is outstanding. -/
theorem Quiet.not_outstanding (h : s.Quiet) (ts : ℕ) : ¬s.Outstanding ts := by
  rintro (⟨i, hi, -⟩ | ⟨e, he, -⟩)
  · exact h.1 i hi
  · rw [List.drop_of_length_le h.2] at he
    simp at he

/-- A read timestamp is taken only while no command is outstanding. Besides, the clock moves forward
within its layout, and the commands can be encoded. -/
def QuietReads (s : Leader ι) : Action ι → Prop
  | .beginTxn _ _ => s.Quiet
  | .commit _ readings => s.tso.toClock.Steady readings
  | .propose i => ∀ cmd ∈ (s.calls i).command, cmd.encode = .ok cmd
  | _ => True

omit [DecidableEq ι] in
/-- Under the condition the clock moves forward. -/
theorem QuietReads.allocatesForward (h : s.QuietReads a) : s.AllocatesForward a := by
  cases a with
  | commit i readings => exact Clock.Steady.advances h
  | _ => trivial

omit [DecidableEq ι] in
/-- Under the condition commands can be encoded. -/
theorem QuietReads.encodes (h : s.QuietReads a) : s.Encodes a := by
  cases a with
  | propose i => exact h
  | _ => trivial

variable [Fintype ι]

instance (s : Leader ι) : Decidable s.Quiet := inferInstanceAs (Decidable (_ ∧ _))

instance (s : Leader ι) : (a : Action ι) → Decidable (s.QuietReads a)
  | .beginTxn .. => inferInstanceAs (Decidable s.Quiet)
  | .commit _ readings => inferInstanceAs (Decidable (s.tso.toClock.Steady readings))
  | .propose i => inferInstanceAs (Decidable (∀ cmd ∈ (s.calls i).command, cmd.encode = .ok cmd))
  | .markRead _ | .waitOk _ | .waitErr _ | .read .. | .write .. | .fail ..
  | .discard _ | .doneCommit _ | .ack _ | .timeout _ | .apply _ | .saveBound _ => inferInstanceAs (Decidable True)

/-- Every command that is outstanding is above the read timestamp of every call that has begun. -/
structure Complete (start : ℕ) (s : Leader ι) : Prop where
  /-- The oracle keeps its records. -/
  oracle : OracleInv start s
  /-- The commands are tracked. -/
  tracked : Tracked s
  /-- What is outstanding is above what is read. -/
  ahead : ∀ i, (s.calls i).phase ≠ .idle → ∀ ts, s.Outstanding ts → (s.calls i).txn.readTs < ts

omit [DecidableEq ι] in
/-- No call has begun at the start of a term. -/
theorem TermStart.complete (h : TermStart start s) : Complete start s where
  oracle := h.oracleInv
  tracked := h.tracked
  ahead i hi := absurd (h.idle i) hi

/-- A step that meets the condition keeps the outstanding commands above the read timestamps. -/
theorem Complete.step (hC : Complete start s) (hq : s.QuietReads a) (h : s.step M a = some t) :
    Complete start t := by
  have hf := hq.allocatesForward
  refine ⟨hC.oracle.step hf h, hC.tracked.step hq.encodes h, fun i hi ts ho => ?_⟩
  by_cases hidle : (s.calls i).phase = .idle
  · -- The call has just begun, in a quiet state.
    obtain ⟨⟨kind, rfl⟩, hr⟩ := begins_step h hidle hi
    rw [hr]
    exact ahead_step hf h (le_refl _) (fun ts ho => absurd ho (Quiet.not_outstanding hq ts)) ts ho
  · rw [(readTs_step h hidle).2]
    exact ahead_step hf h (hC.oracle.readTs_mem i hidle).2 (hC.ahead i hidle) ts ho

/-- In every state reached the outstanding commands are above the read timestamps. -/
theorem Complete.of_reaches (hC : Complete start s) (h : Reaches (Leader.step M) QuietReads s t) :
    Complete start t :=
  h.invariant hC fun _ _ _ hC hq hs => hC.step hq hs

omit [DecidableEq ι] in
/-- The commands at or below a read timestamp are applied. -/
theorem Complete.applied (hC : Complete start s) (hi : (s.calls i).phase ≠ .idle) {h : Stamp ι}
    (hh : h ∈ s.history) (hle : h.ts ≤ (s.calls i).txn.readTs) : s.Applied h := by
  rcases hC.tracked.stamps h hh with ⟨hu, hts⟩ | ⟨e, he, hid, hts⟩
  · have hlt := hC.ahead i hi h.ts (.inl ⟨h.call, hu, hts⟩)
    omega
  · rw [← List.take_append_drop s.applied s.log] at he
    rcases List.mem_append.mp he with he | he
    · exact ⟨e, he, hid, hts⟩
    · have hlt := hC.ahead i hi h.ts (.inr ⟨e, he, hts⟩)
      omega

/-- What is visible at a read timestamp does not change any more. -/
theorem Complete.visible_of_reaches (hC : Complete start s) (hi : (s.calls i).phase ≠ .idle)
    (h : Reaches (Leader.step M) QuietReads s t) :
    Versions.visible t.store k (s.calls i).txn.readTs =
      Versions.visible s.store k (s.calls i).txn.readTs := by
  -- The induction carries the invariant and the read timestamp of the call with it.
  have hinv := h.invariant (I := fun u => Complete start u ∧ (u.calls i).phase ≠ .idle ∧
    (u.calls i).txn.readTs = (s.calls i).txn.readTs ∧
    Versions.visible u.store k (s.calls i).txn.readTs =
      Versions.visible s.store k (s.calls i).txn.readTs) ⟨hC, hi, rfl, rfl⟩ ?_
  · exact hinv.2.2.2
  · rintro u a v ⟨hCu, hiu, hru, hvu⟩ hq hs
    obtain ⟨hiv, hrv⟩ := readTs_step hs hiu
    refine ⟨hCu.step hq hs, hiv, hrv.trans hru, ?_⟩
    rw [visible_step hs, hvu]
    rw [← hru]
    exact hCu.ahead i hiu

/-- Where read timestamps are taken only while no command is outstanding, a transaction that has been
handed its read timestamp finds every command with a commit timestamp at or below it applied, and
every read at it returns the same answer from then on. -/
theorem readTs_snapshot_complete (h₀ : TermStart start s)
    (h : Reaches (step M) QuietReads s t) (hrun : (t.calls i).phase = .running) :
    (∀ h ∈ t.history, h.ts ≤ (t.calls i).txn.readTs → t.Applied h) ∧
      ∀ u, Reaches (step M) QuietReads t u → ∀ (q : Query) (env : Env),
        q.eval u.store env (t.calls i).txn.readTs = q.eval t.store env (t.calls i).txn.readTs := by
  have hC := h₀.complete.of_reaches h
  have hi : (t.calls i).phase ≠ .idle := by simp [hrun]
  refine ⟨fun h hh hle => hC.applied hi hh hle, fun u hu q env => ?_⟩
  apply Query.eval_congr
  intro k _
  exact Versions.newest_congr (hC.visible_of_reaches hi hu)

/-- A call commits a write and its command is applied, and then another call begins. -/
def readAfterApply : List (Action Two) :=
  List.flatten
    [beginCall .first .transaction,
      [.write .first (.set [1] [8] none) someEnv, .commit .first [1001], .doneCommit .first,
        .discard .first, .propose .first, .apply someEnv, .ack .first],
      beginCall .second .transaction]

/-- The leader after these calls. -/
def readerAfterApply : Leader Two :=
  final (guarded (step rejectDeltas) QuietReads) (serving clockAt1000 oneKey) readAfterApply
    (by decide +kernel)

/-- The second call has the whole history at or below its read timestamp. -/
theorem readTs_snapshot_complete_after_apply :
    (∀ h ∈ readerAfterApply.history, h.ts ≤ (readerAfterApply.calls .second).txn.readTs →
      readerAfterApply.Applied h) ∧
    ∀ u, Reaches (step rejectDeltas) QuietReads readerAfterApply u → ∀ (q : Query) (env : Env),
      q.eval u.store env (readerAfterApply.calls .second).txn.readTs =
        q.eval readerAfterApply.store env (readerAfterApply.calls .second).txn.readTs := by
  have hreach : Reaches (step rejectDeltas) QuietReads (serving clockAt1000 oneKey)
      readerAfterApply := Reaches.final _
  exact readTs_snapshot_complete (termStart_serving clockAt1000 oneKey) hreach (by decide)

/-- A call commits a write, and another call begins before the command is proposed. -/
def readBeforeApply : List (Action Two) :=
  List.flatten
    [beginCall .first .transaction,
      [.write .first (.set [1] [8] none) someEnv, .commit .first [1001], .doneCommit .first],
      beginCall .second .transaction]

/-- The leader after these calls. -/
def readerBeforeApply : Leader Two :=
  final (guarded (step rejectDeltas) AllocatesForward) (serving clockAt1000 oneKey) readBeforeApply
    (by decide +kernel)

/-- The leader once the command of the first call is applied. -/
def appliedAfterRead : Leader Two :=
  final (guarded (step rejectDeltas) AllocatesForward) readerBeforeApply
    [.discard .first, .propose .first, .apply someEnv] (by decide +kernel)

/-- The second call has its read timestamp while a command below it is not applied, and a read at it
changes its answer when the command is applied. -/
theorem readTs_snapshot_incomplete :
    Reaches (step rejectDeltas) AllocatesForward (serving clockAt1000 oneKey) readerBeforeApply ∧
      (readerBeforeApply.calls .second).phase = .running ∧
      (∃ h ∈ readerBeforeApply.history, h.ts ≤ (readerBeforeApply.calls .second).txn.readTs ∧
        ¬readerBeforeApply.Applied h) ∧
      Reaches (step rejectDeltas) AllocatesForward readerBeforeApply appliedAfterRead ∧
      (Query.get [1]).eval readerBeforeApply.store someEnv
          (readerBeforeApply.calls .second).txn.readTs = .ok (.value (some [7])) ∧
      (Query.get [1]).eval appliedAfterRead.store someEnv
          (readerBeforeApply.calls .second).txn.readTs = .ok (.value (some [8])) := by
  refine ⟨Reaches.final _, by decide, ?_, Reaches.final _, by decide, by decide⟩
  decide

end Leader

end Omashu
