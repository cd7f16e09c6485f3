import Omashu.Leader.Conflicts

/-!
# The history of a term

What the history says about the calls and the log, in every run whose clock moves forward. The commit
timestamps increase. A call that has its timestamp and has not proposed its command stands in the
history as it is, and an entry of the log carries the timestamps and the sub-commands of a transaction
of the history (`Recorded`).
-/

namespace Omashu

open Lib

/-- The call has its commit timestamp, and its command is not in the log yet. -/
def Call.Unproposed (c : Call) : Prop :=
  c.phase = .stamped ∨ c.phase = .leaving .committed ∨ c.phase = .ready

instance (c : Call) : Decidable c.Unproposed := inferInstanceAs (Decidable (_ ∨ _))

/-- A command carries the timestamps of its transaction. -/
theorem Call.command_ts {c : Call} {cmd : Command} (h : c.command = some cmd) :
    cmd.readTs = c.txn.readTs ∧ cmd.commitTs = c.txn.commitTs := by
  unfold command at h
  split at h
  · obtain rfl := Option.some.inj h
    exact ⟨rfl, rfl⟩
  · simp at h
  · obtain rfl := Option.some.inj h
    exact ⟨rfl, rfl⟩

/-- A command carries the sub-commands of its transaction, if a single write has at most one. -/
theorem Call.command_subCommands {c : Call} {cmd : Command} (h : c.command = some cmd)
    (hone : c.kind = .single → c.txn.subCommands.length ≤ 1) :
    cmd.body.subCommands = c.txn.subCommands := by
  unfold command at h
  split at h
  · obtain rfl := Option.some.inj h
    rfl
  · simp at h
  · rename_i sub subs hk hsub
    obtain rfl := Option.some.inj h
    have hlen := hone hk
    rw [hsub, List.length_cons] at hlen
    have hnil : subs = [] := List.length_eq_zero_iff.mp (by omega)
    rw [hsub, hnil]
    rfl

/-- The call has its commit timestamp. -/
def Call.Past (c : Call) : Prop := c.Unproposed ∨ c.phase = .proposed ∨ ∃ e, c.phase = .returned e

namespace Leader

variable {ι : Type*} [DecidableEq ι] {s t : Leader ι} {ts r start : ℕ} {M : Merge} {a : Action ι}
  {i : ι}

/-! ## What a step does to a call -/

/-- The history only grows. -/
theorem mem_history_step (h : s.step M a = some t) {x : Stamp ι} (hx : x ∈ s.history) :
    x ∈ t.history := by
  obtain heq | ⟨j, readings, ts, tso, -, -, -, -, -, -, -, -, -, heq, -⟩ := history_step h
  · rw [heq]
    exact hx
  · rw [heq]
    exact List.mem_append_left _ hx

/-- A call that has committed keeps its kind, its reads, and its transaction but for its being
discarded. -/
theorem past_step (h : s.step M a = some t) (hi : (s.calls i).Past) :
    (t.calls i).Past ∧ (t.calls i).kind = (s.calls i).kind ∧
      (t.calls i).readLog = (s.calls i).readLog ∧
      ∃ d, (t.calls i).txn = { (s.calls i).txn with discarded := d } := by
  -- A call reads, writes and gets its timestamp only while it runs.
  have hrun : (s.calls i).phase ≠ .running := by
    rintro hrun
    simp [Call.Past, Call.Unproposed, hrun] at hi
  have hstep := callStep_of_step h i
  generalize t.calls i = c at hstep ⊢
  cases hstep with
  | same => exact ⟨hi, rfl, rfl, _, rfl⟩
  | beginTxn _ kind hp => simp [Call.Past, Call.Unproposed, hp] at hi
  | read _ q env hp | write _ op env p hp hk hp' | stamp _ readings ts tso hp hk hts hh => exact absurd hp hrun
  | move _ _ p d hn =>
    refine ⟨?_, rfl, rfl, d, rfl⟩
    unfold Call.Past Call.Unproposed at hi ⊢
    generalize (s.calls i).phase = p₀ at hn hi
    cases hn <;> simp_all

/-- A call without its command in the log was there before the step, or has just got its commit
timestamp. -/
theorem unproposed_step (h : s.step M a = some t) (hi : (t.calls i).Unproposed) :
    ((s.calls i).Unproposed ∧ ∃ d, (t.calls i).txn = { (s.calls i).txn with discarded := d }) ∨
      (s.calls i).phase = .running ∧ ∃ readings ts tso, a = .commit i readings ∧
        s.tso.newCommitTs (s.calls i).txn readings = .ok ts tso ∧
        (t.calls i).txn = { (s.calls i).txn with commitTs := ts } ∧
        t.history = s.history ++ [(s.calls i).txn.stamp i ts] := by
  have hstep := callStep_of_step h i
  generalize t.calls i = c at hstep hi ⊢
  cases hstep with
  | same => exact .inl ⟨hi, _, rfl⟩
  | beginTxn _ kind hp => simp [Call.Unproposed] at hi
  | read _ q env hp => simp [Call.Unproposed, hp] at hi
  | write _ op env p hp hk hp' => rcases hp' with rfl | ⟨e, rfl⟩ <;> simp [Call.Unproposed, hp] at hi
  | stamp _ readings ts tso hp hk hts hh => exact .inr ⟨hp, readings, ts, tso, rfl, hts, rfl, hh⟩
  | move _ _ p d hn =>
    refine .inl ⟨?_, d, rfl⟩
    unfold Call.Unproposed at hi ⊢
    generalize (s.calls i).phase = p₀ at hn
    cases hn <;> simp_all

/-- A call that is to propose its command has one after a step if it had one before. -/
theorem command_step (h : s.step M a = some t)
    (hs : (s.calls i).Unproposed → (s.calls i).command.isSome = true)
    (hi : (t.calls i).Unproposed) : (t.calls i).command.isSome = true := by
  have hbefore := unproposed_step h hi
  have hstep := callStep_of_step h i
  generalize t.calls i = c at hstep hi hbefore ⊢
  cases hstep with
  | same => exact hs hi
  | beginTxn _ kind hp => simp [Call.Unproposed] at hi
  | read _ q env hp => simp [Call.Unproposed, hp] at hi
  | write _ op env p hp hk hp' => rcases hp' with rfl | ⟨e, rfl⟩ <;> simp [Call.Unproposed, hp] at hi
  | stamp _ readings ts tso hp hk hts hh =>
    -- `Commit` of a single write without a sub-command fails.
    unfold Call.command
    cases hkind : (s.calls i).kind with
    | transaction => rfl
    | single =>
      cases hsub : (s.calls i).txn.subCommands with
      | nil => exact absurd hsub (hk hkind)
      | cons sub subs => rfl
  | move _ _ p d hn =>
    rcases hbefore with ⟨hu, -⟩ | ⟨hrun, -⟩
    · exact hs hu
    · rw [hrun] at hn
      cases hn <;> simp [Call.Unproposed] at hi

/-- A call that is to propose its command stays so, or its command comes to the log, or cannot be
encoded, or there is none. -/
theorem unproposed_kept (h : s.step M a = some t) (hi : (s.calls i).Unproposed) :
    ((t.calls i).Unproposed ∧ (t.calls i).txn.commitTs = (s.calls i).txn.commitTs) ∨
      (s.calls i).command.isSome = false ∨
      ∃ cmd, a = .propose i ∧ (s.calls i).command = some cmd ∧
        (t.log = s.log ++ [⟨some i, cmd⟩] ∨ ∃ e, cmd.encode = .error e) := by
  have hrun : (s.calls i).phase ≠ .running := by
    intro hrun
    simp [Call.Unproposed, hrun] at hi
  have hstep := callStep_of_step h i
  generalize t.calls i = c at hstep ⊢
  cases hstep with
  | same => exact .inl ⟨hi, rfl⟩
  | beginTxn _ kind hp => simp [Call.Unproposed, hp] at hi
  | read _ q env hp | write _ op env p hp | stamp _ readings ts tso hp => exact absurd hp hrun
  | move _ _ p d hn hw hd hr =>
    -- It goes from `stamped` over `leaving` to `ready`, and from there into the log.
    rcases hi with hp | hp | hp
    · rw [hp] at hn
      cases hn
      exact .inl ⟨.inr (.inl rfl), rfl⟩
    · rw [hp] at hn hd
      cases hn with
      | ready => exact .inl ⟨.inr (.inr rfl), rfl⟩
      | nothing => exact .inr (.inl (hd rfl rfl))
    · exact .inr (.inr (hr hp))

/-- A single write has at most one sub-command. -/
theorem single_step (h : s.step M a = some t)
    (hs : (s.calls i).phase ≠ .idle → (s.calls i).kind = .single →
      (s.calls i).txn.subCommands.length ≤ 1)
    (hi : (t.calls i).phase ≠ .idle) (hk : (t.calls i).kind = .single) :
    (t.calls i).txn.subCommands.length ≤ 1 := by
  have hstep := callStep_of_step h i
  generalize t.calls i = c at hstep hi hk ⊢
  cases hstep with
  | same => exact hs hi hk
  | beginTxn _ kind hp => simp [Txn.beginTxn]
  | read _ q env hp =>
    rw [Txn.read_subCommands]
    exact hs (by simp [hp]) hk
  | write _ op env p hp hk' hp' =>
    -- The body of a single write writes only while it has no sub-command.
    have hnil := hk' hk
    obtain heq | ⟨sub, -, heq⟩ := Txn.write_subCommands (s.calls i).txn s.store env op
    · simp [heq, hnil]
    · simp [heq, hnil]
  | stamp _ readings ts tso hp hk' hts hh => exact hs (by simp [hp]) hk
  | move _ _ p d hn => exact hs hn.ne_idle.1 hk

/-! ## The record -/

/-- The entry of the log carries the command of a transaction of the history. -/
structure Carries (e : LogEntry ι) (h : Stamp ι) : Prop where
  /-- It is the entry of the call. -/
  id : e.id = some h.call
  /-- It commits at the timestamp. -/
  commitTs : e.command.commitTs = h.ts
  /-- It reads at the read timestamp. -/
  readTs : e.command.readTs = h.readTs
  subCommands : e.command.body.subCommands = h.subCommands

/-- What the history says about the calls and the log. -/
structure Recorded (start : ℕ) (s : Leader ι) : Prop where
  /-- The commit timestamps increase. -/
  ordered : s.history.Pairwise fun h h' => h.ts < h'.ts
  /-- They are at or below the current timestamp. -/
  ts_le : ∀ h ∈ s.history, h.ts ≤ s.tso.currentReadTs
  /-- A transaction commits above its read timestamp, which is from the term. -/
  readTs_lt : ∀ h ∈ s.history, start ≤ h.readTs ∧ h.readTs < h.ts
  /-- The call of a record is the one it was made from. -/
  calls : ∀ h ∈ s.history, (s.calls h.call).Past ∧
    (s.calls h.call).txn.stamp h.call (s.calls h.call).txn.commitTs = h
  /-- A call that is to propose its command is recorded. -/
  pending : ∀ i, (s.calls i).Unproposed →
    (s.calls i).txn.stamp i (s.calls i).txn.commitTs ∈ s.history
  /-- A single write has at most one sub-command. -/
  single : ∀ i, (s.calls i).phase ≠ .idle → (s.calls i).kind = .single →
    (s.calls i).txn.subCommands.length ≤ 1
  /-- An entry of the log is from before the term or carries a recorded command. -/
  entries : ∀ e ∈ s.log, (e.id = none ∧ e.command.commitTs ≤ start) ∨
    ∃ h ∈ s.history, Carries e h
  /-- No more is applied than the log has. -/
  applied : s.applied ≤ s.log.length

omit [DecidableEq ι] in
/-- At the start of a term nothing is recorded. -/
theorem TermStart.recorded (h : TermStart start s) : Recorded start s where
  ordered := by simp [h.history]
  ts_le := by simp [h.history]
  readTs_lt := by simp [h.history]
  calls := by simp [h.history]
  pending i hi := by simp [Call.Unproposed, h.idle i] at hi
  single i hi := absurd (h.idle i) hi
  entries e he := .inl (h.log e he)
  applied := h.applied

omit [DecidableEq ι] in
/-- Two recorded transactions with the same timestamp are the same. -/
theorem Recorded.eq_of_ts_eq (hR : Recorded start s) {x y : Stamp ι} (hx : x ∈ s.history)
    (hy : y ∈ s.history) (hts : x.ts = y.ts) : x = y := by
  have hnodup : (s.history.map Stamp.ts).Nodup :=
    List.pairwise_map.mpr (hR.ordered.imp fun h => ne_of_lt h)
  exact List.inj_on_of_nodup_map hnodup hx hy hts

/-- The call of a record stays the one it was made from. -/
theorem Recorded.calls_step (hR : Recorded start s) (h : s.step M a = some t) {x : Stamp ι}
    (hx : x ∈ s.history) : (t.calls x.call).Past ∧
      (t.calls x.call).txn.stamp x.call (t.calls x.call).txn.commitTs = x := by
  obtain ⟨hpast, hstamp⟩ := hR.calls x hx
  obtain ⟨hpast', -, -, d, htxn⟩ := past_step h hpast
  refine ⟨hpast', ?_⟩
  rw [htxn]
  exact hstamp

/-- A call that is to propose its command stays recorded. -/
theorem Recorded.pending_step (hR : Recorded start s) (h : s.step M a = some t)
    (hi : (t.calls i).Unproposed) :
    (t.calls i).txn.stamp i (t.calls i).txn.commitTs ∈ t.history := by
  obtain ⟨hu, d, htxn⟩ | ⟨-, -, ts, -, -, -, htxn, hhist⟩ := unproposed_step h hi
  · rw [htxn]
    exact mem_history_step h (hR.pending i hu)
  · rw [htxn, hhist]
    exact List.mem_append_right _ List.mem_cons_self

/-- The entries of the log stay recorded, and so is a new one. -/
theorem Recorded.entries_step (hR : Recorded start s) (h : s.step M a = some t) (e : LogEntry ι)
    (he : e ∈ t.log) : (e.id = none ∧ e.command.commitTs ≤ start) ∨
      ∃ x ∈ t.history, Carries e x := by
  have hold : e ∈ s.log → (e.id = none ∧ e.command.commitTs ≤ start) ∨
      ∃ x ∈ t.history, Carries e x := by
    intro he
    rcases hR.entries e he with hle | ⟨x, hx, hc⟩
    · exact .inl hle
    · exact .inr ⟨x, mem_history_step h hx, hc⟩
  obtain heq | ⟨j, cmd, hp, hc, -, heq, -⟩ := log_step h
  · exact hold (heq ▸ he)
  · rw [heq] at he
    rcases List.mem_append.mp he with he | he
    · exact hold he
    · -- The new entry is the command of a call that was to propose it.
      obtain rfl := List.mem_singleton.mp he
      obtain ⟨hread, hcommit⟩ := Call.command_ts hc
      exact .inr ⟨_, mem_history_step h (hR.pending j (.inr (.inr hp))), rfl, hcommit, hread,
        Call.command_subCommands hc (hR.single j (by simp [hp]))⟩

/-- An entry is applied only if the log has it. -/
theorem Recorded.applied_step (hR : Recorded start s) (h : s.step M a = some t) :
    t.applied ≤ t.log.length := by
  have happlied := hR.applied
  obtain ⟨-, heq⟩ | ⟨env, entry, -, hentry, -, heq, hlog, -⟩ := store_step h
  · obtain hlog | ⟨j, cmd, -, -, -, hlog, -⟩ := log_step h
    · rw [heq, hlog]
      exact happlied
    · rw [heq, hlog, List.length_append]
      omega
  · have hlt := (List.getElem?_eq_some_iff.mp hentry).1
    rw [heq, hlog]
    omega

/-- Every step keeps the record, if the clock moves forward. -/
theorem Recorded.step [Fintype ι] (hR : Recorded start s) (hI : OracleInv start s)
    (hf : s.AllocatesForward a) (h : s.step M a = some t) : Recorded start t := by
  have hcur := current_step hf h
  obtain heq | ⟨j, readings, ts, tso, rfl, hp, -, hts, rfl, hp', htxn, -, -, heq, -⟩ :=
    history_step h
  · constructor
    · rw [heq]
      exact hR.ordered
    · intro x hx
      exact le_trans (hR.ts_le x (heq ▸ hx)) hcur
    · rw [heq]
      exact hR.readTs_lt
    · intro x hx
      exact hR.calls_step h (heq ▸ hx)
    · exact fun i hi => hR.pending_step h hi
    · exact fun i => single_step h (hR.single i)
    · exact hR.entries_step h
    · exact hR.applied_step h
  · obtain ⟨-, -, -, -, hts', -⟩ := Tso.newCommitTs_ok hts
    have hlt := Tso.lt_newCommitTs hf hts
    have hread := hI.readTs_mem j (by simp [hp])
    -- The new record is the only one that is not old.
    have hmem : ∀ x ∈ t.history, x ∈ s.history ∨ x = (s.calls j).txn.stamp j ts := by
      intro x hx
      rw [heq] at hx
      exact (List.mem_append.mp hx).imp_right List.mem_singleton.mp
    constructor
    · rw [heq, List.pairwise_append]
      refine ⟨hR.ordered, List.pairwise_singleton _ _, fun x hx y hy => ?_⟩
      obtain rfl := List.mem_singleton.mp hy
      exact lt_of_le_of_lt (hR.ts_le x hx) hlt
    · intro x hx
      rcases hmem x hx with hx | rfl
      · exact le_trans (hR.ts_le x hx) hcur
      · exact le_of_eq hts'
    · intro x hx
      rcases hmem x hx with hx | rfl
      · exact hR.readTs_lt x hx
      · exact ⟨hread.1, lt_of_le_of_lt hread.2 hlt⟩
    · intro x hx
      rcases hmem x hx with hx | rfl
      · exact hR.calls_step h hx
      · rw [Txn.stamp_call, htxn]
        exact ⟨.inl (.inl hp'), rfl⟩
    · exact fun i hi => hR.pending_step h hi
    · exact fun i => single_step h (hR.single i)
    · exact hR.entries_step h
    · exact hR.applied_step h

end Leader

end Omashu
