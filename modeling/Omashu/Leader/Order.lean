import Omashu.Leader.History

/-!
# The order of the log

A call proposes its command some time after it has got its commit timestamp, so the commands need not
come to the log in the order of their timestamps. They do where every call proposes in its turn:
when no call with a smaller timestamp is still to propose its command (`ProposesInTurn`). This is
stated for the transactions whose sub-commands have a property `T`, such as those that write a certain
key, and needs the condition among those only.
-/

namespace Omashu

open Lib

namespace Leader

variable {ι : Type*} {T : List SubCommand → Prop} {s t : Leader ι} {M : Merge} {a : Action ι}
  {start : ℕ}

/-- A call proposes its command only when no call with a smaller timestamp is to propose one. -/
def ProposesInTurn (T : List SubCommand → Prop) (s : Leader ι) : Action ι → Prop
  | .propose i => T (s.calls i).txn.subCommands → ∀ j, (s.calls j).Unproposed →
    T (s.calls j).txn.subCommands → (s.calls i).txn.commitTs ≤ (s.calls j).txn.commitTs
  | _ => True

/-- The commands of the term are in the log in the order of their timestamps. -/
structure InTurn (T : List SubCommand → Prop) (s : Leader ι) : Prop where
  /-- Those in the log are below those that are to be proposed. -/
  queue : ∀ e ∈ s.log, e.id.isSome = true → T e.command.body.subCommands →
    ∀ i, (s.calls i).Unproposed → T (s.calls i).txn.subCommands →
      e.command.commitTs < (s.calls i).txn.commitTs
  /-- Those in the log are in order. -/
  sorted : s.log.Pairwise fun e e' => e.id.isSome = true → e'.id.isSome = true →
    T e.command.body.subCommands → T e'.command.body.subCommands →
      e.command.commitTs < e'.command.commitTs

/-- At the start of a term the log has no command of the term. -/
theorem TermStart.inTurn (h : TermStart start s) : InTurn T s where
  queue e he hid := by simp [(h.log e he).1] at hid
  sorted := List.pairwise_of_forall_mem_list fun e he _ _ hid => by simp [(h.log e he).1] at hid

/-- A command of the term that is in the log has its timestamp at or below the current one. -/
theorem Recorded.commitTs_le (hR : Recorded start s) {e : LogEntry ι} (he : e ∈ s.log)
    (hid : e.id.isSome = true) : e.command.commitTs ≤ s.tso.currentReadTs := by
  rcases hR.entries e he with ⟨hnone, -⟩ | ⟨x, hx, hc⟩
  · simp [hnone] at hid
  · rw [hc.commitTs]
    exact hR.ts_le x hx

/-- A call that proposes in its turn is below the others that are to propose their commands. -/
theorem Recorded.lt_of_proposes (hR : Recorded start s) {i j : ι} (hi : (s.calls i).Unproposed)
    (hj : (s.calls j).Unproposed) (hij : i ≠ j)
    (hle : (s.calls i).txn.commitTs ≤ (s.calls j).txn.commitTs) :
    (s.calls i).txn.commitTs < (s.calls j).txn.commitTs := by
  refine lt_of_le_of_ne hle fun hts => hij ?_
  have hstamp := hR.eq_of_ts_eq (hR.pending i hi) (hR.pending j hj) hts
  exact congrArg Stamp.call hstamp

variable [DecidableEq ι]

/-- A call that is to propose its command after a step gets or has a timestamp above an old entry. -/
theorem InTurn.queue_step (hT : InTurn T s) (hR : Recorded start s) (hf : s.AllocatesForward a)
    (h : s.step M a = some t) {e : LogEntry ι} (he : e ∈ s.log) (hid : e.id.isSome = true)
    (hTe : T e.command.body.subCommands) {i : ι} (hi : (t.calls i).Unproposed)
    (hTi : T (t.calls i).txn.subCommands) : e.command.commitTs < (t.calls i).txn.commitTs := by
  obtain ⟨hu, d, htxn⟩ | ⟨-, readings, ts, tso, rfl, hts, htxn, -⟩ := unproposed_step h hi
  · rw [htxn] at hTi ⊢
    exact hT.queue e he hid hTe i hu hTi
  · -- The call has just got its timestamp, which is above the current one.
    have hle := hR.commitTs_le he hid
    have hlt := Tso.lt_newCommitTs hf hts
    rw [htxn]
    exact lt_of_le_of_lt hle hlt

/-- A step that meets the condition keeps the commands in order. -/
theorem InTurn.step (hT : InTurn T s) (hR : Recorded start s) (hf : s.AllocatesForward a)
    (hp : s.ProposesInTurn T a) (h : s.step M a = some t) : InTurn T t := by
  obtain heq | ⟨j, cmd, hready, hc, rfl, heq, -, hp'⟩ := log_step h
  · constructor
    · rw [heq]
      exact fun e he hid hTe i hi hTi => hT.queue_step hR hf h he hid hTe hi hTi
    · rw [heq]
      exact hT.sorted
  · -- The call `j` proposes its command.
    have hj : (s.calls j).Unproposed := .inr (.inr hready)
    have hsubs := Call.command_subCommands hc (hR.single j (by simp [hready]))
    have hcommitTs := (Call.command_ts hc).2
    constructor
    · intro e he hid hTe i hi hTi
      rw [heq] at he
      rcases List.mem_append.mp he with he | he
      · exact hT.queue_step hR hf h he hid hTe hi hTi
      · -- The new entry is at or below the others by the condition, and no other has its timestamp.
        obtain rfl := List.mem_singleton.mp he
        obtain ⟨hu, d, htxn⟩ | ⟨-, _, _, _, ha, -⟩ := unproposed_step h hi
        · have hne : j ≠ i := by
            rintro rfl
            simp [Call.Unproposed, hp'] at hi
          rw [htxn] at hTi ⊢
          rw [hcommitTs]
          rw [hsubs] at hTe
          exact hR.lt_of_proposes hj hu hne (hp hTe i hu hTi)
        · simp at ha
    · rw [heq, List.pairwise_append]
      refine ⟨hT.sorted, List.pairwise_singleton _ _, fun e he e' he' hid _ hTe hTe' => ?_⟩
      obtain rfl := List.mem_singleton.mp he'
      rw [hsubs] at hTe'
      rw [hcommitTs]
      exact hT.queue e he hid hTe j hj hTe'

end Leader

end Omashu
