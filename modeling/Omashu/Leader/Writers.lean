import Omashu.Leader.History

/-!
# The first committer wins

Of two transactions that overlap and write a common key, the one that commits second is to be aborted.
The conflict check compares the keys that a transaction has read with the keys that others have
written. A write registers its key in `conflictKeys` and not among the reads, so two blind writes of
one key do not conflict, and neither do increments or updates.

The rule holds where a transaction that comes to commit has read, and registered, every key that it
writes and that a transaction stamped above its read timestamp has written (`ReadsOverwritten`).
-/

namespace Omashu

open Lib

namespace Leader

variable {ι : Type*}

/-- A transaction that commits has registered as read the keys that it writes and that others have
written since its read timestamp. Besides, the clock moves forward. -/
def ReadsOverwritten (s : Leader ι) : Action ι → Prop
  | .commit i readings => s.tso.toClock.Advances readings ∧
    ∀ h ∈ s.history, (s.calls i).txn.readTs < h.ts → ∀ k ∈ h.conflictKeys,
      k ∈ (s.calls i).txn.conflictKeys → k ∈ (s.calls i).txn.reads
  | _ => True

/-- Of two recorded transactions with a common key, the later one has read at or above the earlier. -/
def FirstWins (s : Leader ι) : Prop :=
  ∀ h ∈ s.history, ∀ h' ∈ s.history, h.ts < h'.ts → ∀ k ∈ h.conflictKeys, k ∈ h'.conflictKeys →
    h.ts ≤ h'.readTs

variable {s t : Leader ι} {M : Merge} {a : Action ι} {i : ι} {start : ℕ} {readings : List ℤ}

/-- Under the condition the clock moves forward. -/
theorem ReadsOverwritten.allocatesForward (h : s.ReadsOverwritten a) : s.AllocatesForward a := by
  cases a with
  | commit i readings => exact h.1
  | _ => trivial

variable [Fintype ι]

/-- A transaction that meets the condition, and has written a key that another one has written since
its read timestamp, has a conflict. -/
theorem OracleInv.hasConflict_of_common (hI : OracleInv start s)
    (hs : s.ReadsOverwritten (.commit i readings)) (hrun : (s.calls i).phase = .running)
    (hd : (s.calls i).txn.discarded = false) {h : Stamp ι} (hh : h ∈ s.history)
    (hlt : (s.calls i).txn.readTs < h.ts) {k : Key} (hk : k ∈ h.conflictKeys)
    (hk' : k ∈ (s.calls i).txn.conflictKeys) : s.tso.hasConflict (s.calls i).txn = true := by
  have hread : k ∈ (s.calls i).txn.reads := hs.2 h hh hlt k hk hk'
  exact (hI.hasConflict_iff hrun hd).mpr ⟨h, hh, hlt, k, hread, hk⟩

variable [DecidableEq ι]

/-- A step that meets the condition keeps the rule. -/
theorem FirstWins.step (hF : s.FirstWins) (hI : OracleInv start s) (hR : Recorded start s)
    (hs : s.ReadsOverwritten a) (h : s.step M a = some t) : t.FirstWins := by
  obtain heq | ⟨j, readings, ts, tso, rfl, hrun, hd, hts, -, -, -, -, -, heq, -⟩ := history_step h
  · unfold FirstWins
    rw [heq]
    exact hF
  · have hlt := Tso.lt_newCommitTs hs.allocatesForward hts
    have hno := (Tso.newCommitTs_ok hts).1
    intro x hx y hy hxy k hkx hky
    rw [heq] at hx hy
    rcases List.mem_append.mp hx with hx | hx
    · rcases List.mem_append.mp hy with hy | hy
      · exact hF x hx y hy hxy k hkx hky
      · -- The new transaction would have had a conflict with an old one above its read timestamp.
        obtain rfl := List.mem_singleton.mp hy
        by_contra hread
        have hconflict := hI.hasConflict_of_common hs hrun hd hx (not_le.mp hread) hkx hky
        rw [hno] at hconflict
        exact absurd hconflict (by simp)
    · -- No timestamp is above the new one.
      obtain rfl := List.mem_singleton.mp hx
      rw [Txn.stamp_ts] at hxy
      rcases List.mem_append.mp hy with hy | hy
      · have hold := hR.ts_le y hy
        omega
      · obtain rfl := List.mem_singleton.mp hy
        exact absurd hxy (lt_irrefl _)

/-- In every run that meets the condition, of two transactions with a common key that have got a commit
timestamp, one has read at or above the commit timestamp of the other. A transaction that comes to
commit under the condition, with a key that another one has written since its read timestamp, is
aborted. -/
theorem first_committer_wins (h₀ : TermStart start s) (h : Reaches (step M) ReadsOverwritten s t) :
    (∀ x ∈ t.history, ∀ y ∈ t.history, x ≠ y → ∀ k ∈ x.conflictKeys, k ∈ y.conflictKeys →
        x.ts ≤ y.readTs ∨ y.ts ≤ x.readTs) ∧
      ∀ i readings, t.ReadsOverwritten (.commit i readings) → (t.calls i).phase = .running →
        (t.calls i).txn.discarded = false → ∀ x ∈ t.history, (t.calls i).txn.readTs < x.ts →
        ∀ k ∈ x.conflictKeys, k ∈ (t.calls i).txn.conflictKeys →
          t.tso.newCommitTs (t.calls i).txn readings = .conflict := by
  obtain ⟨hI, hR, hF⟩ : OracleInv start t ∧ Recorded start t ∧ t.FirstWins := by
    refine h.invariant (I := fun t => OracleInv start t ∧ Recorded start t ∧ t.FirstWins)
      ⟨h₀.oracleInv, h₀.recorded, ?_⟩ ?_
    · simp [FirstWins, h₀.history]
    · rintro u a v ⟨hI, hR, hF⟩ hc ha
      have hf := hc.allocatesForward
      exact ⟨hI.step hf ha, hR.step hI hf ha, hF.step hI hR hc ha⟩
  constructor
  · intro x hx y hy hne k hkx hky
    rcases lt_trichotomy x.ts y.ts with hlt | heq | hlt
    · exact .inl (hF x hx y hy hlt k hkx hky)
    · exact absurd (hR.eq_of_ts_eq hx hy heq) hne
    · exact .inr (hF y hy x hx hlt k hky hkx)
  · intro i readings hc hrun hd x hx hlt k hkx hki
    rw [Tso.newCommitTs_eq_conflict_iff]
    exact hI.hasConflict_of_common hc hrun hd hx hlt hkx hki

omit [Fintype ι] in
instance (s : Leader ι) : (a : Action ι) → Decidable (s.ReadsOverwritten a)
  | .commit _ _ => inferInstanceAs (Decidable (_ ∧ _))
  | .beginTxn .. | .markRead _ | .waitOk _ | .waitErr _ | .read .. | .write .. | .fail ..
  | .discard _ | .doneCommit _ | .propose _ | .ack _ | .timeout _ | .apply _ | .saveBound _ =>
    inferInstanceAs (Decidable True)

/-- Two transactions read a key and set it. The second one commits after the first. -/
def readAndSetTwice : List (Action Two) :=
  List.flatten
    [beginCall .first .transaction, beginCall .second .transaction,
      [.read .first (.get [1]) someEnv, .read .second (.get [1]) someEnv,
        .write .first (.set [1] [8] none) someEnv, .write .second (.set [1] [9] none) someEnv,
        .commit .first [1001]]]

/-- The leader after the first one has committed. -/
def afterReadAndSet : Leader Two :=
  final (guarded (step rejectDeltas) ReadsOverwritten) (serving clockAt1000 oneKey) readAndSetTwice
    (by decide +kernel)

/-- The second one has a conflict. -/
theorem first_committer_wins_read_and_set :
    afterReadAndSet.tso.newCommitTs (afterReadAndSet.calls .second).txn [1002] = .conflict := by
  have hreach : Reaches (step rejectDeltas) ReadsOverwritten (serving clockAt1000 oneKey)
      afterReadAndSet := Reaches.final _
  have hwins := first_committer_wins (termStart_serving (ι := Two) clockAt1000 oneKey) hreach
  exact hwins.2 .second [1002] (by decide) (by decide) (by decide)
    ⟨.first, (TimeStamp.mk 1001 1).compose, (TimeStamp.mk 1000 1).compose, {[1]},
      [.set [1] [8] none]⟩ (by decide) (by decide) [1] (by decide) (by decide)

/-- Two transactions set a key that they have not read. -/
def setTwice : List (Action Two) :=
  List.flatten
    [beginCall .first .transaction, beginCall .second .transaction,
      [.write .first (.set [1] [8] none) someEnv, .write .second (.set [1] [9] none) someEnv,
        .commit .first [1001], .doneCommit .first, .commit .second [1002]]]

/-- The leader after both have committed. -/
def afterSetTwice : Leader Two :=
  final (guarded (step rejectDeltas) AllocatesForward) (serving clockAt1000 oneKey) setTwice
    (by decide +kernel)

/-- Both have got a commit timestamp, above the read timestamp of the other. -/
theorem both_committers_win :
    Reaches (step rejectDeltas) AllocatesForward (serving clockAt1000 oneKey) afterSetTwice ∧
      afterSetTwice.history =
        [⟨.first, (TimeStamp.mk 1001 1).compose, (TimeStamp.mk 1000 1).compose, {[1]},
            [.set [1] [8] none]⟩,
          ⟨.second, (TimeStamp.mk 1002 1).compose, (TimeStamp.mk 1000 1).compose, {[1]},
            [.set [1] [9] none]⟩] ∧
      (TimeStamp.mk 1000 1).compose < (TimeStamp.mk 1001 1).compose ∧
      (TimeStamp.mk 1000 1).compose < (TimeStamp.mk 1002 1).compose :=
  ⟨Reaches.final _, by decide, by decide, by decide⟩

end Leader

end Omashu
