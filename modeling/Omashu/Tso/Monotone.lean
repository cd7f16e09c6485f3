import Omashu.Lib.Run
import Omashu.Tso.Timestamp

/-!
# The clock pair over a leadership term

The clock of a serving oracle changes by calls of `allocate`, which run one at a time under `tso.mu`,
and by `UpdateWindow`, which computes a new upper bound in one critical section and installs it in
another, with calls of `allocate` in between. `ServingClock` keeps, beside the clock, the pairs that
the calls of `allocate` have left, and `issued_increasing_iff` says in which runs they increase.

The upper-bound wait of `allocate` resets the physical part to whatever reading ends it. Where the
wall clock has stepped back, this is below the part that was issued before.
-/

namespace Omashu

open Lib

/-- The clock in one leadership term. -/
structure ServingClock where
  /-- The clock of the oracle. -/
  clock : Clock
  /-- The upper bound that a running `UpdateWindow` is persisting. -/
  persisting : Option ℤ
  /-- The pairs left by the calls of `allocate`, in order. -/
  issued : List TimeStamp
  deriving DecidableEq

/-- What happens to the clock in a term. -/
inductive ClockAction
  /-- A call of `allocate` that makes these readings of the wall clock. -/
  | allocate (readings : List ℤ)
  /-- The first critical section of `UpdateWindow`. -/
  | updateWindow
  /-- The transaction of `UpdateWindow` succeeds, and its second critical section runs. -/
  | persisted
  /-- The transaction of `UpdateWindow` fails. -/
  | persistFailed

namespace ServingClock

/-- One step of the clock. Only one `UpdateWindow` runs at a time. -/
def step (s : ServingClock) : ClockAction → Option ServingClock
  | .allocate readings => (s.clock.allocate readings).map fun c =>
      { s with clock := c, issued := s.issued ++ [c.current] }
  | .updateWindow =>
    if s.persisting = none then some { s with persisting := s.clock.nextUpperBound } else none
  | .persisted => s.persisting.map fun upperBound =>
      { s with clock := s.clock.resetSaved upperBound, persisting := none }
  | .persistFailed => s.persisting.map fun _ => { s with persisting := none }

/-- A call of `allocate` after the first of the run does not leave the upper-bound wait at or below
the current physical part. -/
def Forward (s : ServingClock) : ClockAction → Prop
  | .allocate readings => s.issued = [] ∨ s.clock.MovesForward readings
  | _ => True

/-- The pairs issued so far increase, and the last of them is the current pair, with a used
counter. -/
structure Increasing (s : ServingClock) : Prop where
  /-- The pairs increase. -/
  pairwise : s.issued.Pairwise TimeStamp.Lt
  /-- No pair issued is above the current one. -/
  current_ge : ∀ ts ∈ s.issued, ts = s.clock.current ∨ ts.Lt s.clock.current
  /-- The current pair is the last one issued. -/
  current_mem : s.issued ≠ [] → s.clock.current ∈ s.issued
  /-- Its counter is used. -/
  used : s.issued ≠ [] → 0 < s.clock.current.logical

/-- What a step can do: a call of `allocate` issues one more pair, and no other step changes the
current pair or the pairs issued. -/
theorem step_cases {s t : ServingClock} {a : ClockAction} (h : s.step a = some t) :
    (∃ readings c, a = .allocate readings ∧ s.clock.allocate readings = some c ∧
      t = { s with clock := c, issued := s.issued ++ [c.current] }) ∨
    ((∀ readings, a ≠ .allocate readings) ∧ t.clock.current = s.clock.current ∧
      t.issued = s.issued) := by
  cases a with
  | allocate readings =>
    obtain ⟨c, hc, rfl⟩ := Option.map_eq_some_iff.mp h
    exact .inl ⟨readings, c, rfl, hc, rfl⟩
  | updateWindow =>
    simp only [step] at h
    split_ifs at h
    obtain rfl := Option.some.inj h
    exact .inr ⟨by simp, rfl, rfl⟩
  | persisted =>
    obtain ⟨upperBound, -, rfl⟩ := Option.map_eq_some_iff.mp h
    exact .inr ⟨by simp, rfl, rfl⟩
  | persistFailed =>
    obtain ⟨-, -, rfl⟩ := Option.map_eq_some_iff.mp h
    exact .inr ⟨by simp, rfl, rfl⟩

/-- The pairs issued stay issued. -/
theorem issued_run {s t : ServingClock} {as : List ClockAction} (h : run step s as = some t) :
    s.issued <+: t.issued := by
  induction as generalizing s with
  | nil =>
    obtain rfl : s = t := by simpa [run] using h
    exact List.prefix_rfl
  | cons a as ih =>
    obtain ⟨s', hs', h⟩ := Option.bind_eq_some_iff.mp h
    refine List.IsPrefix.trans ?_ (ih h)
    obtain ⟨readings, c, -, -, rfl⟩ | ⟨-, -, hissued⟩ := step_cases hs'
    · exact List.prefix_append _ _
    · rw [hissued]

/-- One step: where the pairs increase before it, they increase after it exactly if it moves
forward. -/
theorem increasing_step_iff {s t : ServingClock} {a : ClockAction} (hs : s.Increasing)
    (h : s.step a = some t) : t.issued.Pairwise TimeStamp.Lt ↔ s.Forward a := by
  obtain ⟨readings, c, rfl, hc, rfl⟩ | ⟨hna, -, hissued⟩ := step_cases h
  · show (s.issued ++ [c.current]).Pairwise TimeStamp.Lt ↔ _ ∨ _
    by_cases hnil : s.issued = []
    · simp [hnil]
    · rw [← Clock.allocate_lt_iff hc (hs.used hnil), List.pairwise_append]
      simp only [hs.pairwise, List.pairwise_singleton, List.mem_singleton, forall_eq, true_and,
        hnil, false_or]
      constructor
      · intro hall
        exact hall _ (hs.current_mem hnil)
      · intro hlt ts hts
        rcases hs.current_ge ts hts with rfl | hts
        · exact hlt
        · exact hts.trans hlt
  · rw [hissued]
    refine iff_of_true hs.pairwise ?_
    cases a with
    | allocate readings => exact absurd rfl (hna readings)
    | _ => trivial

/-- A step that moves forward keeps the pairs increasing. -/
theorem Increasing.step {s t : ServingClock} {a : ClockAction} (hs : s.Increasing)
    (hf : s.Forward a) (h : s.step a = some t) : t.Increasing := by
  have hpair := (increasing_step_iff hs h).mpr hf
  obtain ⟨readings, c, rfl, hc, rfl⟩ | ⟨-, hcur, hissued⟩ := step_cases h
  · refine ⟨hpair, ?_, ?_, ?_⟩
    · intro ts hts
      rcases List.mem_append.mp hts with hts | hts
      · exact .inr ((List.pairwise_append.mp hpair).2.2 ts hts _ List.mem_cons_self)
      · exact .inl (List.mem_singleton.mp hts)
    · intro _
      exact List.mem_append_right _ List.mem_cons_self
    · intro _
      exact Clock.allocate_logical_pos hc
  · refine ⟨hpair, ?_, ?_, ?_⟩
    · rw [hissued, hcur]
      exact hs.current_ge
    · rw [hissued, hcur]
      exact hs.current_mem
    · rw [hissued, hcur]
      exact hs.used

/-- A whole run: where the pairs increase before it, they increase after it exactly if every step
of it moves forward. -/
theorem increasing_run_iff {s t : ServingClock} {as : List ClockAction} (hs : s.Increasing)
    (h : run step s as = some t) :
    t.issued.Pairwise TimeStamp.Lt ↔ Along step Forward s as := by
  induction as generalizing s with
  | nil =>
    obtain rfl : s = t := by simpa [run] using h
    exact iff_of_true hs.pairwise trivial
  | cons a as ih =>
    obtain ⟨s', hs', h⟩ := Option.bind_eq_some_iff.mp h
    rw [along_cons_iff hs']
    by_cases hf : s.Forward a
    · rw [ih (hs.step hf hs') h]
      exact ⟨fun h => ⟨hf, h⟩, fun h => h.2⟩
    · -- A pair that is out of order stays in the list.
      refine iff_of_false (fun hpair => hf ?_) (fun h => hf h.1)
      exact (increasing_step_iff hs hs').mp (hpair.sublist (issued_run h).sublist)

/-- The pairs left by the calls of `allocate` in a run increase, each above all earlier ones,
exactly if every call after the first either does not enter the upper-bound wait or leaves it at a
reading above the physical part left by the call before it. -/
theorem issued_increasing_iff {s t : ServingClock} {as : List ClockAction} (hs : s.issued = [])
    (h : run step s as = some t) :
    t.issued.Pairwise TimeStamp.Lt ↔ Along step Forward s as := by
  apply increasing_run_iff _ h
  constructor <;> simp [hs]

/-- An oracle that started serving at millisecond 1000. -/
def servingAt1000 : ServingClock := ⟨⟨⟨1000, 1⟩, ⟨3000, 0⟩⟩, none, []⟩

/-- The wall clock shows 2500, then 3000, and then steps back to 2400. -/
def clockStepsBack : List ClockAction := [.allocate [2500], .allocate [3000, 2400]]

/-- Two calls and an update of the window, at a wall clock that moves on. -/
theorem issued_increasing_iff_forward :
    ∃ t, run step servingAt1000 [.allocate [2500], .updateWindow, .persisted, .allocate [3000]] =
        some t ∧
      t.issued = [⟨2500, 1⟩, ⟨3000, 1⟩] ∧ t.issued.Pairwise TimeStamp.Lt ∧
      Along step Forward servingAt1000 [.allocate [2500], .updateWindow, .persisted, .allocate [3000]] :=
  ⟨_, rfl, rfl, by decide, (issued_increasing_iff rfl rfl).mp (by decide)⟩

/-- Where the wall clock steps back while a call waits at the upper bound, the call leaves a pair
below the one before. -/
theorem issued_not_increasing :
    ∃ t, run step servingAt1000 clockStepsBack = some t ∧
      t.issued = [⟨2500, 1⟩, ⟨2400, 1⟩] ∧ ¬t.issued.Pairwise TimeStamp.Lt :=
  ⟨_, rfl, rfl, by decide⟩

end ServingClock

end Omashu
