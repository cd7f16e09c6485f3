import Omashu.Tso.Compose

/-!
# Timestamps at the edge of the window

`allocate` tests the physical part against the persisted bound in its second step. The wait for the counter in
its third step may still move the physical part, to the first reading above it, and that is not tested again.
So a call that finds the counter used up in the last millisecond below the bound returns a timestamp at the
bound or beyond it.

`returns_below_iff` says that this is the only way: over any readings of the wall clock, the calls of a term
return timestamps below the bound exactly if every wait for the counter ends below it.
-/

namespace Omashu

open Lib

namespace Clock

/-- A call that waits for the counter, below the bound, leaves the wait below the bound. -/
def OverflowBelow (c : Clock) : List ℤ → Prop
  | [] => True
  | now :: readings =>
    now ≤ c.current.physical → c.current.physical < c.saved.physical → MAX_LOGICAL < c.current.logical →
      ∀ r ∈ waitFor (fun now => c.current.physical < now) readings, r.1 < c.saved.physical

/-- What a call does that passes the test against the bound. -/
theorem allocate_of_below {c : Clock} {now : ℤ} (readings : List ℤ)
    (h : (c.advancePhysical now).physical < c.saved.physical) :
    c.allocate (now :: readings) =
      (handleLogicalOverflow (c.advancePhysical now) readings).map fun r => { c with current := r.1.incr } := by
  rw [allocate, enforceUpperBound, if_neg (not_le.mpr h)]
  simp only [Option.bind_eq_bind, Option.bind_some]
  cases handleLogicalOverflow (c.advancePhysical now) readings with
  | none | some => rfl

/-- A call that finds the counter used up, below the bound, moves to the first reading above the current
physical part. -/
theorem allocate_of_overflow {c : Clock} {now : ℤ} (readings : List ℤ) (hnow : now ≤ c.current.physical)
    (hbelow : c.current.physical < c.saved.physical) (hover : MAX_LOGICAL < c.current.logical) :
    c.allocate (now :: readings) =
      (waitFor (fun now => c.current.physical < now) readings).map fun r =>
        { c with current := ⟨r.1, 1⟩ } := by
  have hadv : c.advancePhysical now = c.current := if_neg (not_lt.mpr hnow)
  have hexceeds : c.current.exceedLogicalMax = true := by simpa [TimeStamp.exceedLogicalMax] using hover
  rw [allocate_of_below readings (hadv ▸ hbelow), hadv, handleLogicalOverflow, if_pos hexceeds, Option.map_map]
  rfl

/-- A call returns a timestamp below the bound exactly if it does not leave the wait for the counter at or
beyond it. -/
theorem allocate_below_iff {c : Clock} {readings : List ℤ} :
    (∀ c' ∈ c.allocate readings, c'.current.physical < c'.saved.physical) ↔ c.OverflowBelow readings := by
  cases readings with
  | nil => simp [allocate, OverflowBelow]
  | cons now readings =>
    by_cases hover : now ≤ c.current.physical ∧ c.current.physical < c.saved.physical ∧
        MAX_LOGICAL < c.current.logical
    · obtain ⟨hnow, hbelow, hmax⟩ := hover
      rw [allocate_of_overflow readings hnow hbelow hmax]
      simp only [Option.forall_mem_map, OverflowBelow, hnow, hbelow, hmax, forall_const]
    · -- The physical part is not moved after the test.
      refine iff_of_true (fun c' hc' => ?_) fun hnow hbelow hmax => absurd ⟨hnow, hbelow, hmax⟩ hover
      obtain ⟨hsaved, ⟨-, r, hr, hcur⟩ | ⟨hlt, -⟩ | ⟨hlt, hnow, -, hcur⟩⟩ := allocate_cases hc'
      · rw [hsaved, hcur]
        simpa using (waitFor_spec hr).1
      · have hfree : (c.advancePhysical now).exceedLogicalMax = false := by
          unfold advancePhysical at hlt ⊢
          split_ifs with hadv
          · simp [TimeStamp.exceedLogicalMax, TimeStamp.reset]
          · rw [if_neg hadv] at hlt
            have hmax := mt (fun hmax => ⟨not_lt.mp hadv, hlt, hmax⟩) hover
            simpa [TimeStamp.exceedLogicalMax] using hmax
        rw [allocate_of_below readings hlt, handleLogicalOverflow, if_neg (by simp [hfree])] at hc'
        obtain rfl := Option.some.inj hc'
        exact hlt
      · rw [hsaved, hcur]
        have hadv : c.advancePhysical now = c.current := if_neg (not_lt.mpr hnow)
        exact hadv ▸ hlt

end Clock

namespace ServingClock

/-- A call of `allocate` that returns, returns a timestamp whose physical part is below the saved bound. -/
def ReturnsBelow (s : ServingClock) : ClockAction → Prop
  | .allocate readings => ∀ c ∈ s.clock.allocate readings, c.current.physical < c.saved.physical
  | _ => True

/-- A call of `allocate` that waits for the counter leaves the wait below the saved bound. -/
def OverflowEndsBelow (s : ServingClock) : ClockAction → Prop
  | .allocate readings => s.clock.OverflowBelow readings
  | _ => True

/-- In a leadership term, over any readings of the wall clock and any updates of the window, every call of
`allocate` that returns a timestamp returns one with a physical part below the saved bound, exactly if no call
leaves the wait for the counter at or beyond that bound. -/
theorem returns_below_iff (p₀ : ℤ) (as : List ClockAction) :
    Along step ReturnsBelow (startOfTerm p₀) as ↔ Along step OverflowEndsBelow (startOfTerm p₀) as := by
  apply along_congr
  intro s a
  cases a with
  | allocate readings => exact Clock.allocate_below_iff
  | updateWindow | persisted | persistFailed => exact Iff.rfl

/-- The clock of a term that has started at millisecond 1000 and has issued one timestamp in millisecond 2999,
the last one below the bound. -/
def lastMillisecond : ServingClock := ⟨⟨⟨2999, 1⟩, ⟨3000, 0⟩⟩, none, [⟨2999, 1⟩]⟩

/-- In the last millisecond below the bound the counter is used up. -/
def usesLastMillisecond : List ClockAction :=
  .allocate [2999] :: List.replicate MAX_LOGICAL (.allocate [2999])

/-- The next call, which waits until the wall clock shows 3000, returns a timestamp at the bound. -/
theorem returns_at_bound :
    ∃ s c, run step (startOfTerm 1000) usesLastMillisecond = some s ∧
      s.clock.allocate [2999, 3000] = some c ∧ c.current = ⟨3000, 1⟩ ∧ c.saved.physical = 3000 ∧
      ¬Along step ReturnsBelow (startOfTerm 1000) (usesLastMillisecond ++ [.allocate [2999, 3000]]) := by
  have hfirst : (startOfTerm 1000).step (.allocate [2999]) = some lastMillisecond := rfl
  have hrest : run step lastMillisecond (List.replicate MAX_LOGICAL (.allocate [2999])) =
      some (lastMillisecond.usedMore MAX_LOGICAL) :=
    run_usedMore lastMillisecond MAX_LOGICAL (by decide) (Nat.add_comm _ _).le
  have hused : run step (startOfTerm 1000) usesLastMillisecond =
      some (lastMillisecond.usedMore MAX_LOGICAL) := by
    rw [usesLastMillisecond, run, hfirst, Option.bind_some, hrest]
  have hcall : (lastMillisecond.usedMore MAX_LOGICAL).clock.allocate [2999, 3000] =
      some ⟨⟨3000, 1⟩, ⟨3000, 0⟩⟩ :=
    Clock.allocate_of_overflow [3000] (le_refl _) (by decide) (Nat.lt_one_add_iff.mpr (le_refl _))
  refine ⟨lastMillisecond.usedMore MAX_LOGICAL, _, hused, hcall, rfl, rfl, fun halong => ?_⟩
  have hlast := ((along_append_iff hused).mp halong).2.1
  exact absurd (hlast _ hcall) (by decide)

end ServingClock

end Omashu
