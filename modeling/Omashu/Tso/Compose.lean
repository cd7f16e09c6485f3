import Omashu.Tso.Monotone

/-!
# The composed timestamps of a leadership term

`Compose` joins the parts of a pair with a bitwise or, which keeps the order of the pairs only while
the counter has its eighteen bits. `allocate` tests the counter before it increments it, so the test
passes at `MAX_LOGICAL` and the pair that is composed has the counter `MAX_LOGICAL + 1`: in an odd
millisecond the packed timestamp falls back to the start of the millisecond, in an even one it is
the first one of the next.

`composed_ordered_iff` says in which runs of a term, over a wall clock that does not step back, the
packed timestamps increase and give back their parts.
-/

namespace Omashu

open Lib

namespace TimeStamp

/-- The parts of the pair can be read off the packed timestamp. -/
def Recoverable (ts : TimeStamp) : Prop :=
  ((ts.compose / 2^LOGICAL_BITS : ℕ) : ℤ) = ts.physical ∧ ts.compose % 2^LOGICAL_BITS = ts.logical

/-- In its ranges a pair can be read off the packed timestamp. -/
theorem Fits.recoverable {ts : TimeStamp} (h : ts.Fits) : ts.Recoverable := by
  have heq := compose_eq h
  obtain ⟨h0, -, hl⟩ := h
  unfold MAX_LOGICAL at hl
  unfold Recoverable
  unfold LOGICAL_BITS at *
  omega

end TimeStamp

namespace Clock

/-- With a counter that is not above its maximum, a call leaves the upper-bound wait at some reading,
or it moves to its first reading, or it increments the counter in place. -/
theorem allocate_cases_of_counter {c c' : Clock} {now : ℤ} {readings : List ℤ}
    (hl : c.current.logical ≤ MAX_LOGICAL) (h : c.allocate (now :: readings) = some c') :
    c'.saved = c.saved ∧
      ((c.saved.physical ≤ (c.advancePhysical now).physical ∧
          ∃ r ∈ waitFor (fun now => now < c.saved.physical) readings, c'.current = ⟨r.1, 1⟩) ∨
        (c.current.physical < now ∧ now < c.saved.physical ∧ c'.current = ⟨now, 1⟩) ∨
        (now ≤ c.current.physical ∧ c.current.physical < c.saved.physical ∧
          c'.current = c.current.incr)) := by
  by_cases hwait : c.saved.physical ≤ (c.advancePhysical now).physical
  · obtain ⟨hsaved, hleft | ⟨hlt, -⟩ | ⟨hlt, -⟩⟩ := allocate_cases h
    · exact ⟨hsaved, .inl hleft⟩
    · exact absurd hlt (not_lt.mpr hwait)
    · exact absurd hlt (not_lt.mpr hwait)
  · -- Below the bound neither wait is entered, so the pair after step 1 is incremented.
    have hmax : (c.advancePhysical now).exceedLogicalMax = false := by
      unfold advancePhysical
      split_ifs
      · simp [TimeStamp.exceedLogicalMax, TimeStamp.reset]
      · simpa [TimeStamp.exceedLogicalMax] using hl
    rw [allocate, enforceUpperBound, if_neg hwait] at h
    simp only [Option.bind_eq_bind, Option.bind_some, handleLogicalOverflow, hmax] at h
    obtain rfl := Option.some.inj h
    refine ⟨rfl, .inr ?_⟩
    by_cases hnow : c.current.physical < now
    · have hadv : c.advancePhysical now = TimeStamp.reset now := if_pos hnow
      rw [hadv] at hwait ⊢
      exact .inl ⟨hnow, not_le.mp hwait, rfl⟩
    · have hadv : c.advancePhysical now = c.current := if_neg hnow
      rw [hadv] at hwait ⊢
      exact .inr ⟨not_lt.mp hnow, not_le.mp hwait, rfl⟩

/-- Below the bound, a call in the current millisecond that finds the counter at most at its maximum
increments it. -/
theorem allocate_of_le {c : Clock} {now : ℤ} (readings : List ℤ) (hnow : now ≤ c.current.physical)
    (hbelow : c.current.physical < c.saved.physical) (hl : c.current.logical ≤ MAX_LOGICAL) :
    c.allocate (now :: readings) = some { c with current := c.current.incr } := by
  have hadv : c.advancePhysical now = c.current := if_neg (not_lt.mpr hnow)
  have hmax : c.current.exceedLogicalMax = false := by simpa [TimeStamp.exceedLogicalMax] using hl
  rw [allocate, hadv, enforceUpperBound, if_neg (not_le.mpr hbelow)]
  simp only [Option.bind_eq_bind, Option.bind_some, handleLogicalOverflow, hmax]
  rfl

/-- Over readings that do not decrease, the upper-bound wait of a clock below its bound is not left:
it is entered at a reading that has reached the bound, and no later one is below it. -/
theorem waitFor_bound_eq_none {c : Clock} {now : ℤ} {readings : List ℤ}
    (hsaved : c.current.physical < c.saved.physical)
    (hmono : (now :: readings).Pairwise (· ≤ ·))
    (hwait : c.saved.physical ≤ (c.advancePhysical now).physical) :
    waitFor (fun now => now < c.saved.physical) readings = none := by
  have hreached : c.saved.physical ≤ now := by
    unfold advancePhysical at hwait
    split_ifs at hwait
    · exact hwait
    · exact absurd hsaved (not_lt.mpr hwait)
  by_contra hne
  obtain ⟨r, hr⟩ := Option.ne_none_iff_exists'.mp hne
  obtain ⟨hlt, hmem⟩ := waitFor_spec hr
  have hle := List.rel_of_pairwise_cons hmono hmem
  have hlt' : r.1 < c.saved.physical := by simpa using hlt
  omega

end Clock

/-- The readings of the wall clock that an action makes. -/
def ClockAction.readings : ClockAction → List ℤ
  | .allocate readings => readings
  | _ => []

namespace ServingClock

/-- The clock after `StartServing`, with the first physical part `p₀`. -/
def startOfTerm (p₀ : ℤ) : ServingClock :=
  ⟨⟨⟨p₀, 1⟩, TimeStamp.reset (p₀ + defaultUpperBoundWindow)⟩, none, []⟩

/-- The packed timestamps issued so far increase, their counters are at most `MAX_LOGICAL`, and they
give back their parts. -/
structure Ordered (s : ServingClock) : Prop where
  /-- The packed timestamps increase. -/
  increasing : (s.issued.map TimeStamp.compose).Pairwise (· < ·)
  /-- The counters are at most `MAX_LOGICAL`. -/
  logical_le : ∀ ts ∈ s.issued, ts.logical ≤ MAX_LOGICAL
  /-- The parts can be read off. -/
  recoverable : ∀ ts ∈ s.issued, ts.Recoverable

/-- No call of `allocate` is made in the millisecond of the current pair once its counter is at
`MAX_LOGICAL`. -/
def CounterLeft (s : ServingClock) : ClockAction → Prop
  | .allocate readings => ∀ now ∈ readings.head?, now ≤ s.clock.current.physical →
      s.clock.current.logical ≠ MAX_LOGICAL
  | _ => True

instance (s : ServingClock) : (a : ClockAction) → Decidable (s.CounterLeft a)
  | .allocate readings => inferInstanceAs (Decidable (∀ now ∈ readings.head?, _))
  | .updateWindow | .persisted | .persistFailed => inferInstanceAs (Decidable True)

/-- The clock of a term in which every counter has had its room. -/
structure InTerm (s : ServingClock) : Prop where
  /-- The current pair fits the layout. -/
  fits : s.clock.current.Fits
  /-- The current pair is below the bound. -/
  below : s.clock.current.physical < s.clock.saved.physical
  /-- A bound that is being persisted is above the one that is saved. -/
  persisting : ∀ upperBound ∈ s.persisting, s.clock.saved.physical < upperBound
  /-- The pairs increase. -/
  pairs : s.Increasing
  /-- The pairs issued fit the layout. -/
  issued : ∀ ts ∈ s.issued, ts.Fits

variable {s t : ServingClock} {a : ClockAction}

/-- In such a term the packed timestamps are in order. -/
theorem InTerm.ordered (h : s.InTerm) : s.Ordered where
  increasing := by
    rw [List.pairwise_map]
    refine h.pairs.pairwise.imp_of_mem fun ha hb hlt => ?_
    exact TimeStamp.compose_lt_compose (h.issued _ ha) (h.issued _ hb) hlt
  logical_le := fun ts hts => (h.issued ts hts).2.2
  recoverable := fun ts hts => (h.issued ts hts).recoverable

/-- It starts so. -/
theorem inTerm_startOfTerm {p₀ : ℤ} (h0 : 0 ≤ p₀) (hp : p₀ < 2^45) : (startOfTerm p₀).InTerm where
  fits := ⟨h0, hp, show 1 ≤ MAX_LOGICAL by decide⟩
  below := by
    show p₀ < p₀ + 2000
    omega
  persisting := by simp [startOfTerm]
  pairs := by constructor <;> simp [startOfTerm]
  issued := by simp [startOfTerm]

/-- What a call of `allocate` does in such a term, over readings that do not decrease: it moves to its
first reading, or it increments the counter in place. -/
theorem InTerm.allocate_cases (h : s.InTerm) {c : Clock} {readings : List ℤ}
    (hmono : readings.Pairwise (· ≤ ·)) (hc : s.clock.allocate readings = some c) :
    c.saved = s.clock.saved ∧ s.clock.MovesForward readings ∧
      ∃ now ∈ readings.head?,
        (s.clock.current.physical < now ∧ now < s.clock.saved.physical ∧ c.current = ⟨now, 1⟩) ∨
        (now ≤ s.clock.current.physical ∧ c.current = s.clock.current.incr) := by
  cases readings with
  | nil => simp [Clock.allocate] at hc
  | cons now readings =>
    -- The upper-bound wait does not end, so the call has not entered it.
    have hforward : s.clock.MovesForward (now :: readings) := by
      by_cases hwait : s.clock.saved.physical ≤ (s.clock.advancePhysical now).physical
      · exact .inr (by simp [Clock.waitFor_bound_eq_none h.below hmono hwait])
      · exact .inl (not_le.mp hwait)
    obtain ⟨hsaved, ⟨hwait, r, hr, -⟩ | ⟨hlt, hbound, hcur⟩ | ⟨hnow, -, hcur⟩⟩ :=
      Clock.allocate_cases_of_counter h.fits.2.2 hc
    · rw [Clock.waitFor_bound_eq_none h.below hmono hwait] at hr
      exact absurd hr (by simp)
    · exact ⟨hsaved, hforward, now, rfl, .inl ⟨hlt, hbound, hcur⟩⟩
    · exact ⟨hsaved, hforward, now, rfl, .inr ⟨hnow, hcur⟩⟩

/-- An allocation that leaves the counter its room issues a pair of the layout, below the saved bound. -/
theorem InTerm.step_allocate {readings : List ℤ} (h : s.InTerm) (hmono : readings.Pairwise (· ≤ ·))
    (hr : ∀ now ∈ readings, now < 2^45) (hroom : s.CounterLeft (.allocate readings))
    (hs : s.step (.allocate readings) = some t) : t.InTerm := by
  obtain ⟨h0, h45, hl⟩ := h.fits
  obtain ⟨c, hc, rfl⟩ := Option.map_eq_some_iff.mp hs
  obtain ⟨hsaved, hforward, now, hnow, hcases⟩ := h.allocate_cases hmono hc
  have hfits : c.current.Fits := by
    rcases hcases with ⟨hlt, -, hcur⟩ | ⟨hle, hcur⟩
    · rw [hcur]
      exact ⟨le_trans h0 (le_of_lt hlt), hr now (List.mem_of_mem_head? hnow),
        show 1 ≤ MAX_LOGICAL by decide⟩
    · rw [hcur]
      exact ⟨h0, h45, Nat.lt_of_le_of_ne hl (hroom now hnow hle)⟩
  have hbelow : c.current.physical < c.saved.physical := by
    rw [hsaved]
    rcases hcases with ⟨-, hbound, hcur⟩ | ⟨-, hcur⟩
    · rw [hcur]
      exact hbound
    · rw [hcur]
      exact h.below
  have hmoves : s.Forward (.allocate readings) := .inr hforward
  refine ⟨hfits, hbelow, ?_, h.pairs.step hmoves hs, ?_⟩
  · show ∀ upperBound ∈ s.persisting, c.saved.physical < upperBound
    rw [hsaved]
    exact h.persisting
  · intro ts hts
    rcases List.mem_append.mp hts with hts | hts
    · exact h.issued ts hts
    · rw [List.mem_singleton.mp hts]
      exact hfits

/-- A step that leaves the counter its room keeps the term so. -/
theorem InTerm.step (h : s.InTerm) (hmono : a.readings.Pairwise (· ≤ ·))
    (hr : ∀ now ∈ a.readings, now < 2^45) (hroom : s.CounterLeft a) (hs : s.step a = some t) :
    t.InTerm := by
  cases a with
  | allocate readings => exact h.step_allocate hmono hr hroom hs
  | updateWindow =>
    have hpairs := h.pairs.step (a := .updateWindow) trivial hs
    simp only [ServingClock.step] at hs
    split_ifs at hs
    obtain rfl := Option.some.inj hs
    refine ⟨h.fits, h.below, ?_, hpairs, h.issued⟩
    -- A bound is computed only where it is above the one that is saved, which is not zero.
    intro upperBound hu
    simp only [Clock.nextUpperBound, Option.mem_def] at hu
    have hbelow := h.below
    have hphysical := h.fits.1
    split_ifs at hu with hsufficient
    obtain rfl := Option.some.inj hu
    show s.clock.saved.physical < _
    omega
  | persisted =>
    have hpairs := h.pairs.step (a := .persisted) trivial hs
    obtain ⟨upperBound, hu, rfl⟩ := Option.map_eq_some_iff.mp hs
    exact ⟨h.fits, lt_trans h.below (h.persisting _ hu), by simp, hpairs, h.issued⟩
  | persistFailed =>
    have hpairs := h.pairs.step (a := .persistFailed) trivial hs
    obtain ⟨-, -, rfl⟩ := Option.map_eq_some_iff.mp hs
    exact ⟨h.fits, h.below, by simp, hpairs, h.issued⟩

/-- A call that finds the counter used up issues a pair outside of the layout. -/
theorem InTerm.not_ordered_step (h : s.InTerm) (hmono : a.readings.Pairwise (· ≤ ·))
    (hroom : ¬s.CounterLeft a) (hs : s.step a = some t) :
    ∃ ts ∈ t.issued, MAX_LOGICAL < ts.logical := by
  cases a with
  | allocate readings =>
    obtain ⟨c, hc, rfl⟩ := Option.map_eq_some_iff.mp hs
    obtain ⟨-, -, now, hnow, hcases⟩ := h.allocate_cases hmono hc
    simp only [CounterLeft, not_forall, not_not] at hroom
    obtain ⟨now', hnow', hle', hmax⟩ := hroom
    obtain rfl := Option.mem_unique hnow hnow'
    refine ⟨c.current, List.mem_append_right _ List.mem_cons_self, ?_⟩
    rcases hcases with ⟨hlt, -⟩ | ⟨-, hcur⟩
    · exact absurd hle' (not_le.mpr hlt)
    · rw [hcur]
      show MAX_LOGICAL < s.clock.current.logical + 1
      omega
  | updateWindow | persisted | persistFailed => exact absurd trivial hroom

/-- A whole run from such a state: the packed timestamps are in order exactly if every call leaves the
counter its room. -/
theorem ordered_run_iff {as : List ClockAction} (hI : s.InTerm)
    (hmono : ∀ a ∈ as, a.readings.Pairwise (· ≤ ·))
    (hr : ∀ a ∈ as, ∀ now ∈ a.readings, now < 2^45) (h : run step s as = some t) :
    t.Ordered ↔ Along step CounterLeft s as := by
  induction as generalizing s with
  | nil =>
    obtain rfl : s = t := by simpa [run] using h
    exact iff_of_true hI.ordered trivial
  | cons a as ih =>
    obtain ⟨s', hs', h⟩ := Option.bind_eq_some_iff.mp h
    obtain ⟨hmono, hmonos⟩ := List.forall_mem_cons.mp hmono
    obtain ⟨hr, hrs⟩ := List.forall_mem_cons.mp hr
    rw [along_cons_iff hs']
    by_cases hroom : s.CounterLeft a
    · rw [ih (hI.step hmono hr hroom hs') hmonos hrs h]
      exact ⟨fun h => ⟨hroom, h⟩, fun h => h.2⟩
    · -- A pair that does not fit stays in the list.
      refine iff_of_false (fun hordered => ?_) fun h => hroom h.1
      obtain ⟨ts, hts, hlt⟩ := hI.not_ordered_step hmono hroom hs'
      exact absurd (hordered.logical_le ts ((issued_run h).subset hts)) (not_le.mpr hlt)

/-- Over a wall clock that does not step back and stays below `2^45`, the packed timestamps issued in
a leadership term increase in call order, have counters of at most `MAX_LOGICAL` and give back their
parts, exactly if no call is made in the millisecond of the current pair once its counter is at
`MAX_LOGICAL`. -/
theorem composed_ordered_iff {p₀ : ℤ} {as : List ClockAction} (h0 : 0 ≤ p₀) (hp : p₀ < 2^45)
    (hmono : (as.flatMap ClockAction.readings).Pairwise (· ≤ ·))
    (hr : ∀ now ∈ as.flatMap ClockAction.readings, now < 2^45)
    (h : run step (startOfTerm p₀) as = some t) :
    t.Ordered ↔ Along step CounterLeft (startOfTerm p₀) as := by
  refine ordered_run_iff (inTerm_startOfTerm h0 hp) ?_ ?_ h
  · exact (List.pairwise_flatMap.mp hmono).1
  · intro a ha now hnow
    exact hr now (List.mem_flatMap.mpr ⟨a, ha, hnow⟩)

/-- Three calls over two milliseconds, and an update of the window. -/
def twoMilliseconds : List ClockAction :=
  [.allocate [1000], .allocate [1000], .updateWindow, .allocate [1001]]

/-- Their timestamps are in order. -/
theorem composed_ordered_iff_two_milliseconds :
    ∃ t, run step (startOfTerm 1000) twoMilliseconds = some t ∧ t.Ordered := by
  have hrun : run step (startOfTerm 1000) twoMilliseconds = some _ := rfl
  refine ⟨_, hrun, (composed_ordered_iff (by decide) (by decide) (by decide) (by decide) hrun).mpr ?_⟩
  decide

/-- The clock after `n` more calls in its millisecond. -/
def usedMore (s : ServingClock) (n : ℕ) : ServingClock where
  clock := { s.clock with current := ⟨s.clock.current.physical, s.clock.current.logical + n⟩ }
  persisting := s.persisting
  issued := s.issued ++ (List.range n).map fun i =>
    ⟨s.clock.current.physical, s.clock.current.logical + i + 1⟩

/-- Below the bound, calls in the current millisecond increment the counter, at most to
`MAX_LOGICAL + 1`. -/
theorem run_usedMore (s : ServingClock) (n : ℕ)
    (hbelow : s.clock.current.physical < s.clock.saved.physical)
    (hn : s.clock.current.logical + n ≤ MAX_LOGICAL + 1) :
    run step s (List.replicate n (.allocate [s.clock.current.physical])) = some (s.usedMore n) := by
  induction n with
  | zero => simp [run, usedMore]
  | succ n ih =>
    have hcall : (s.usedMore n).clock.allocate [s.clock.current.physical] =
        some { (s.usedMore n).clock with
          current := ⟨s.clock.current.physical, s.clock.current.logical + n + 1⟩ } := by
      refine Clock.allocate_of_le [] (le_refl s.clock.current.physical) hbelow ?_
      show s.clock.current.logical + n ≤ MAX_LOGICAL
      omega
    rw [List.replicate_succ', run_append, ih (by omega), Option.bind_some, run, step, hcall]
    simp [run, usedMore, List.range_succ, Nat.add_assoc]

/-- The clock after `n` calls in the first millisecond of the term. -/
def usedInFirst (p₀ : ℤ) (n : ℕ) : ServingClock := (startOfTerm p₀).usedMore n

/-- The calls increment the counter, the last of them to `MAX_LOGICAL + 1`. -/
theorem run_usedInFirst (p₀ : ℤ) (n : ℕ) (hn : n ≤ MAX_LOGICAL) :
    run step (startOfTerm p₀) (List.replicate n (.allocate [p₀])) = some (usedInFirst p₀ n) := by
  have hbelow : (startOfTerm p₀).clock.current.physical < (startOfTerm p₀).clock.saved.physical := by
    simp [startOfTerm, TimeStamp.reset, defaultUpperBoundWindow]
  have hcount : (startOfTerm p₀).clock.current.logical + n ≤ MAX_LOGICAL + 1 := by
    show 1 + n ≤ MAX_LOGICAL + 1
    omega
  exact run_usedMore (startOfTerm p₀) n hbelow hcount

/-- In the odd millisecond 1001 a term issues its `MAX_LOGICAL` timestamps, the last of which has a
counter of `MAX_LOGICAL + 1` and is composed to a value below the one before it. -/
theorem composed_not_ordered :
    run step (startOfTerm 1001) (List.replicate MAX_LOGICAL (.allocate [1001])) =
        some (usedInFirst 1001 MAX_LOGICAL) ∧
      TimeStamp.compose ⟨1001, MAX_LOGICAL + 1⟩ < TimeStamp.compose ⟨1001, MAX_LOGICAL⟩ ∧
      ¬((usedInFirst 1001 MAX_LOGICAL).issued.map TimeStamp.compose).Pairwise (· < ·) ∧
      ¬(usedInFirst 1001 MAX_LOGICAL).Ordered := by
  have hfall : TimeStamp.compose ⟨1001, MAX_LOGICAL + 1⟩ < TimeStamp.compose ⟨1001, MAX_LOGICAL⟩ := by
    decide +kernel
  have hnot : ¬((usedInFirst 1001 MAX_LOGICAL).issued.map TimeStamp.compose).Pairwise (· < ·) := by
    obtain ⟨m, hm⟩ : ∃ m, MAX_LOGICAL = m + 2 := ⟨MAX_LOGICAL - 2, by decide⟩
    rw [hm] at hfall ⊢
    intro hpair
    have hissued : (usedInFirst 1001 (m + 2)).issued = (List.range (m + 2)).map fun i => ⟨1001, 1 + i + 1⟩ := rfl
    rw [hissued, List.map_map, List.pairwise_map] at hpair
    -- The last two timestamps of the millisecond.
    have hlt := List.pairwise_iff_getElem.mp hpair m (m + 1) (by simp) (by simp) (Nat.lt_succ_self m)
    rw [List.getElem_range, List.getElem_range, Function.comp_apply, Function.comp_apply, Nat.add_comm 1 m,
      Nat.add_comm 1 (m + 1)] at hlt
    exact absurd hlt (not_lt.mpr (le_of_lt hfall))
  exact ⟨run_usedInFirst 1001 MAX_LOGICAL (Nat.le_refl _), hfall, hnot,
    fun hordered => hnot hordered.increasing⟩

end ServingClock

end Omashu
