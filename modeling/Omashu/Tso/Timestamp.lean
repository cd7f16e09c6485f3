import Mathlib.Data.Int.Order.Basic
import Mathlib.Data.Nat.Bitwise
import Mathlib.Tactic.NormNum

/-!
# Hybrid timestamps and their allocation

`timeStamp` of `tso.go` is a pair of a physical part in milliseconds and a logical counter, and
`Compose` packs it into 64 bits. `Clock.allocate` is `TSO.allocate`: it reads the wall clock once,
and again in each turn of its two wait loops. The readings of one call are a list, and the result is
`none` where they run out in a loop.

`allocate_lt_iff` says exactly when a call moves the pair forward, and `Clock.Steady.advances` when
it moves the composed timestamp forward.
-/

namespace Omashu

/-- `LOGICAL_BITS`. -/
def LOGICAL_BITS : ℕ := 18

/-- `MAX_LOGICAL`. -/
def MAX_LOGICAL : ℕ := 2^LOGICAL_BITS - 1

/-- `defaultUpperBoundWindow`, in milliseconds. -/
def defaultUpperBoundWindow : ℤ := 2000

/-- `timeStamp`. The logical counter starts at zero and is only incremented. -/
structure TimeStamp where
  /-- The physical part, in milliseconds. -/
  physical : ℤ
  /-- The logical counter. -/
  logical : ℕ
  deriving DecidableEq, Repr

namespace TimeStamp

/-- `Reset`. -/
def reset (newTs : ℤ) : TimeStamp := ⟨newTs, 0⟩

/-- `Incr`. -/
def incr (ts : TimeStamp) : TimeStamp := { ts with logical := ts.logical + 1 }

/-- `ExceedLogicalMax`. -/
def exceedLogicalMax (ts : TimeStamp) : Bool := MAX_LOGICAL < ts.logical

/-- `Compose`: the physical part shifted, or-ed with the counter, on 64-bit words. -/
def compose (ts : TimeStamp) : ℕ :=
  (BitVec.ofInt 64 ts.physical <<< LOGICAL_BITS ||| BitVec.ofNat 64 ts.logical).toNat

/-- The lexicographic order of the pairs. -/
def Lt (a b : TimeStamp) : Prop :=
  a.physical < b.physical ∨ a.physical = b.physical ∧ a.logical < b.logical

instance (a b : TimeStamp) : Decidable (a.Lt b) := inferInstanceAs (Decidable (_ ∨ _))

/-- The parts are in the ranges that the 64-bit layout gives them. -/
def Fits (ts : TimeStamp) : Prop :=
  0 ≤ ts.physical ∧ ts.physical < 2^45 ∧ ts.logical ≤ MAX_LOGICAL

instance (ts : TimeStamp) : Decidable ts.Fits := inferInstanceAs (Decidable (_ ∧ _))

/-- The lexicographic order is transitive. -/
theorem Lt.trans {a b c : TimeStamp} (h : a.Lt b) (h' : b.Lt c) : a.Lt c := by
  unfold Lt at *
  omega

/-- In its ranges, the packed timestamp is the shifted physical part or-ed with the counter. -/
theorem compose_eq_or {ts : TimeStamp} (h0 : 0 ≤ ts.physical) (hp : ts.physical < 2^45)
    (hl : ts.logical ≤ 2^18) : ts.compose = ts.physical.toNat <<< 18 ||| ts.logical := by
  have hword : (BitVec.ofInt 64 ts.physical).toNat = ts.physical.toNat := by
    rw [BitVec.toNat_ofInt, Int.emod_eq_of_lt h0 (by omega)]
  have hshift : ts.physical.toNat <<< 18 % 2^64 = ts.physical.toNat <<< 18 := by
    rw [Nat.shiftLeft_eq]
    omega
  have hcount : ts.logical % 2^64 = ts.logical := by omega
  unfold compose LOGICAL_BITS
  rw [BitVec.toNat_or, BitVec.toNat_shiftLeft, BitVec.toNat_ofNat, hword, hshift, hcount]

/-- In its ranges, the packed timestamp is the physical part times `2^18` plus the counter. -/
theorem compose_eq {ts : TimeStamp} (h : ts.Fits) :
    ts.compose = ts.physical.toNat * 2^18 + ts.logical := by
  obtain ⟨h0, hp, hl⟩ := h
  have hl' : ts.logical < 2^18 := by
    unfold MAX_LOGICAL LOGICAL_BITS at hl
    omega
  rw [compose_eq_or h0 hp (le_of_lt hl'), ← Nat.shiftLeft_add_eq_or_of_lt hl', Nat.shiftLeft_eq]

/-- A counter that has just been used up moves the packed timestamp by one millisecond at most. -/
theorem compose_bounds {ts : TimeStamp} (h0 : 0 ≤ ts.physical) (hp : ts.physical < 2^45)
    (hl : ts.logical ≤ 2^18) :
    ts.physical.toNat * 2^18 ≤ ts.compose ∧ ts.compose ≤ (ts.physical.toNat + 1) * 2^18 := by
  rw [compose_eq_or h0 hp hl]
  rcases Nat.lt_or_eq_of_le hl with hlt | heq
  · rw [← Nat.shiftLeft_add_eq_or_of_lt hlt, Nat.shiftLeft_eq]
    omega
  · -- The counter has its bit above the eighteen of the layout, and is or-ed into the physical part.
    have hone : ts.logical = 1 <<< 18 := heq
    have hhalf : (ts.physical.toNat ||| 1) / 2 = ts.physical.toNat / 2 := by
      rw [Nat.or_div_two]
      exact Nat.or_zero _
    have hle : ts.physical.toNat ≤ ts.physical.toNat ||| 1 := Nat.left_le_or
    rw [hone, ← Nat.shiftLeft_or_distrib, Nat.shiftLeft_eq]
    constructor
    · exact Nat.mul_le_mul_right _ hle
    · apply Nat.mul_le_mul_right
      omega

/-- Packed timestamps are ordered as their physical parts, where these are two milliseconds apart. -/
theorem compose_lt_of_gap {a b : TimeStamp} (ha0 : 0 ≤ a.physical) (hap : a.physical < 2^45)
    (hal : a.logical ≤ 2^18) (hbp : b.physical < 2^45) (hbl : b.logical ≤ 2^18)
    (h : a.physical + 2 ≤ b.physical) : a.compose < b.compose := by
  have hupper := (compose_bounds ha0 hap hal).2
  have hlower := (compose_bounds (by omega) hbp hbl).1
  omega

/-- The packed timestamps are ordered as the pairs. -/
theorem compose_lt_compose {a b : TimeStamp} (ha : a.Fits) (hb : b.Fits) (h : a.Lt b) :
    a.compose < b.compose := by
  rw [compose_eq ha, compose_eq hb]
  obtain ⟨ha0, -, hal⟩ := ha
  unfold MAX_LOGICAL LOGICAL_BITS at hal
  rcases h with h | ⟨h, hl⟩
  · omega
  · rw [h]
    omega

end TimeStamp

/-- The clock of an oracle: `current` and `saved` of `TSO`. -/
structure Clock where
  /-- The last timestamp allocated. -/
  current : TimeStamp
  /-- The upper bound that is persisted. -/
  saved : TimeStamp
  deriving DecidableEq, Repr

/-- A wait loop: reads the clock until a reading meets the condition, and returns that reading and
the readings that are left. -/
def waitFor (p : ℤ → Bool) : List ℤ → Option (ℤ × List ℤ)
  | [] => none
  | now :: readings => if p now then some (now, readings) else waitFor p readings

namespace Clock

/-- Step 1 of `allocate`: advance the physical time if possible. -/
def advancePhysical (c : Clock) (now : ℤ) : TimeStamp :=
  if c.current.physical < now then TimeStamp.reset now else c.current

/-- Step 2 of `allocate`: at or beyond the upper bound, wait for a reading below it. -/
def enforceUpperBound (saved cur : TimeStamp) (readings : List ℤ) :
    Option (TimeStamp × List ℤ) :=
  if saved.physical ≤ cur.physical then
    (waitFor (fun now => now < saved.physical) readings).map fun r => (TimeStamp.reset r.1, r.2)
  else some (cur, readings)

/-- Step 3 of `allocate`: on logical overflow, wait for the physical time to advance. -/
def handleLogicalOverflow (cur : TimeStamp) (readings : List ℤ) : Option (TimeStamp × List ℤ) :=
  if cur.exceedLogicalMax then
    (waitFor (fun now => cur.physical < now) readings).map fun r => (TimeStamp.reset r.1, r.2)
  else some (cur, readings)

/-- `TSO.allocate` on the readings of the wall clock that it makes. The timestamp returned is the
new `current`, composed. -/
def allocate (c : Clock) : List ℤ → Option Clock
  | [] => none
  | now :: readings => do
    let (cur, readings) ← enforceUpperBound c.saved (c.advancePhysical now) readings
    let (cur, _) ← handleLogicalOverflow cur readings
    return { c with current := cur.incr }

/-- The decision of `UpdateWindow`: the new upper bound, unless the saved one is still sufficient. -/
def nextUpperBound (c : Clock) : Option ℤ :=
  let upperBound := c.current.physical + defaultUpperBoundWindow
  if c.saved.physical ≠ 0 ∧ upperBound ≤ c.saved.physical then none else some upperBound

/-- Sets the saved upper bound, once it is persisted. -/
def resetSaved (c : Clock) (upperBound : ℤ) : Clock :=
  { c with saved := TimeStamp.reset upperBound }

/-- The call does not enter the upper-bound wait, or leaves it at a reading above the current
physical part. -/
def MovesForward (c : Clock) : List ℤ → Prop
  | [] => True
  | now :: readings =>
    (c.advancePhysical now).physical < c.saved.physical ∨
      ∀ r ∈ waitFor (fun now => now < c.saved.physical) readings, c.current.physical < r.1

instance (c : Clock) : (readings : List ℤ) → Decidable (c.MovesForward readings)
  | [] => inferInstanceAs (Decidable True)
  | _ :: _ => inferInstanceAs (Decidable (_ ∨ _))

/-- The call moves forward, its readings fit the layout, and it does not use up the logical counter
of a millisecond that it stays in. -/
def Steady (c : Clock) (readings : List ℤ) : Prop :=
  c.current.Fits ∧ c.MovesForward readings ∧ (∀ now ∈ readings, now < 2^45) ∧
    ∀ now ∈ readings.head?, now ≤ c.current.physical → c.current.logical < MAX_LOGICAL

instance (c : Clock) (readings : List ℤ) : Decidable (c.Steady readings) := inferInstanceAs (Decidable (_ ∧ _))

/-- Where the call returns, the timestamp it returns is above the one before. -/
def Advances (c : Clock) (readings : List ℤ) : Prop :=
  ∀ c' ∈ c.allocate readings, c.current.compose < c'.current.compose

instance (c : Clock) (readings : List ℤ) : Decidable (c.Advances readings) :=
  inferInstanceAs (Decidable (∀ c' ∈ c.allocate readings, _))

end Clock

/-- The reading that ends a wait meets its condition and is one of the readings. -/
theorem waitFor_spec {p : ℤ → Bool} {readings : List ℤ} {r : ℤ × List ℤ}
    (h : waitFor p readings = some r) : p r.1 ∧ r.1 ∈ readings := by
  induction readings with
  | nil => simp [waitFor] at h
  | cons now readings ih =>
    unfold waitFor at h
    split_ifs at h with hp
    · obtain rfl := Option.some.inj h
      exact ⟨hp, List.mem_cons_self⟩
    · exact ⟨(ih h).1, List.mem_cons_of_mem _ (ih h).2⟩

namespace Clock

/-- What a call of `allocate` can do: it leaves the upper-bound wait at some reading, or it moves to
a reading above the current physical part, or it increments the counter in place. -/
theorem allocate_cases {c c' : Clock} {now : ℤ} {readings : List ℤ}
    (h : c.allocate (now :: readings) = some c') :
    c'.saved = c.saved ∧
      ((c.saved.physical ≤ (c.advancePhysical now).physical ∧
          ∃ r ∈ waitFor (fun now => now < c.saved.physical) readings, c'.current = ⟨r.1, 1⟩) ∨
        ((c.advancePhysical now).physical < c.saved.physical ∧
          ∃ r ∈ now :: readings, c.current.physical < r ∧ c'.current = ⟨r, 1⟩) ∨
        ((c.advancePhysical now).physical < c.saved.physical ∧ now ≤ c.current.physical ∧
          c.current.logical ≤ MAX_LOGICAL ∧ c'.current = c.current.incr)) := by
  simp only [allocate, Option.bind_eq_bind, Option.bind_eq_some_iff, Option.pure_def,
    Option.some.injEq, Prod.exists] at h
  obtain ⟨cur, rest, hbound, cur', rest', hover, rfl⟩ := h
  refine ⟨rfl, ?_⟩
  unfold enforceUpperBound at hbound
  split_ifs at hbound with hwait
  · -- After the upper-bound wait the counter is zero, so there is no overflow.
    obtain ⟨r, hr, heq⟩ := Option.map_eq_some_iff.mp hbound
    obtain ⟨rfl, rfl⟩ := Prod.mk.inj heq
    have hzero : (TimeStamp.reset r.1).exceedLogicalMax = false := by
      simp [TimeStamp.exceedLogicalMax, TimeStamp.reset]
    rw [handleLogicalOverflow, if_neg (by simp [hzero])] at hover
    obtain ⟨rfl, -⟩ := Prod.mk.inj (Option.some.inj hover)
    exact .inl ⟨hwait, r, hr, rfl⟩
  · obtain ⟨rfl, rfl⟩ := Prod.mk.inj (Option.some.inj hbound)
    have hlt := not_le.mp hwait
    refine .inr ?_
    -- Below the bound the first reading decides, and if the counter is used up, a later one.
    by_cases hnow : c.current.physical < now
    · have hadv : c.advancePhysical now = TimeStamp.reset now := if_pos hnow
      have hzero : (TimeStamp.reset now).exceedLogicalMax = false := by
        simp [TimeStamp.exceedLogicalMax, TimeStamp.reset]
      rw [hadv, handleLogicalOverflow, if_neg (by simp [hzero])] at hover
      obtain ⟨rfl, -⟩ := Prod.mk.inj (Option.some.inj hover)
      exact .inl ⟨hlt, now, List.mem_cons_self, hnow, rfl⟩
    · have hadv : c.advancePhysical now = c.current := if_neg hnow
      rw [hadv, handleLogicalOverflow] at hover
      split_ifs at hover with hmax
      · obtain ⟨r, hr, heq⟩ := Option.map_eq_some_iff.mp hover
        obtain ⟨rfl, -⟩ := Prod.mk.inj heq
        obtain ⟨hpos, hmem⟩ := waitFor_spec hr
        exact .inl ⟨hlt, r.1, List.mem_cons_of_mem _ hmem, by simpa using hpos, rfl⟩
      · obtain ⟨rfl, -⟩ := Prod.mk.inj (Option.some.inj hover)
        refine .inr ⟨hlt, not_lt.mp hnow, ?_, rfl⟩
        simpa [TimeStamp.exceedLogicalMax] using hmax

/-- A call that does not leave the upper-bound wait at or below the current physical part moves the
pair forward. -/
theorem MovesForward.lt {c c' : Clock} {readings : List ℤ} (hf : c.MovesForward readings)
    (h : c.allocate readings = some c') : c.current.Lt c'.current := by
  cases readings with
  | nil => simp [allocate] at h
  | cons now readings =>
    obtain ⟨-, ⟨hwait, r, hr, hcur⟩ | ⟨-, r, -, hr, hcur⟩ | ⟨-, -, -, hcur⟩⟩ := allocate_cases h
    · rw [hcur]
      rcases hf with hlt | hall
      · exact absurd hlt (not_lt.mpr hwait)
      · exact .inl (hall r hr)
    · rw [hcur]
      exact .inl hr
    · rw [hcur]
      exact .inr ⟨rfl, Nat.lt_succ_self _⟩

/-- Once the counter has been used, a call moves the pair forward exactly where it does not leave
the upper-bound wait at or below the current physical part. -/
theorem allocate_lt_iff {c c' : Clock} {readings : List ℤ} (h : c.allocate readings = some c')
    (hused : 0 < c.current.logical) : c.current.Lt c'.current ↔ c.MovesForward readings := by
  refine ⟨fun hlt => ?_, fun hf => hf.lt h⟩
  cases readings with
  | nil => trivial
  | cons now readings =>
    obtain ⟨-, ⟨-, r, hr, hcur⟩ | ⟨hbound, -⟩ | ⟨hbound, -⟩⟩ := allocate_cases h
    · refine .inr fun r' hr' => ?_
      obtain rfl := Option.mem_unique hr hr'
      rw [hcur] at hlt
      -- At an equal physical part the counter of one is not above a used counter.
      rcases hlt with hlt | ⟨-, hlt⟩
      · exact hlt
      · exact absurd hlt (not_lt.mpr hused)
    · exact .inl hbound
    · exact .inl hbound

/-- A call leaves the counter used. -/
theorem allocate_logical_pos {c c' : Clock} {readings : List ℤ}
    (h : c.allocate readings = some c') : 0 < c'.current.logical := by
  cases readings with
  | nil => simp [allocate] at h
  | cons now readings =>
    obtain ⟨-, ⟨-, r, -, hcur⟩ | ⟨-, r, -, -, hcur⟩ | ⟨-, -, -, hcur⟩⟩ := allocate_cases h
    · simp [hcur]
    · simp [hcur]
    · simp [hcur, TimeStamp.incr]

/-- A steady call keeps the pair within the layout. -/
theorem Steady.fits {c c' : Clock} {readings : List ℤ} (hs : c.Steady readings)
    (h : c.allocate readings = some c') : c'.current.Fits := by
  obtain ⟨⟨h0, h45, -⟩, hf, hr, hmax⟩ := hs
  -- A reading that the call moves to is above the current physical part.
  have hone : ∀ r ∈ readings, c.current.physical < r → TimeStamp.Fits ⟨r, 1⟩ := by
    intro r hmem hlt
    exact ⟨le_trans h0 (le_of_lt hlt), hr r hmem, show 1 ≤ MAX_LOGICAL by decide⟩
  cases readings with
  | nil => simp [allocate] at h
  | cons now readings =>
    obtain ⟨-, ⟨hwait, r, hw, hcur⟩ | ⟨-, r, hmem, hlt, hcur⟩ | ⟨-, hnow, -, hcur⟩⟩ :=
      allocate_cases h
    · rw [hcur]
      rcases hf with hlt | hall
      · exact absurd hlt (not_lt.mpr hwait)
      · exact hone r.1 (List.mem_cons_of_mem _ (waitFor_spec hw).2) (hall r hw)
    · rw [hcur]
      exact hone r hmem hlt
    · rw [hcur]
      exact ⟨h0, h45, hmax now rfl hnow⟩

/-- A steady call moves the timestamp forward. -/
theorem Steady.advances {c : Clock} {readings : List ℤ} (hs : c.Steady readings) :
    c.Advances readings := by
  intro c' h
  exact TimeStamp.compose_lt_compose hs.1 (hs.fits h) (hs.2.1.lt h)

end Clock

end Omashu
