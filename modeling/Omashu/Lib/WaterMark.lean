import Mathlib.Algebra.Order.Ring.Int
import Mathlib.Data.List.Pairwise

/-!
# Watermarks

A watermark tracks indices that are begun and done. It keeps a count for each pending index, which
a `Begin` raises and a `Done` lowers by one, and the bound `doneUntil`, which moves up through the
pending indices in increasing order for as long as their count is not positive. An index below the
bound must not be marked any more: `mark` is undefined there.

The pending indices are kept sorted and at or above the bound, as fields of the structure. The two
facts that a user needs are `count_mark`, which says what a mark does to the count of an index whose
count does not become negative, and `doneUntil_le_of_count_pos`, which says that the bound never passes an
index with a positive count. Conversely the bound is always an index that was done, or one that it was
set to (`Within.mark`), and when every index is done as often as it was begun it is the greatest one
(`Tracks.isGreatest`).
-/

namespace Omashu.Lib

namespace WaterMark

/-- Adds `d` to the count of `i` in a sorted list of pending indices. -/
def adjust (i : ℕ) (d : ℤ) : List (ℕ × ℤ) → List (ℕ × ℤ)
  | [] => [(i, d)]
  | (j, c) :: l =>
    if i < j then (i, d) :: (j, c) :: l
    else if i = j then (j, c + d) :: l
    else (j, c) :: adjust i d l

/-- Moves the bound up over the leading indices whose count is not positive, and drops them. -/
def advance : ℕ → List (ℕ × ℤ) → ℕ × List (ℕ × ℤ)
  | until_, [] => (until_, [])
  | until_, (j, c) :: l => if 0 < c then (until_, (j, c) :: l) else advance j l

/-- The count of an index in a list of pending indices, zero when it is not pending. -/
def countIn (i : ℕ) : List (ℕ × ℤ) → ℤ
  | [] => 0
  | (j, c) :: l => if j = i then c else countIn i l

/-- The pending indices are strictly increasing. -/
abbrev Sorted (l : List (ℕ × ℤ)) : Prop := l.Pairwise fun p q => p.1 < q.1

/-- No pending index is below the bound. -/
abbrev Above (u : ℕ) (l : List (ℕ × ℤ)) : Prop := ∀ p ∈ l, u ≤ p.1

/-- The indices after an adjustment are the old ones and the adjusted one. -/
theorem mem_adjust {i : ℕ} {d : ℤ} {l : List (ℕ × ℤ)} {p : ℕ × ℤ} (h : p ∈ adjust i d l) :
    p.1 = i ∨ ∃ q ∈ l, q.1 = p.1 := by
  induction l with
  | nil => simp_all [adjust]
  | cons q l ih =>
    obtain ⟨j, c⟩ := q
    unfold adjust at h
    split_ifs at h with h1 h2
    · rcases List.mem_cons.mp h with rfl | h
      · exact .inl rfl
      · exact .inr ⟨p, h, rfl⟩
    · rcases List.mem_cons.mp h with rfl | h
      · exact .inl h2.symm
      · exact .inr ⟨p, List.mem_cons_of_mem _ h, rfl⟩
    · rcases List.mem_cons.mp h with rfl | h
      · exact .inr ⟨(j, c), List.mem_cons_self, rfl⟩
      · rcases ih h with hi | ⟨q, hq, hqp⟩
        · exact .inl hi
        · exact .inr ⟨q, List.mem_cons_of_mem _ hq, hqp⟩

/-- An adjustment keeps the pending indices sorted. -/
theorem sorted_adjust (i : ℕ) (d : ℤ) {l : List (ℕ × ℤ)} (h : Sorted l) :
    Sorted (adjust i d l) := by
  induction l with
  | nil => simp [adjust, Sorted]
  | cons q l ih =>
    obtain ⟨j, c⟩ := q
    obtain ⟨hj, hl⟩ := List.pairwise_cons.mp h
    unfold adjust
    split_ifs with h1 h2
    · refine List.pairwise_cons.mpr ⟨?_, h⟩
      intro p hp
      rcases List.mem_cons.mp hp with rfl | hp
      · exact h1
      · exact lt_trans h1 (hj p hp)
    · exact List.pairwise_cons.mpr ⟨hj, hl⟩
    · refine List.pairwise_cons.mpr ⟨?_, ih hl⟩
      intro p hp
      rcases mem_adjust hp with hpi | ⟨q, hq, hqp⟩
      · show j < p.1
        omega
      · rw [← hqp]
        exact hj q hq

/-- An adjustment at or above the bound keeps the pending indices at or above it. -/
theorem above_adjust {u i : ℕ} (d : ℤ) {l : List (ℕ × ℤ)} (hi : u ≤ i) (h : Above u l) :
    Above u (adjust i d l) := by
  intro p hp
  rcases mem_adjust hp with hpi | ⟨q, hq, hqp⟩
  · rw [hpi]
    exact hi
  · rw [← hqp]
    exact h q hq

/-- An index that is not pending has the count zero. -/
theorem countIn_eq_zero {i : ℕ} {l : List (ℕ × ℤ)} (h : ∀ p ∈ l, p.1 ≠ i) : countIn i l = 0 := by
  induction l with
  | nil => rfl
  | cons q l ih =>
    obtain ⟨j, c⟩ := q
    have hj : j ≠ i := h (j, c) List.mem_cons_self
    rw [countIn, if_neg hj]
    exact ih fun p hp => h p (List.mem_cons_of_mem _ hp)

/-- An index with a count other than zero is pending with that count. -/
theorem mem_of_countIn_ne_zero {i : ℕ} {l : List (ℕ × ℤ)} (h : countIn i l ≠ 0) :
    (i, countIn i l) ∈ l := by
  induction l with
  | nil => simp [countIn] at h
  | cons q l ih =>
    obtain ⟨j, c⟩ := q
    unfold countIn at h ⊢
    split_ifs at h ⊢ with hj
    · rw [hj]
      exact List.mem_cons_self
    · exact List.mem_cons_of_mem _ (ih h)

/-- An adjustment changes the count of its own index only. -/
theorem countIn_adjust (i j : ℕ) (d : ℤ) {l : List (ℕ × ℤ)} (h : Sorted l) :
    countIn j (adjust i d l) = countIn j l + if j = i then d else 0 := by
  induction l with
  | nil =>
    by_cases hj : i = j
    · simp [adjust, countIn, hj]
    · simp [adjust, countIn, hj, Ne.symm hj]
  | cons q l ih =>
    obtain ⟨m, c⟩ := q
    obtain ⟨hm, hl⟩ := List.pairwise_cons.mp h
    rcases lt_trichotomy i m with h1 | h1 | h1
    · -- `i` is new: it lies below every pending index.
      have h0 : countIn i ((m, c) :: l) = 0 := by
        apply countIn_eq_zero
        intro p hp
        rcases List.mem_cons.mp hp with rfl | hp
        · exact (ne_of_lt h1).symm
        · exact (ne_of_lt (lt_trans h1 (hm p hp))).symm
      rw [adjust, if_pos h1, countIn]
      by_cases hj : j = i
      · rw [if_pos hj.symm, if_pos hj, hj, h0, zero_add]
      · rw [if_neg (Ne.symm hj), if_neg hj, add_zero]
    · rw [adjust, if_neg (by omega), if_pos h1, countIn, countIn]
      by_cases hj : m = j
      · rw [if_pos hj, if_pos hj, if_pos (by omega)]
      · rw [if_neg hj, if_neg hj, if_neg (by omega), add_zero]
    · rw [adjust, if_neg (by omega), if_neg (by omega), countIn, countIn]
      by_cases hj : m = j
      · rw [if_pos hj, if_pos hj, if_neg (by omega), add_zero]
      · rw [if_neg hj, if_neg hj]
        exact ih hl

/-- What `advance` leaves behind is sorted. -/
theorem sorted_advance (u : ℕ) {l : List (ℕ × ℤ)} (h : Sorted l) : Sorted (advance u l).2 := by
  induction l generalizing u with
  | nil => exact h
  | cons q l ih =>
    obtain ⟨j, c⟩ := q
    unfold advance
    split_ifs with hc
    · exact h
    · exact ih j (List.pairwise_cons.mp h).2

/-- The bound after `advance` is at or below what is still pending, and not below the old one. -/
theorem above_advance {u : ℕ} {l : List (ℕ × ℤ)} (hs : Sorted l) (h : Above u l) :
    Above (advance u l).1 (advance u l).2 ∧ u ≤ (advance u l).1 := by
  induction l generalizing u with
  | nil => exact ⟨by simp [advance, Above], le_refl u⟩
  | cons q l ih =>
    obtain ⟨j, c⟩ := q
    obtain ⟨hj, hl⟩ := List.pairwise_cons.mp hs
    unfold advance
    split_ifs with hc
    · exact ⟨h, le_refl u⟩
    · obtain ⟨ha, hle⟩ := ih hl fun p hp => le_of_lt (hj p hp)
      exact ⟨ha, le_trans (h (j, c) List.mem_cons_self) hle⟩

/-- `advance` only drops pending indices. -/
theorem mem_of_mem_advance {u : ℕ} {l : List (ℕ × ℤ)} {p : ℕ × ℤ} (h : p ∈ (advance u l).2) :
    p ∈ l := by
  induction l generalizing u with
  | nil => exact h
  | cons q l ih =>
    obtain ⟨j, c⟩ := q
    unfold advance at h
    split_ifs at h with hc
    · exact h
    · exact List.mem_cons_of_mem _ (ih h)

/-- `advance` keeps a count that is not negative: an index that it drops has the count zero. -/
theorem countIn_advance {u i : ℕ} {l : List (ℕ × ℤ)} (hs : Sorted l) (h : 0 ≤ countIn i l) :
    countIn i (advance u l).2 = countIn i l := by
  induction l generalizing u with
  | nil => rfl
  | cons q l ih =>
    obtain ⟨j, c⟩ := q
    obtain ⟨hj, hl⟩ := List.pairwise_cons.mp hs
    unfold advance
    split_ifs with hc
    · rfl
    · by_cases hji : j = i
      · -- The index is dropped, and those that are left are above it.
        have hzero : countIn i (advance j l).2 = 0 := by
          apply countIn_eq_zero
          intro p hp
          have hlt := hj p (mem_of_mem_advance hp)
          rw [← hji]
          exact (ne_of_lt hlt).symm
        rw [countIn, if_pos hji] at h ⊢
        omega
      · rw [countIn, if_neg hji] at h ⊢
        exact ih hl h

end WaterMark

/-- A watermark: the bound up to which everything is done, and the pending indices with their
counts. -/
structure WaterMark where
  /-- Every index at or below it is done. -/
  doneUntil : ℕ
  /-- The pending indices and their counts. -/
  pending : List (ℕ × ℤ)
  /-- The pending indices are sorted. -/
  sorted : WaterMark.Sorted pending
  /-- No pending index is below the bound. -/
  above : WaterMark.Above doneUntil pending

namespace WaterMark

/-- A watermark with nothing pending, at a given bound. -/
def setDoneUntil (u : ℕ) : WaterMark where
  doneUntil := u
  pending := []
  sorted := List.Pairwise.nil
  above := by simp [Above]

/-- The watermark with the count of `i` changed by `d` and the bound moved up. It is undefined below
the bound. -/
def mark (w : WaterMark) (i : ℕ) (d : ℤ) : Option WaterMark :=
  if h : w.doneUntil ≤ i then
    some {
      doneUntil := (advance w.doneUntil (adjust i d w.pending)).1
      pending := (advance w.doneUntil (adjust i d w.pending)).2
      sorted := sorted_advance _ (sorted_adjust i d w.sorted)
      above := (above_advance (sorted_adjust i d w.sorted) (above_adjust d h w.above)).1 }
  else none

/-- `Begin`: one more of `i` is under way. -/
def beginMark (w : WaterMark) (i : ℕ) : Option WaterMark := w.mark i 1

/-- `Done`: one of `i` is done. -/
def doneMark (w : WaterMark) (i : ℕ) : Option WaterMark := w.mark i (-1)

/-- `WaitForMark` returns at `r`: every index at or below `r` that was begun is done. -/
def Waited (w : WaterMark) (r : ℕ) : Prop := ∀ p ∈ w.pending, p.1 ≤ r → p.2 ≤ 0

instance (w : WaterMark) (r : ℕ) : Decidable (w.Waited r) := inferInstanceAs (Decidable (∀ p ∈ w.pending, _))

/-- The count of an index: how many of it are begun and not done. -/
def count (w : WaterMark) (i : ℕ) : ℤ := countIn i w.pending

variable {w w' : WaterMark} {i j : ℕ} {d : ℤ}

/-- A mark is undefined below the bound only. -/
theorem mark_eq_none_iff : w.mark i d = none ↔ i < w.doneUntil := by
  unfold mark
  split_ifs with h
  · simpa using h
  · simpa using h

/-- A mark does not lower the bound. -/
theorem doneUntil_le_mark (h : w.mark i d = some w') : w.doneUntil ≤ w'.doneUntil := by
  unfold mark at h
  split_ifs at h with hi
  obtain rfl := Option.some.inj h
  exact (above_advance (sorted_adjust i d w.sorted) (above_adjust d hi w.above)).2

/-- A mark adds `d` to the count of its index and nothing to the others, where the sum is not
negative. -/
theorem count_mark (h : w.mark i d = some w') (hpos : 0 ≤ w.count j + if j = i then d else 0) :
    w'.count j = w.count j + if j = i then d else 0 := by
  unfold mark at h
  split_ifs at h with hi
  obtain rfl := Option.some.inj h
  unfold count at hpos ⊢
  rw [← countIn_adjust i j d w.sorted] at hpos ⊢
  exact countIn_advance (sorted_adjust i d w.sorted) hpos

/-- The bound never passes an index with a positive count. -/
theorem doneUntil_le_of_count_pos (h : 0 < w.count i) : w.doneUntil ≤ i :=
  w.above _ (mem_of_countIn_ne_zero (ne_of_gt h))

/-- With nothing pending, a `Begin` at or above the bound leaves its index pending alone. -/
theorem exists_beginMark (h : w.pending = []) (hi : w.doneUntil ≤ i) :
    ∃ w', w.beginMark i = some w' ∧ w'.pending = [(i, 1)] := by
  refine ⟨_, dif_pos hi, ?_⟩
  simp [h, adjust, advance]

/-- The `Done` of an index that is pending alone leaves nothing pending, with the bound at the index. -/
theorem exists_doneMark (h : w.pending = [(i, 1)]) :
    ∃ w', w.doneMark i = some w' ∧ w'.pending = [] ∧ w'.doneUntil = i := by
  have hi : w.doneUntil ≤ i := w.above (i, 1) (h ▸ List.mem_singleton_self _)
  refine ⟨_, dif_pos hi, ?_, ?_⟩
  · simp [h, adjust, advance]
  · simp [h, adjust, advance]

/-! ## Where the bound comes from -/

variable {E : ℕ → Prop}

/-- `adjust` brings the count of no index down to zero, except that of an index in `E`. -/
theorem adjust_within {l : List (ℕ × ℤ)} (hl : ∀ p ∈ l, p.2 ≤ 0 → E p.1) (hd : 0 < d ∨ E i) :
    ∀ p ∈ adjust i d l, p.2 ≤ 0 → E p.1 := by
  -- The count of a new index is `d`.
  have hnew : ∀ c : ℤ, (c ≤ 0 → E i) → c + d ≤ 0 → E i := by
    intro c hc hle
    rcases hd with hd | hd
    · exact hc (by omega)
    · exact hd
  induction l with
  | nil =>
    intro p hp
    obtain rfl := List.mem_singleton.mp hp
    exact fun hle => hnew 0 (fun _ => hd.resolve_left (not_lt.mpr hle)) (by simpa using hle)
  | cons q l ih =>
    obtain ⟨j, c⟩ := q
    have htail : ∀ p ∈ l, p.2 ≤ 0 → E p.1 := fun p hp => hl p (List.mem_cons_of_mem _ hp)
    unfold adjust
    split_ifs with h1 h2
    · intro p hp
      rcases List.mem_cons.mp hp with rfl | hp
      · exact fun hle => hnew 0 (fun _ => hd.resolve_left (not_lt.mpr hle)) (by simpa using hle)
      · exact hl p hp
    · intro p hp
      rcases List.mem_cons.mp hp with rfl | hp
      · subst h2
        exact hnew c (hl (i, c) List.mem_cons_self)
      · exact htail p hp
    · intro p hp
      rcases List.mem_cons.mp hp with rfl | hp
      · exact hl (j, c) List.mem_cons_self
      · exact ih htail p hp

/-- `advance` moves the bound to an index whose count is not positive. -/
theorem advance_within {u : ℕ} {l : List (ℕ × ℤ)} (hu : E u) (hl : ∀ p ∈ l, p.2 ≤ 0 → E p.1) :
    E (advance u l).1 ∧ ∀ p ∈ (advance u l).2, p.2 ≤ 0 → E p.1 := by
  induction l generalizing u with
  | nil => exact ⟨hu, hl⟩
  | cons q l ih =>
    obtain ⟨j, c⟩ := q
    unfold advance
    split_ifs with hc
    · exact ⟨hu, hl⟩
    · exact ih (hl (j, c) List.mem_cons_self (not_lt.mp hc)) fun p hp => hl p (List.mem_cons_of_mem _ hp)

/-- The bound, and every index that has been begun and done as often, is in `E`. -/
structure Within (E : ℕ → Prop) (w : WaterMark) : Prop where
  /-- The bound. -/
  doneUntil : E w.doneUntil
  /-- The pending indices that are done. -/
  pending : ∀ p ∈ w.pending, p.2 ≤ 0 → E p.1

/-- A bound that is set. -/
theorem within_setDoneUntil {u : ℕ} (h : E u) : (setDoneUntil u).Within E :=
  ⟨h, fun _ hp => absurd hp List.not_mem_nil⟩

/-- A larger set. -/
theorem Within.mono {E' : ℕ → Prop} (h : w.Within E) (hE : ∀ j, E j → E' j) : w.Within E' :=
  ⟨hE _ h.doneUntil, fun p hp hle => hE _ (h.pending p hp hle)⟩

/-- The count of an index outside of `E` is not negative. -/
theorem Within.count_nonneg (h : w.Within E) (hi : ¬E i) : 0 ≤ w.count i := by
  by_contra hneg
  have hmem := mem_of_countIn_ne_zero (ne_of_lt (not_le.mp hneg))
  exact hi (h.pending _ hmem (le_of_lt (not_le.mp hneg)))

/-- A `Begin`, or a `Done` of an index in `E`. -/
theorem Within.mark (h : w.Within E) (hd : 0 < d ∨ E i) (hm : w.mark i d = some w') : w'.Within E := by
  unfold WaterMark.mark at hm
  split_ifs at hm
  obtain rfl := Option.some.inj hm
  have hadjust := adjust_within h.pending hd
  exact ⟨(advance_within h.doneUntil hadjust).1, (advance_within h.doneUntil hadjust).2⟩

/-! ## How far the bound gets -/

/-- An adjustment keeps the pending indices, and adds its own. -/
theorem mem_indices_adjust {l : List (ℕ × ℤ)} :
    j ∈ (adjust i d l).map Prod.fst ↔ j = i ∨ j ∈ l.map Prod.fst := by
  induction l with
  | nil => simp [adjust]
  | cons q l ih =>
    obtain ⟨m, c⟩ := q
    unfold adjust
    split_ifs with h1 h2
    · simp only [List.map_cons, List.mem_cons]
    · simp [h2]
    · simp only [List.map_cons, List.mem_cons, ih]
      tauto

/-- The bound passes the indices that `advance` drops. -/
theorem advance_reached {u : ℕ} {l : List (ℕ × ℤ)} (hs : Sorted l) (hj : j ∈ l.map Prod.fst) :
    j ≤ (advance u l).1 ∨ j ∈ (advance u l).2.map Prod.fst := by
  induction l generalizing u with
  | nil => exact .inr hj
  | cons q l ih =>
    obtain ⟨m, c⟩ := q
    obtain ⟨hm, hl⟩ := List.pairwise_cons.mp hs
    unfold advance
    split_ifs with hc
    · exact .inr hj
    · rcases List.mem_cons.mp hj with rfl | hj
      · exact .inl (above_advance hl fun p hp => le_of_lt (hm p hp)).2
      · exact ih hl hj

/-- `advance` stops at an index with a positive count. -/
theorem advance_first {u : ℕ} {l : List (ℕ × ℤ)} : ∀ p ∈ (advance u l).2.head?, 0 < p.2 := by
  induction l generalizing u with
  | nil => simp [advance]
  | cons q l ih =>
    obtain ⟨j, c⟩ := q
    unfold advance
    split_ifs with hc
    · simpa using hc
    · exact ih

/-- The bound has moved through the indices in `E` as far as their counts allow. -/
structure Tracks (E : ℕ → Prop) (w : WaterMark) : Prop extends Within E w where
  /-- An index is pending where the bound has not come to it. -/
  reached : ∀ j, E j → j ≤ w.doneUntil ∨ j ∈ w.pending.map Prod.fst
  /-- The count of the first pending index is positive. -/
  first : ∀ p ∈ w.pending.head?, 0 < p.2

/-- A bound that is set. -/
theorem tracks_setDoneUntil (u : ℕ) : (setDoneUntil u).Tracks (· = u) where
  toWithin := within_setDoneUntil rfl
  reached _ hj := .inl (le_of_eq hj)
  first := by simp [setDoneUntil]

/-- A mark is one more index. -/
theorem Tracks.mark (h : w.Tracks E) (hm : w.mark i d = some w') : w'.Tracks fun j => E j ∨ j = i := by
  have hwithin : w'.Within fun j => E j ∨ j = i :=
    (h.toWithin.mono fun _ => Or.inl).mark (.inr (.inr rfl)) hm
  have hle := doneUntil_le_mark hm
  unfold WaterMark.mark at hm
  split_ifs at hm
  obtain rfl := Option.some.inj hm
  refine ⟨hwithin, fun j hj => ?_, advance_first⟩
  have hpending : j ≤ w.doneUntil ∨ j ∈ (adjust i d w.pending).map Prod.fst := by
    rw [mem_indices_adjust]
    rcases hj with hj | hj
    · exact (h.reached j hj).imp_right .inr
    · exact .inr (.inl hj)
  rcases hpending with hj | hj
  · exact .inl (hj.trans hle)
  · exact advance_reached (sorted_adjust i d w.sorted) hj

/-- Where every index is done as often as it was begun, the bound is at the greatest one. -/
theorem Tracks.isGreatest (h : w.Tracks E) (hcount : ∀ j, w.count j = 0) :
    IsGreatest {j | E j} w.doneUntil := by
  have hempty : w.pending = [] := by
    cases hp : w.pending with
    | nil => rfl
    | cons q l =>
      obtain ⟨m, c⟩ := q
      have hpos : 0 < c := h.first (m, c) (by simp [hp])
      have hzero : c = 0 := by simpa [count, hp, countIn] using hcount m
      omega
  refine ⟨h.doneUntil, fun j hj => ?_⟩
  simpa [hempty] using h.reached j hj

end WaterMark

end Omashu.Lib
