import Mathlib.Order.Monotone.Basic
import Mathlib.Data.Nat.Find

/-!
# Values that do not come back

A value that changes over time and takes a higher rank at every change (`Ratchet`) has each of its states during one
stretch of time. Several such values are read one after the other, each at a time of its own. What was read is the
state at one point in time exactly if no two of the reads are torn: between them, the value that is read first changes,
and then, or at the same time, the other one (`exists_common_point_iff`).

So it is enough to look at pairs. The reason is that stretches of time which meet pairwise meet in one point, the
latest of their beginnings.
-/

namespace Omashu.Lib

variable {β ι : Type*} {rank : β → ℕ}

/-- Over time the value stays, or takes a higher rank. -/
def Ratchet (rank : β → ℕ) (f : ℕ → β) : Prop := ∀ t, f (t + 1) = f t ∨ rank (f t) < rank (f (t + 1))

namespace Ratchet

variable {f : ℕ → β} {s t u : ℕ}

/-- The rank never falls. -/
theorem rank_mono (h : Ratchet rank f) : Monotone fun t => rank (f t) := by
  refine monotone_nat_of_le_succ fun t => ?_
  rcases h t with heq | hlt
  · rw [heq]
  · exact hlt.le

/-- While the rank is the same, so is the value. -/
theorem eq_of_rank_eq (h : Ratchet rank f) (hle : s ≤ t) (hrank : rank (f s) = rank (f t)) : f s = f t := by
  induction t, hle using Nat.le_induction with
  | base => rfl
  | succ t hle ih =>
    have hst : rank (f s) ≤ rank (f t) := h.rank_mono hle
    rcases h t with heq | hlt
    · rw [heq] at hrank ⊢
      exact ih hrank
    · omega

/-- Between two times at which it is the same, the value is the same. -/
theorem eq_between (h : Ratchet rank f) (hsu : s ≤ u) (hut : u ≤ t) (heq : f s = f t) : f u = f t := by
  have hlow : rank (f s) ≤ rank (f u) := h.rank_mono hsu
  have hup : rank (f u) ≤ rank (f t) := h.rank_mono hut
  have hrank : rank (f s) = rank (f t) := congrArg rank heq
  exact h.eq_of_rank_eq hut (by omega)

end Ratchet

/-- A value that does not change in a stretch of time is the same at its ends. -/
theorem eq_of_forall_eq_pred {f : ℕ → β} {s t : ℕ} (hle : s ≤ t) (h : ∀ p, s < p → p ≤ t → f p = f (p - 1)) :
    f t = f s := by
  induction t, hle using Nat.le_induction with
  | base => rfl
  | succ t hle ih =>
    have hlast : f (t + 1) = f t := h (t + 1) (Nat.lt_succ_of_le hle) le_rfl
    rw [hlast]
    exact ih fun p hs hp => h p hs (Nat.le_succ_of_le hp)

/-- Two reads, the first value at the time `r.1` and the second one at `r'.1`, are torn: in between the first one
changes, and then or at the same time the second one. -/
def Torn (f : ι → ℕ → β) (r r' : ℕ × ι) : Prop :=
  ∃ p q, r.1 < p ∧ p ≤ q ∧ q ≤ r'.1 ∧ f r.2 p ≠ f r.2 (p - 1) ∧ f r'.2 q ≠ f r'.2 (q - 1)

/-- The latest of some times and a lower bound. -/
theorem exists_latest (start : ℕ × ι → ℕ) (lo : ℕ) (reads : List (ℕ × ι)) :
    ∃ t, lo ≤ t ∧ (∀ r ∈ reads, start r ≤ t) ∧ (t = lo ∨ ∃ r ∈ reads, start r = t) := by
  induction reads with
  | nil => exact ⟨lo, le_rfl, fun r hr => absurd hr List.not_mem_nil, .inl rfl⟩
  | cons r reads ih =>
    obtain ⟨t, hlo, hall, hmax⟩ := ih
    rcases Nat.le_total (start r) t with hle | hge
    · refine ⟨t, hlo, List.forall_mem_cons.mpr ⟨hle, hall⟩, hmax.imp_right ?_⟩
      rintro ⟨r', hr', heq⟩
      exact ⟨r', List.mem_cons_of_mem _ hr', heq⟩
    · refine ⟨start r, hlo.trans hge, List.forall_mem_cons.mpr ⟨le_rfl, fun r' hr' => (hall r' hr').trans hge⟩, ?_⟩
      exact .inr ⟨r, List.mem_cons_self, rfl⟩

/-- Reads of values that do not come back, not before `lo` and not after `hi`, have seen the values of one point in
between exactly if no two of them are torn. -/
theorem exists_common_point_iff {f : ι → ℕ → β} (hf : ∀ i, Ratchet rank (f i)) {reads : List (ℕ × ι)} {lo hi : ℕ}
    (hlohi : lo ≤ hi) (hlo : ∀ r ∈ reads, lo ≤ r.1) (hhi : ∀ r ∈ reads, r.1 ≤ hi) :
    (∃ t, lo ≤ t ∧ t ≤ hi ∧ ∀ r ∈ reads, f r.2 t = f r.2 r.1) ↔ ∀ r ∈ reads, ∀ r' ∈ reads, ¬Torn f r r' := by
  constructor
  · rintro ⟨t, -, -, ht⟩ r hr r' hr' ⟨p, q, hrp, hpq, hqr', hp, hq⟩
    have hpoint : f r.2 t = f r.2 r.1 := ht r hr
    have hpoint' : f r'.2 t = f r'.2 r'.1 := ht r' hr'
    -- The point is before the change of the first value, and not before that of the second one.
    have hbefore : t < p := by
      by_contra hle
      have hle : p ≤ t := Nat.le_of_not_lt hle
      have hold : f r.2 p = f r.2 t := (hf r.2).eq_between hrp.le hle hpoint.symm
      have hold' : f r.2 (p - 1) = f r.2 t := (hf r.2).eq_between (Nat.le_sub_one_of_lt hrp) (by omega) hpoint.symm
      exact hp (hold.trans hold'.symm)
    have hafter : q ≤ t := by
      by_contra hlt
      have hlt : t ≤ q - 1 := by omega
      have hnew : f r'.2 q = f r'.2 r'.1 := (hf r'.2).eq_between (by omega) hqr' hpoint'
      have hnew' : f r'.2 (q - 1) = f r'.2 r'.1 := (hf r'.2).eq_between hlt (by omega) hpoint'
      exact hq (hnew.trans hnew'.symm)
    omega
  · intro hpairs
    classical
    -- Each read has its value since some time. The point is the latest of these times.
    let start : ℕ × ι → ℕ := fun r => Nat.find (p := fun u => f r.2 u = f r.2 r.1) ⟨r.1, rfl⟩
    have hstart : ∀ r, f r.2 (start r) = f r.2 r.1 := fun r => Nat.find_spec (p := fun u => f r.2 u = f r.2 r.1) _
    have hle : ∀ r, start r ≤ r.1 := fun r => Nat.find_min' _ rfl
    have hmin : ∀ r u, u < start r → f r.2 u ≠ f r.2 r.1 := fun r u hu => Nat.find_min _ hu
    obtain ⟨t, hlot, hall, hmax⟩ := exists_latest start lo reads
    have hthi : t ≤ hi := by
      rcases hmax with rfl | ⟨r, hr, rfl⟩
      · exact hlohi
      · exact (hle r).trans (hhi r hr)
    refine ⟨t, hlot, hthi, fun r hr => ?_⟩
    rcases Nat.lt_or_ge r.1 t with hlt | hge
    · -- The read was before the point, which is a change that another read has seen.
      obtain ⟨r', hr', rfl⟩ : ∃ r' ∈ reads, start r' = t := hmax.resolve_left fun heq => by
        have := hlo r hr
        omega
      refine eq_of_forall_eq_pred hlt.le fun p hrp hp => ?_
      by_contra hchange
      refine hpairs r hr r' hr' ⟨p, start r', hrp, hp, hle r', hchange, fun heq => ?_⟩
      refine hmin r' (start r' - 1) (by omega) ?_
      rw [← heq]
      exact hstart r'
    · exact (hf r.2).eq_between (hall r hr) hge (hstart r)

end Omashu.Lib
