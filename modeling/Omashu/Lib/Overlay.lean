import Mathlib.Logic.Function.Basic
import Mathlib.Tactic.Common

/-!
# A sequence of writes over a function

`overlay ws f` is `f` after the writes `ws`, of which the last one to a point counts. At a point that is written,
the result does not depend on `f` (`overlay_congr`), and at any other it is that of `f` (`overlay_of_forall_ne`).
So writes that are made again over their own result change nothing in the end (`overlay_overlay`), though they
may in between: `overlay_eq_iff` says at which points the same writes over two functions give the same.
-/

namespace Omashu.Lib

variable {κ ν : Type*} [DecidableEq κ]

/-- The function after some writes. -/
def overlay (ws : List (κ × ν)) (f : κ → ν) : κ → ν := ws.foldl (fun g w => Function.update g w.1 w.2) f

variable {ws : List (κ × ν)} {f g : κ → ν} {k : κ}

/-- The first of the writes. -/
theorem overlay_cons (w : κ × ν) (ws : List (κ × ν)) (f : κ → ν) :
    overlay (w :: ws) f = overlay ws (Function.update f w.1 w.2) := rfl

/-- A point that is not written. -/
theorem overlay_of_forall_ne (h : ∀ w ∈ ws, w.1 ≠ k) : overlay ws f k = f k := by
  induction ws generalizing f with
  | nil => rfl
  | cons w ws ih =>
    have hw : k ≠ w.1 := fun heq => h w List.mem_cons_self heq.symm
    calc overlay (w :: ws) f k = overlay ws (Function.update f w.1 w.2) k := by rw [overlay_cons]
      _ = Function.update f w.1 w.2 k := ih fun v hv => h v (List.mem_cons_of_mem w hv)
      _ = f k := Function.update_of_ne hw _ _

/-- Functions that agree at a point do so after the writes. -/
theorem overlay_congr_of_eq (h : f k = g k) : overlay ws f k = overlay ws g k := by
  induction ws generalizing f g with
  | nil => exact h
  | cons w ws ih =>
    rw [overlay_cons, overlay_cons]
    refine ih ?_
    by_cases hk : k = w.1
    · rw [hk, Function.update_self, Function.update_self]
    · rw [Function.update_of_ne hk, Function.update_of_ne hk, h]

/-- A point that is written. -/
theorem overlay_congr (h : ∃ w ∈ ws, w.1 = k) : overlay ws f k = overlay ws g k := by
  induction ws generalizing f g with
  | nil =>
    obtain ⟨w, hw, -⟩ := h
    exact absurd hw List.not_mem_nil
  | cons w ws ih =>
    obtain ⟨v, hv, rfl⟩ := h
    rw [overlay_cons, overlay_cons]
    rcases List.mem_cons.mp hv with rfl | hv
    · refine overlay_congr_of_eq ?_
      rw [Function.update_self, Function.update_self]
    · exact ih ⟨v, hv, rfl⟩

/-- Writes over their own result change nothing. -/
theorem overlay_overlay (ws : List (κ × ν)) (f : κ → ν) : overlay ws (overlay ws f) = overlay ws f := by
  funext k
  by_cases h : ∃ w ∈ ws, w.1 = k
  · exact overlay_congr h
  · push Not at h
    exact overlay_of_forall_ne h

/-- The same writes over two functions give the same exactly at the points that are written or where the functions
agree. -/
theorem overlay_eq_iff : overlay ws f k = overlay ws g k ↔ (∃ w ∈ ws, w.1 = k) ∨ f k = g k := by
  by_cases h : ∃ w ∈ ws, w.1 = k
  · exact iff_of_true (overlay_congr h) (.inl h)
  · have hne : ∀ w ∈ ws, w.1 ≠ k := by
      push Not at h
      exact h
    rw [overlay_of_forall_ne hne, overlay_of_forall_ne hne, or_iff_right h]

end Omashu.Lib
