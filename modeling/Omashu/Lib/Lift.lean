import Mathlib.Logic.Function.Basic
import Mathlib.Tactic.Common

/-!
# Fallible computations

A computation that succeeds has succeeded at each of its steps (`bind_eq_ok`, `map_eq_ok`).

`LiftRel R x y` relates the results of two fallible computations: they fail with the same error, or
return results that `R` relates. It is the form in which a property of two runs of one program is
carried from operation to operation (`LiftRel.bind`). Where the results agree under a function, the
relation is an equation (`LiftRel.map_eq`).
-/

namespace Omashu.Lib

variable {ε α β γ δ : Type*} {R : α → β → Prop} {Q : γ → δ → Prop}

/-- The successful results of a computation that binds another. -/
theorem bind_eq_ok {x : Except ε α} {f : α → Except ε β} {b : β} (h : x.bind f = .ok b) :
    ∃ a, x = .ok a ∧ f a = .ok b := by
  cases x with
  | error e => simp [Except.bind] at h
  | ok a => exact ⟨a, rfl, h⟩

/-- The successful results of a computation whose result is mapped. -/
theorem map_eq_ok {x : Except ε α} {f : α → β} {b : β} (h : x.map f = .ok b) :
    ∃ a, x = .ok a ∧ f a = b := by
  cases x with
  | error e => simp [Except.map] at h
  | ok a => exact ⟨a, rfl, Except.ok.inj h⟩

/-- A result with its errors mapped. -/
theorem mapError_eq_ok {ε' : Type*} {x : Except ε α} {f : ε → ε'} {a : α} (h : x.mapError f = .ok a) :
    x = .ok a := by
  cases x with
  | error e => cases h
  | ok b => exact congrArg _ (Except.ok.inj h)

/-- The same error, or related results. -/
inductive LiftRel (R : α → β → Prop) : Except ε α → Except ε β → Prop
  /-- Both fail alike. -/
  | error (e : ε) : LiftRel R (.error e) (.error e)
  /-- Both succeed. -/
  | ok {a : α} {b : β} : R a b → LiftRel R (.ok a) (.ok b)

/-- Related computations after related ones. -/
theorem LiftRel.bind {x : Except ε α} {y : Except ε β} {f : α → Except ε γ} {g : β → Except ε δ}
    (h : LiftRel R x y) (hfg : ∀ a b, R a b → LiftRel Q (f a) (g b)) :
    LiftRel Q (x.bind f) (y.bind g) := by
  cases h with
  | error e => exact .error e
  | ok hab => exact hfg _ _ hab

/-- Related computations after one and the same. -/
theorem LiftRel.bind_same {x : Except ε α} {f : α → Except ε γ} {g : α → Except ε δ}
    (hfg : ∀ a, LiftRel Q (f a) (g a)) : LiftRel Q (x.bind f) (x.bind g) := by
  cases x with
  | error e => exact .error e
  | ok a => exact hfg a

/-- Related to a success is only a success with a related result. -/
theorem LiftRel.ok_iff {a : α} {b : β} : LiftRel R (.ok a : Except ε α) (.ok b) ↔ R a b := by
  constructor
  · intro h
    cases h with
    | ok hab => exact hab
  · exact .ok

/-- Where related results agree under two functions, the computations do. -/
theorem LiftRel.map_eq {x : Except ε α} {y : Except ε β} {f : α → γ} {g : β → γ}
    (h : LiftRel R x y) (hfg : ∀ a b, R a b → f a = g b) : x.map f = y.map g := by
  cases h with
  | error e => rfl
  | ok hab => exact congrArg Except.ok (hfg _ _ hab)

end Omashu.Lib
