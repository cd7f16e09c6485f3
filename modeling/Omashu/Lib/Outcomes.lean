import Mathlib

/-!
# What a computation does to its state, also when it fails

A computation with a state and errors keeps its state when it fails: what it has done before the error is done. The
triples of `Std.Do` have a postcondition for each of the two ways in which it can end. `triple_iff` reads a triple as a
statement about the result, and `Keeps` is the triple of an invariant, which holds in the end in either case.
-/

namespace Omashu.Lib

open Std.Do

variable {ε σ α β : Type} {P E : σ → Prop} {Q : α → σ → Prop} {x : EStateM ε σ α}

/-- The state in which a computation ends, with a value or with an error. -/
def endState : EStateM.Result ε σ α → σ
  | .ok _ t => t
  | .error _ t => t

/-- One of two postconditions holds of a result: that of the values, or that of the errors. -/
def Ends (Q : α → σ → Prop) (E : σ → Prop) : EStateM.Result ε σ α → Prop
  | .ok a t => Q a t
  | .error _ t => E t

/-- A triple, as a statement about the results. -/
theorem triple_iff :
    ⦃fun s => ⌜P s⌝⦄ x ⦃post⟨fun a s => ⌜Q a s⌝, fun _ s => ⌜E s⌝⟩⦄ ↔ ∀ s, P s → Ends Q E (x s) := by
  have hwp : ∀ s, (wp⟦x⟧ post⟨fun a s => ⌜Q a s⌝, fun _ s => ⌜E s⌝⟩ s).down ↔ Ends Q E (x s) := by
    intro s
    simp only [WP.wp, PredTrans.apply, EStateM.run]
    cases x s with
    | ok | error => exact Iff.rfl
  exact forall_congr' fun s => imp_congr Iff.rfl (hwp s)

/-- Weaker postconditions. -/
theorem triple_mono {Q' : α → σ → Prop} {E' : σ → Prop}
    (hx : ⦃fun s => ⌜P s⌝⦄ x ⦃post⟨fun a s => ⌜Q a s⌝, fun _ s => ⌜E s⌝⟩⦄)
    (hvalue : ∀ a s, Q a s → Q' a s) (herror : ∀ s, E s → E' s) :
    ⦃fun s => ⌜P s⌝⦄ x ⦃post⟨fun a s => ⌜Q' a s⌝, fun _ s => ⌜E' s⌝⟩⦄ := by
  rw [triple_iff] at hx ⊢
  intro s hs
  have hends := hx s hs
  cases hres : x s with
  | ok a t =>
    rw [hres] at hends
    exact hvalue a t hends
  | error e t =>
    rw [hres] at hends
    exact herror t hends

/-- An invariant of a computation: it holds in the end if it holds in the beginning, also where the computation
fails. -/
def Keeps (P : σ → Prop) (x : EStateM ε σ α) : Prop :=
  ⦃fun s => ⌜P s⌝⦄ x ⦃post⟨fun _ s => ⌜P s⌝, fun _ s => ⌜P s⌝⟩⦄

/-- It is enough to look at the state in the end. -/
theorem keeps_iff : Keeps P x ↔ ∀ s, P s → P (endState (x s)) := by
  unfold Keeps
  rw [triple_iff]
  refine forall_congr' fun s => imp_congr Iff.rfl ?_
  cases x s with
  | ok | error => exact Iff.rfl

/-- Nothing is done. -/
theorem keeps_pure (a : α) : Keeps P (pure a : EStateM ε σ α) := keeps_iff.mpr fun _ hs => hs

/-- A part of a computation that is skipped under a condition. -/
theorem Keeps.unless {p : Prop} [Decidable p] {x : EStateM ε σ Unit} (hx : Keeps P x) :
    Keeps P (if p then pure () else x) := by
  split_ifs
  · exact keeps_pure ()
  · exact hx

/-- One computation after the other. -/
theorem Keeps.bind {f : α → EStateM ε σ β} (hx : Keeps P x) (hf : ∀ a, Keeps P (f a)) : Keeps P (x >>= f) :=
  Triple.bind x f hx hf

end Omashu.Lib
