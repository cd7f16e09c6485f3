import Mathlib.Data.Fintype.Card
import Mathlib.Data.Finset.Card

/-!
# Runs of a partial step function

A system is a type of states, a type of actions, and a step function that is undefined where the
action is not enabled. `run` executes a list of actions. `Reaches step C s t` says that `t` is
reached from `s` by enabled actions that all meet the condition `C` in the state they are taken
in. `Reaches.invariant` is the induction rule on it, `Reaches.refines` carries runs from one system
to another, and `Reaches.of_run` turns an executed list of actions into a reached state.
`Along step C s as` says of one list of actions that all of them meet the condition, and
`Passes step s as u` that the list leads through the state `u`.

The parties of a system are a family `ι → α` over a finite type of indices, and a step updates one
of them. `card_filter_update` counts the parties with a property after such an update.
-/

namespace Omashu.Lib

variable {σ α : Type*}

/-- The state after a list of actions, where every one of them is enabled. -/
def run (step : σ → α → Option σ) : σ → List α → Option σ
  | s, [] => some s
  | s, a :: as => (step s a).bind fun s' => run step s' as

/-- A list of actions is executed in two parts. -/
theorem run_append (step : σ → α → Option σ) (s : σ) (as bs : List α) :
    run step s (as ++ bs) = (run step s as).bind fun t => run step t bs := by
  induction as generalizing s with
  | nil => rfl
  | cons a as ih => simp only [List.cons_append, run, ih, Option.bind_assoc]

/-- The step function restricted to the actions that meet `C`. -/
def guarded (step : σ → α → Option σ) (C : σ → α → Prop) [∀ s a, Decidable (C s a)] (s : σ) (a : α) :
    Option σ :=
  if C s a then step s a else none

/-- Every action of an executed list meets `C` in the state it is taken in. -/
def Along (step : σ → α → Option σ) (C : σ → α → Prop) : σ → List α → Prop
  | _, [] => True
  | s, a :: as => C s a ∧ ∀ s' ∈ step s a, Along step C s' as

instance decidableAlong {step : σ → α → Option σ} {C : σ → α → Prop} [∀ s a, Decidable (C s a)] :
    ∀ s as, Decidable (Along step C s as)
  | _, [] => inferInstanceAs (Decidable True)
  | _, _ :: as =>
    have : ∀ s', Decidable (Along step C s' as) := fun s' => decidableAlong s' as
    inferInstanceAs (Decidable (_ ∧ _))

/-- An executed list of actions leads through the state. -/
def Passes (step : σ → α → Option σ) : σ → List α → σ → Prop
  | s, [], u => u = s
  | s, a :: as, u => u = s ∨ ∃ s' ∈ step s a, Passes step s' as u

/-- `t` is reached from `s` by enabled actions, each of which meets `C` in the state it is taken
in. -/
inductive Reaches (step : σ → α → Option σ) (C : σ → α → Prop) (s : σ) : σ → Prop
  /-- A state reaches itself. -/
  | refl : Reaches step C s s
  /-- One more action, which is enabled and meets the condition. -/
  | tail {t u : σ} {a : α} : Reaches step C s t → C t a → step t a = some u → Reaches step C s u

variable {step : σ → α → Option σ} {C D : σ → α → Prop} {s t u : σ}

/-- A property of the first state that every step which meets the condition preserves holds in
every state reached. -/
theorem Reaches.invariant {I : σ → Prop} (h : Reaches step C s t) (hs : I s)
    (hstep : ∀ t a u, I t → C t a → step t a = some u → I u) : I t := by
  induction h with
  | refl => exact hs
  | tail _ hc ha ih => exact hstep _ _ _ ih hc ha

/-- A run under a condition is a run under a weaker one. -/
theorem Reaches.mono (h : Reaches step C s t) (hCD : ∀ s a, C s a → D s a) :
    Reaches step D s t := by
  induction h with
  | refl => exact .refl
  | tail _ hc ha ih => exact .tail ih (hCD _ _ hc) ha

/-- Runs compose. -/
theorem Reaches.trans (h : Reaches step C s t) (h' : Reaches step C t u) : Reaches step C s u := by
  induction h' with
  | refl => exact h
  | tail _ hc ha ih => exact .tail ih hc ha

/-- A run that starts with a given step. -/
theorem Reaches.head {a : α} (hc : C s a) (ha : step s a = some t) (h : Reaches step C t u) :
    Reaches step C s u :=
  Reaches.trans (.tail .refl hc ha) h

/-- A system refines another one by `f`: where every step, from a state with the invariant `I`, keeps
the invariant and is a step of the other system or none at all, its runs are runs of the other. -/
theorem Reaches.refines {τ β : Type*} {step' : τ → β → Option τ} {D' : τ → β → Prop} {I : σ → Prop}
    (f : σ → τ) (h : Reaches step C s t) (hs : I s)
    (hstep : ∀ t a u, I t → C t a → step t a = some u →
      I u ∧ (f u = f t ∨ ∃ b, D' (f t) b ∧ step' (f t) b = some (f u))) :
    I t ∧ Reaches step' D' (f s) (f t) := by
  induction h with
  | refl => exact ⟨hs, .refl⟩
  | tail _ hc ha ih =>
    obtain ⟨hI, hreach⟩ := ih
    obtain ⟨hI', heq | ⟨b, hb, hstep'⟩⟩ := hstep _ _ _ hI hc ha
    · rw [heq]
      exact ⟨hI', hreach⟩
    · exact ⟨hI', .tail hreach hb hstep'⟩

/-- An executed list of actions that all meet the condition is a run under it. -/
theorem Reaches.of_run [∀ s a, Decidable (C s a)] {as : List α}
    (h : run (guarded step C) s as = some t) : Reaches step C s t := by
  induction as generalizing s with
  | nil =>
    obtain rfl : s = t := by simpa [run] using h
    exact .refl
  | cons a as ih =>
    simp only [run, Option.bind_eq_some_iff] at h
    obtain ⟨s', hs', h⟩ := h
    unfold guarded at hs'
    split_ifs at hs' with hc
    exact .head hc hs' (ih h)

/-- The state at the end of a list of actions that are all enabled. -/
def final (step : σ → α → Option σ) (s : σ) (as : List α) (h : (run step s as).isSome = true) : σ :=
  (run step s as).get h

/-- It is the result of the run. -/
theorem run_final {as : List α} (h : (run step s as).isSome = true) : run step s as = some (final step s as h) :=
  (Option.some_get h).symm

/-- The end of a list of actions that are all enabled and meet the condition is reached. -/
theorem Reaches.final [∀ s a, Decidable (C s a)] {as : List α}
    (h : (run (guarded step C) s as).isSome = true) :
    Reaches step C s (final (guarded step C) s as h) :=
  Reaches.of_run (run_final h)

/-- The condition on a list of actions, at its first action. -/
theorem along_cons_iff {a : α} {as : List α} (h : step s a = some t) :
    Along step C s (a :: as) ↔ C s a ∧ Along step C t as := by
  simp only [Along, h, Option.mem_def, Option.some.injEq, forall_eq']

/-- Actions that are enabled and meet the condition are enabled, and meet it. -/
theorem along_of_run_guarded [∀ s a, Decidable (C s a)] {as : List α}
    (h : run (guarded step C) s as = some t) : run step s as = some t ∧ Along step C s as := by
  induction as generalizing s with
  | nil => exact ⟨h, trivial⟩
  | cons a as ih =>
    obtain ⟨s', hs', h⟩ := Option.bind_eq_some_iff.mp h
    unfold guarded at hs'
    split_ifs at hs' with hc
    obtain ⟨hrun, halong⟩ := ih h
    exact ⟨Option.bind_eq_some_iff.mpr ⟨s', hs', hrun⟩, (along_cons_iff hs').mpr ⟨hc, halong⟩⟩

/-- A property that every step of an executed list preserves holds at its end. -/
theorem run_invariant {I : σ → Prop} {as : List α} (h : run step s as = some t) (hs : I s)
    (hstep : ∀ u a v, a ∈ as → I u → step u a = some v → I v) : I t := by
  induction as generalizing s with
  | nil =>
    obtain rfl : s = t := by simpa [run] using h
    exact hs
  | cons a as ih =>
    obtain ⟨s', hs', h⟩ := Option.bind_eq_some_iff.mp h
    exact ih h (hstep s a s' List.mem_cons_self hs hs') fun u b v hb => hstep u b v (List.mem_cons_of_mem _ hb)

/-- The condition on a list of actions in two parts. -/
theorem along_append_iff {as bs : List α} (h : run step s as = some t) :
    Along step C s (as ++ bs) ↔ Along step C s as ∧ Along step C t bs := by
  induction as generalizing s with
  | nil =>
    obtain rfl : s = t := by simpa [run] using h
    exact (and_iff_right trivial).symm
  | cons a as ih =>
    obtain ⟨s', hs', h⟩ := Option.bind_eq_some_iff.mp h
    rw [List.cons_append, along_cons_iff hs', along_cons_iff hs', ih h, and_assoc]

/-- Two conditions that mean the same along a list of actions. -/
theorem along_congr {as : List α} (h : ∀ s a, C s a ↔ D s a) : Along step C s as ↔ Along step D s as := by
  induction as generalizing s with
  | nil => exact Iff.rfl
  | cons a as ih =>
    unfold Along
    rw [h s a]
    refine and_congr_right fun _ => ?_
    exact forall_congr' fun s' => imp_congr_right fun _ => ih

/-- How often something happens along an executed list of actions, `f` times in each step. -/
def tally (step : σ → α → Option σ) (f : σ → α → ℕ) : σ → List α → ℕ
  | _, [] => 0
  | s, a :: as => f s a + (step s a).elim 0 fun s' => tally step f s' as

/-- The tally at the first action. -/
theorem tally_cons {f : σ → α → ℕ} {a : α} {as : List α} (h : step s a = some t) :
    tally step f s (a :: as) = f s a + tally step f t as := by
  simp only [tally, h, Option.elim_some]

/-- What happens along a run is paid for by a quantity that every step decreases by as much. -/
theorem tally_add_le {I : σ → Prop} {f : σ → α → ℕ} {p : σ → ℕ} {as : List α} (h : run step s as = some t)
    (hs : I s) (hstep : ∀ u a v, a ∈ as → I u → step u a = some v → I v ∧ f u a + p v ≤ p u) :
    tally step f s as + p t ≤ p s := by
  induction as generalizing s with
  | nil =>
    obtain rfl : s = t := by simpa [run] using h
    exact (Nat.zero_add _).le
  | cons a as ih =>
    obtain ⟨s', hs', h⟩ := Option.bind_eq_some_iff.mp h
    obtain ⟨hI, hpaid⟩ := hstep s a s' List.mem_cons_self hs hs'
    have hrest := ih h hI fun u b v hb => hstep u b v (List.mem_cons_of_mem _ hb)
    rw [tally_cons hs']
    omega

/-- A quantity that a step raises by at most what it is charged is raised by a run by at most the sum. -/
theorem le_add_tally {f : σ → α → ℕ} {p : σ → ℤ} {as : List α} (h : run step s as = some t)
    (hstep : ∀ u a v, step u a = some v → p v ≤ p u + f u a) : p t ≤ p s + tally step f s as := by
  induction as generalizing s with
  | nil =>
    obtain rfl : s = t := by simpa [run] using h
    exact Int.le_add_of_nonneg_right (Int.natCast_nonneg _)
  | cons a as ih =>
    obtain ⟨s', hs', h⟩ := Option.bind_eq_some_iff.mp h
    have hfirst : p s' ≤ p s + f s a := hstep s a s' hs'
    have hrest : p t ≤ p s' + tally step f s' as := ih h
    rw [tally_cons hs']
    push_cast
    omega

/-- The states that a list of actions leads through, at its first action. -/
theorem passes_cons_iff {a : α} {as : List α} (h : step s a = some t) :
    Passes step s (a :: as) u ↔ u = s ∨ Passes step t as u := by
  simp only [Passes, h, Option.mem_def, Option.some.injEq, exists_eq_left']

/-- An executed list of actions leads through its first state. -/
theorem Passes.self {as : List α} : Passes step s as s := by
  cases as with
  | nil => rfl
  | cons a as => exact .inl rfl

/-- Where the condition keeps an invariant, and a step that does not meet it leads from the invariant
to a bad state, the bad states are avoided exactly by the lists of actions that meet it. -/
theorem forall_passes_iff_along {I B : σ → Prop} {as : List α}
    (hkeep : ∀ s a t, I s → C s a → step s a = some t → I t)
    (hbad : ∀ s a t, I s → ¬C s a → step s a = some t → B t) (hgood : ∀ s, I s → ¬B s) (hs : I s)
    (h : run step s as = some t) : (∀ u, Passes step s as u → ¬B u) ↔ Along step C s as := by
  induction as generalizing s with
  | nil =>
    refine iff_of_true ?_ trivial
    rintro u rfl
    exact hgood u hs
  | cons a as ih =>
    obtain ⟨s', hs', h⟩ := Option.bind_eq_some_iff.mp h
    rw [along_cons_iff hs']
    -- The first step that does not meet the condition leads to a bad state.
    by_cases hc : C s a
    · rw [← ih (hkeep s a s' hs hc hs') h]
      constructor
      · intro hall
        exact ⟨hc, fun u hu => hall u ((passes_cons_iff hs').mpr (.inr hu))⟩
      · rintro ⟨-, hall⟩ u hu
        rcases (passes_cons_iff hs').mp hu with rfl | hu
        · exact hgood u hs
        · exact hall u hu
    · refine iff_of_false (fun hall => ?_) fun h => hc h.1
      exact hall s' ((passes_cons_iff hs').mpr (.inr Passes.self)) (hbad s a s' hs hc hs')

/-- Where the steps that keep an invariant are exactly those that meet the condition, the invariant holds in all
states that a list of actions leads through exactly if all of them meet it. -/
theorem forall_passes_iff_along_of_iff {I : σ → Prop} {as : List α}
    (hstep : ∀ s a t, I s → step s a = some t → (I t ↔ C s a)) (hs : I s) (h : run step s as = some t) :
    (∀ u, Passes step s as u → I u) ↔ Along step C s as := by
  have hiff := forall_passes_iff_along (B := fun u => ¬I u) (fun s a t hs hc ha => (hstep s a t hs ha).mpr hc)
    (fun s a t hs hc ha => mt (hstep s a t hs ha).mp hc) (fun s hs => not_not_intro hs) hs h
  simpa only [not_not] using hiff

/-- Two parties, for the runs that need no more. -/
inductive Two
  | first
  | second
  deriving DecidableEq

instance : Fintype Two := ⟨{.first, .second}, fun i => by cases i <;> decide⟩

section Update

variable {ι β : Type*} [Fintype ι] [DecidableEq ι]

/-- Counting the parties with a property after one of them is updated. -/
theorem card_filter_update (f : ι → β) (i : ι) (b : β) (p : β → Prop) [DecidablePred p] :
    (Finset.univ.filter fun j => p (Function.update f i b j)).card + (if p (f i) then 1 else 0) =
      (Finset.univ.filter fun j => p (f j)).card + (if p b then 1 else 0) := by
  -- The count of a family that agrees with `f` away from `i`.
  have split : ∀ g : ι → β, (∀ j, j ≠ i → g j = f j) →
      (Finset.univ.filter fun j => p (g j)).card =
        ((Finset.univ.erase i).filter fun j => p (f j)).card + (if p (g i) then 1 else 0) := by
    intro g hg
    rw [← Finset.insert_erase (Finset.mem_univ i), Finset.filter_insert]
    have hsame : ((Finset.univ.erase i).filter fun j => p (g j)) =
        ((Finset.univ.erase i).filter fun j => p (f j)) := by
      apply Finset.filter_congr
      intro j hj
      rw [hg j (Finset.ne_of_mem_erase hj)]
    rw [hsame]
    split_ifs with h
    · rw [Finset.card_insert_of_notMem (by simp), Finset.erase_insert (by simp)]
    · rw [Finset.erase_insert (by simp), Nat.add_zero]
  rw [split f fun _ _ => rfl, split (Function.update f i b) fun j hj => Function.update_of_ne hj _ _,
    Function.update_self]
  omega

end Update

end Omashu.Lib
