import Mathlib.Data.List.Sort
import Omashu.Lib.Versions

/-!
# Writers of a multi-version store

A writer reads the store at one timestamp and installs its writes at another one, or fails and installs nothing. What
it does depends on the newest versions at its read timestamp only. `writeAll` runs writers one after the other.

What is at or below a timestamp depends on the writers at or below it only (`visible_writeAll_filter`). A writer does
not see the ones above its read timestamp, so two of them that do not see each other may change places
(`write_write`). Where no writer comes after one that should have seen it, all of them can be brought into the order
of their timestamps like this, as insertion sort does it: the store has the same versions in the end, and the same
writers have failed (`writeAll_insertionSort`).
-/

namespace Omashu.Lib

namespace Versions

variable {κ ν : Type*} [DecidableEq κ] {s s' : List (Version κ ν)} {k : κ} {r r' ts ts' : ℕ} {ws ws' : List (κ × ν)}

/-- A key has one version at a timestamp. -/
def Single (s : List (Version κ ν)) : Prop := ∀ x ∈ s, ∀ y ∈ s, x.key = y.key → x.ts = y.ts → x = y

omit [DecidableEq κ] in
/-- The empty store. -/
theorem Single.nil : Single ([] : List (Version κ ν)) := fun _ hx => absurd hx List.not_mem_nil

/-- The two stores have the same versions, one for each key and timestamp. -/
structure Same (s s' : List (Version κ ν)) : Prop where
  single : Single s
  mem_iff : ∀ x, x ∈ s ↔ x ∈ s'

omit [DecidableEq κ] in
/-- A store and itself. -/
theorem Single.same (h : Single s) : Same s s := ⟨h, fun _ => Iff.rfl⟩

omit [DecidableEq κ] in
/-- One store after the other. -/
theorem Same.trans {s'' : List (Version κ ν)} (h : Same s s') (h' : Same s' s'') : Same s s'' :=
  ⟨h.single, fun x => (h.mem_iff x).trans (h'.mem_iff x)⟩

/-- Stores with the same versions have the same newest ones. -/
theorem Same.newest_eq (h : Same s s') (k : κ) (r : ℕ) : newest s k r = newest s' k r :=
  newest_eq_of_mem_iff h.single fun x _ _ => h.mem_iff x

/-- Writes replace what is there under the keys at their timestamp. -/
theorem Single.installed (h : Single s) : Single (install s ts ws) := by
  intro x hx y hy hkey hts
  rcases mem_install_iff.mp hx with ⟨hxts, hxval⟩ | ⟨hxs, hxnew⟩
  · rcases mem_install_iff.mp hy with ⟨-, hyval⟩ | ⟨-, hynew⟩
    · have hval : x.val = y.val := Option.some.inj (hxval.symm.trans ((congrArg (latest ws) hkey).trans hyval))
      obtain ⟨_, _, _⟩ := x
      obtain ⟨_, _, _⟩ := y
      cases hkey
      cases hts
      cases hval
      rfl
    · refine absurd ⟨hts.symm.trans hxts, ?_⟩ hynew
      rw [← hkey, hxval]
      rfl
  · rcases mem_install_iff.mp hy with ⟨hyts, hyval⟩ | ⟨hys, -⟩
    · refine absurd ⟨hts.trans hyts, ?_⟩ hxnew
      rw [hkey, hyval]
      rfl
    · exact h x hxs y hys hkey hts

/-- The same writes on stores with the same versions. -/
theorem Same.installed (h : Same s s') : Same (install s ts ws) (install s' ts ws) := by
  refine ⟨h.single.installed, fun x => ?_⟩
  rw [mem_install_iff, mem_install_iff, h.mem_iff]

/-- Writes at two timestamps may change places. -/
theorem Single.installed_swap (h : Single s) (hne : ts ≠ ts') :
    Same (install (install s ts ws) ts' ws') (install (install s ts' ws') ts ws) := by
  refine ⟨h.installed.installed, fun x => ?_⟩
  simp only [mem_install_iff]
  by_cases hx : x.ts = ts
  · simp [hx, hne]
  · simp [hx]

/-- What is visible at a timestamp is visible at a later one. -/
theorem visible_visible (h : r ≤ r') : visible (visible s k r') k r = visible s k r := by
  unfold visible
  rw [List.filter_filter]
  apply List.filter_congr
  intro x _
  rw [← Bool.decide_and, decide_eq_decide]
  constructor
  · exact fun hx => hx.1
  · exact fun hx => ⟨hx, hx.1, hx.2.trans h⟩

/-- Stores that agree at a timestamp agree below it. -/
theorem visible_congr_of_le (h : visible s k r' = visible s' k r') (hr : r ≤ r') :
    visible s k r = visible s' k r := by
  rw [← visible_visible hr, h, visible_visible hr]

/-- One write on stores that agree at a timestamp. -/
theorem visible_put_congr {k' : κ} {v : ν} (h : visible s k r = visible s' k r) :
    visible (put s k' ts v) k r = visible (put s' k' ts v) k r := by
  have hput : ∀ s : List (Version κ ν), visible (put s k' ts v) k r =
      ([⟨k', ts, v⟩].filter fun x => x.key = k ∧ x.ts ≤ r) ++
        (visible s k r).filter fun x => ¬(x.key = k' ∧ x.ts = ts) := by
    intro s
    unfold visible put
    rw [← List.singleton_append, List.filter_append, List.filter_filter, List.filter_filter]
    congr 1
    apply List.filter_congr
    intro x _
    exact Bool.and_comm _ _
  rw [hput, hput, h]

/-- The same writes on stores that agree at a timestamp. -/
theorem visible_install_congr (h : visible s k r = visible s' k r) :
    visible (install s ts ws) k r = visible (install s' ts ws) k r := by
  induction ws with
  | nil => exact h
  | cons w ws ih => exact visible_put_congr ih

end Versions

open Versions

/-- The writers `α` of a store. -/
structure Writers (α κ ν : Type*) [DecidableEq κ] where
  /-- The timestamp of the writes. -/
  ts : α → ℕ
  /-- The timestamp of the reads. -/
  readTs : α → ℕ
  /-- The writes, or nothing if the writer fails. -/
  effect : List (Version κ ν) → α → Option (List (κ × ν))
  /-- They depend on the newest versions at the timestamp of the reads. -/
  effect_congr : ∀ {s s' : List (Version κ ν)} {a : α},
    (∀ k, newest s k (readTs a) = newest s' k (readTs a)) → effect s a = effect s' a

namespace Writers

variable {α κ ν : Type*} [DecidableEq κ] (W : Writers α κ ν)

/-- The store after one writer. -/
def write (s : List (Version κ ν)) (a : α) : List (Version κ ν) := install s (W.ts a) ((W.effect s a).getD [])

/-- The store after several. -/
def writeAll (s : List (Version κ ν)) (as : List α) : List (Version κ ν) := as.foldl W.write s

/-- None of the writers fails. -/
def Succeeds : List (Version κ ν) → List α → Prop
  | _, [] => True
  | s, a :: as => (W.effect s a).isSome = true ∧ Succeeds (W.write s a) as

/-- No writer comes after one that should have seen it. -/
def Causal (as : List α) : Prop := as.Pairwise fun a b => W.readTs a < W.ts b

variable {W} {s s' : List (Version κ ν)} {as : List α} {a b : α} {r : ℕ} {k : κ}

/-! ## What is below a timestamp -/

/-- A writer leaves what is below its timestamp. -/
theorem visible_write_of_lt (h : r < W.ts a) : visible (W.write s a) k r = visible s k r :=
  visible_install_of_lt h

/-- A writer has the same effect on stores that agree at its timestamp or a later one. -/
theorem effect_eq_of_visible (h : ∀ k, visible s k r = visible s' k r) (hr : W.readTs a ≤ r) :
    W.effect s a = W.effect s' a :=
  W.effect_congr fun k => newest_congr (visible_congr_of_le (h k) hr)

/-- What is at or below a timestamp depends on the writers at or below it only. -/
theorem visible_writeAll_filter (has : ∀ a ∈ as, W.readTs a ≤ W.ts a) (h : ∀ k, visible s k r = visible s' k r)
    (k : κ) :
    visible (W.writeAll s as) k r = visible (W.writeAll s' (as.filter fun a => W.ts a ≤ r)) k r := by
  induction as generalizing s s' with
  | nil => exact h k
  | cons a as ih =>
    have has' : ∀ b ∈ as, W.readTs b ≤ W.ts b := fun b hb => has b (List.mem_cons_of_mem _ hb)
    rcases le_or_gt (W.ts a) r with hle | hlt
    · rw [List.filter_cons_of_pos (by simpa using hle)]
      refine ih has' fun k => ?_
      have heffect : W.effect s a = W.effect s' a :=
        effect_eq_of_visible h ((has a List.mem_cons_self).trans hle)
      rw [write, write, heffect]
      exact visible_install_congr (h k)
    · -- The writer is above the timestamp, and is not in the other list.
      rw [List.filter_cons_of_neg (by simpa using hlt)]
      exact ih has' fun k => (visible_write_of_lt hlt).trans (h k)

/-! ## The order of the writers -/

/-- A writer on stores with the same versions. -/
theorem effect_eq_of_same (h : Same s s') (a : α) : W.effect s a = W.effect s' a :=
  W.effect_congr fun k => h.newest_eq k _

/-- One writer on stores with the same versions. -/
theorem write_same (h : Same s s') (a : α) : Same (W.write s a) (W.write s' a) := by
  rw [write, write, effect_eq_of_same h a]
  exact h.installed

/-- Several writers on stores with the same versions. -/
theorem writeAll_same (h : Same s s') (as : List α) :
    Same (W.writeAll s as) (W.writeAll s' as) ∧ (W.Succeeds s as ↔ W.Succeeds s' as) := by
  induction as generalizing s s' with
  | nil => exact ⟨h, Iff.rfl⟩
  | cons a as ih =>
    obtain ⟨hsame, hsucceeds⟩ := ih (write_same h a)
    refine ⟨hsame, ?_⟩
    rw [Succeeds, Succeeds, effect_eq_of_same h a, hsucceeds]

/-- A writer does not see one above its read timestamp. -/
theorem effect_write (h : W.readTs b < W.ts a) : W.effect (W.write s a) b = W.effect s b :=
  W.effect_congr fun _ => newest_congr (visible_write_of_lt h)

/-- Two writers that do not see each other may change places. -/
theorem write_write (hs : Single s) (hne : W.ts a ≠ W.ts b) (hab : W.readTs a < W.ts b) (hba : W.readTs b < W.ts a) :
    Same (W.write (W.write s a) b) (W.write (W.write s b) a) := by
  rw [write, effect_write hba, write, write, effect_write hab, write]
  exact hs.installed_swap hne

/-- A writer that comes before others is moved to its place among them. -/
theorem writeAll_orderedInsert (hs : Single s) (hread : ∀ b ∈ as, W.readTs b ≤ W.ts b)
    (hts : ∀ b ∈ as, W.ts a ≠ W.ts b) (hcausal : ∀ b ∈ as, W.readTs a < W.ts b) :
    Same (W.writeAll s (a :: as)) (W.writeAll s (as.orderedInsert (fun a b => W.ts a ≤ W.ts b) a)) ∧
      (W.Succeeds s (a :: as) ↔ W.Succeeds s (as.orderedInsert (fun a b => W.ts a ≤ W.ts b) a)) := by
  induction as generalizing s with
  | nil => exact ⟨hs.installed.same, Iff.rfl⟩
  | cons b as ih =>
    rw [List.orderedInsert]
    split_ifs with hle
    · exact ⟨(writeAll_same hs.same _).1, Iff.rfl⟩
    · have hba : W.readTs b < W.ts a := (hread b List.mem_cons_self).trans_lt (not_le.mp hle)
      have hab : W.readTs a < W.ts b := hcausal b List.mem_cons_self
      have hswap := write_write hs (hts b List.mem_cons_self) hab hba
      obtain ⟨hsame, hsucceeds⟩ := writeAll_same hswap as
      obtain ⟨hsame', hsucceeds'⟩ := ih (s := W.write s b) hs.installed
        (fun c hc => hread c (List.mem_cons_of_mem _ hc)) (fun c hc => hts c (List.mem_cons_of_mem _ hc))
        fun c hc => hcausal c (List.mem_cons_of_mem _ hc)
      refine ⟨hsame.trans hsame', ?_⟩
      rw [Succeeds, Succeeds, effect_write hba, hsucceeds, Succeeds, ← hsucceeds', Succeeds, effect_write hab]
      exact and_left_comm

/-- Writers none of which comes after one that should have seen it leave the versions that they leave in the order of
their timestamps, and fail only where they fail there. -/
theorem writeAll_insertionSort (hs : Single s) (hread : ∀ a ∈ as, W.readTs a ≤ W.ts a)
    (hts : as.Pairwise fun a b => W.ts a ≠ W.ts b) (hcausal : W.Causal as) :
    Same (W.writeAll s as) (W.writeAll s (as.insertionSort fun a b => W.ts a ≤ W.ts b)) ∧
      (W.Succeeds s as ↔ W.Succeeds s (as.insertionSort fun a b => W.ts a ≤ W.ts b)) := by
  induction as generalizing s with
  | nil => exact ⟨hs.same, Iff.rfl⟩
  | cons a as ih =>
    obtain ⟨hts₀, hts⟩ := List.pairwise_cons.mp hts
    obtain ⟨hcausal₀, hcausal⟩ := List.pairwise_cons.mp hcausal
    have hread' : ∀ b ∈ as, W.readTs b ≤ W.ts b := fun b hb => hread b (List.mem_cons_of_mem _ hb)
    have hmem : ∀ b ∈ as.insertionSort fun a b => W.ts a ≤ W.ts b, b ∈ as :=
      fun b hb => (List.perm_insertionSort _ as).mem_iff.mp hb
    obtain ⟨hsame, hsucceeds⟩ := ih (s := W.write s a) hs.installed hread' hts hcausal
    obtain ⟨hsame', hsucceeds'⟩ := writeAll_orderedInsert (a := a) hs (fun b hb => hread' b (hmem b hb))
      (fun b hb => hts₀ b (hmem b hb)) fun b hb => hcausal₀ b (hmem b hb)
    refine ⟨hsame.trans hsame', ?_⟩
    rw [List.insertionSort_cons, ← hsucceeds', Succeeds, Succeeds, hsucceeds]

end Writers

end Omashu.Lib
