import Mathlib.Data.List.Sort
import Mathlib.Data.List.TakeWhile
import Mathlib.Tactic.Common

/-!
# Prefix scans over sorted keys

An ordered store walks its keys in increasing order: a scan of a prefix `p` seeks the first key that
is not below `p`, and takes keys for as long as they begin with `p`. Keys are lists over an
arbitrary linear order, compared lexicographically. The keys with a common prefix form one block
that starts at the seek point, so the scan finds exactly the keys with the prefix
(`scan_eq_filter`).
-/

namespace Omashu.Lib

variable {α : Type*} [DecidableEq α] [LT α] [LE α] [DecidableLT α] [Std.IsLinearOrder α]
  [Std.LawfulOrderLT α]

/-- Seeks to the first key that is not below `p`, and takes keys while they begin with `p`. -/
def scan (p : List α) (keys : List (List α)) : List (List α) :=
  (keys.dropWhile fun k => k < p).takeWhile fun k => p <+: k

omit [LE α] [Std.IsLinearOrder α] [Std.LawfulOrderLT α] in
/-- A scan visits only keys with its prefix. -/
theorem isPrefix_of_mem_scan {p k : List α} {keys : List (List α)} (h : k ∈ scan p keys) :
    p <+: k := by
  simpa using List.mem_takeWhile_imp h

omit [DecidableEq α] [DecidableLT α] in
/-- Past the first key above the seek point without the prefix, no key has it. -/
theorem not_isPrefix_of_lt {p k k' : List α} (hp : p ≤ k) (hk : ¬p <+: k) (hlt : k < k') :
    ¬p <+: k' := by
  induction p generalizing k k' with
  | nil => exact absurd List.nil_prefix hk
  | cons a p ih =>
    cases k with
    | nil => exact absurd (List.le_nil.mp hp) (by simp)
    | cons b k =>
      cases k' with
      | nil => simp
      | cons c k' =>
        rw [List.cons_prefix_cons]
        rintro ⟨rfl, hpk⟩
        rcases List.cons_le_cons_iff.mp hp with hab | ⟨rfl, hpk'⟩
        · rcases List.cons_lt_cons_iff.mp hlt with hba | ⟨rfl, -⟩
          · exact Std.lt_irrefl (Std.lt_trans hab hba)
          · exact Std.lt_irrefl hab
        · rcases List.cons_lt_cons_iff.mp hlt with hba | ⟨-, hlt⟩
          · exact Std.lt_irrefl hba
          · refine ih hpk' ?_ hlt hpk
            simpa using hk

/-- Seeks to the first element whose key is not below `p`. -/
def seek {β : Type*} (key : β → List α) (p : List α) (xs : List β) : List β :=
  xs.dropWhile fun x => key x < p

section Sorted

variable {β : Type*} {key : β → List α} {p : List α} {xs : List β}

/-- In sorted elements, a seek leaves exactly those that are not below the seek point. -/
theorem seek_eq_filter (h : xs.Pairwise fun x y => key x < key y) :
    seek key p xs = xs.filter fun x => ¬key x < p := by
  induction xs with
  | nil => rfl
  | cons x xs ih =>
    obtain ⟨hx, hxs⟩ := List.pairwise_cons.mp h
    unfold seek at ih ⊢
    by_cases hlt : key x < p
    · rw [List.dropWhile_cons_of_pos (by simpa using hlt), List.filter_cons_of_neg (by simpa using hlt)]
      exact ih hxs
    · rw [List.dropWhile_cons_of_neg (by simpa using hlt)]
      symm
      rw [List.filter_eq_self]
      intro y hy
      rcases List.mem_cons.mp hy with rfl | hy
      · simpa using hlt
      · simpa using fun hyp => hlt (List.lt_trans (hx y hy) hyp)

omit [DecidableLT α] in
/-- In sorted elements above the seek point, those whose key begins with `p` come first. -/
theorem takeWhile_eq_filter (h : xs.Pairwise fun x y => key x < key y) (hp : ∀ x ∈ xs, p ≤ key x) :
    (xs.takeWhile fun x => p <+: key x) = xs.filter fun x => p <+: key x := by
  induction xs with
  | nil => rfl
  | cons x xs ih =>
    obtain ⟨hx, hxs⟩ := List.pairwise_cons.mp h
    obtain ⟨hpx, hpxs⟩ := List.forall_mem_cons.mp hp
    by_cases hk : p <+: key x
    · rw [List.takeWhile_cons_of_pos (by simpa using hk), List.filter_cons_of_pos (by simpa using hk),
        ih hxs hpxs]
    · rw [List.takeWhile_cons_of_neg (by simpa using hk), List.filter_cons_of_neg (by simpa using hk)]
      symm
      rw [List.filter_eq_nil_iff]
      intro y hy
      simpa using not_isPrefix_of_lt hpx hk (hx y hy)

/-- In sorted elements, seeking `p` and taking what begins with it finds exactly those that do. -/
theorem takeWhile_seek_eq_filter (h : xs.Pairwise fun x y => key x < key y) :
    ((seek key p xs).takeWhile fun x => p <+: key x) = xs.filter fun x => p <+: key x := by
  rw [seek_eq_filter h, takeWhile_eq_filter (h.filter _) ?_, List.filter_filter]
  · apply List.filter_congr
    intro x _
    by_cases hk : p <+: key x
    · have hlt : ¬key x < p := hk.le
      simp [hk, hlt]
    · simp [hk]
  · intro x hx
    exact List.not_lt.mp (by simpa using (List.mem_filter.mp hx).2)

end Sorted

/-- In sorted keys, the scan finds exactly the keys with the prefix. -/
theorem scan_eq_filter {p : List α} {keys : List (List α)}
    (h : keys.Pairwise (· < ·)) : scan p keys = keys.filter fun k => p <+: k := by
  have h : keys.Pairwise fun x y => id x < id y := h
  exact takeWhile_seek_eq_filter h

end Omashu.Lib
