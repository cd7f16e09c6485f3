import Mathlib.Order.Interval.Set.Basic
import Omashu.Lib.Versions

/-!
# Installing a sequence of writes more than once

A sequence of writes: the `i`-th installs `ws i` at the timestamp `ts i`, and the timestamps
increase. `Contains ts ws n s` says that the store `s` has exactly the versions of the first `n`
writes. Installing the writes in order gives such stores, and so does installing some of them again
on top of later ones (`Contains.install`): the versions of a write are replaced by themselves. Below
the timestamp of the `i`-th write, all stores that contain the first `i` have the same newest versions
(`Contains.newest_eq`).
-/

namespace Omashu.Lib.Versions

variable {κ ν : Type*} [DecidableEq κ] {ts : ℕ → ℕ} {ws : ℕ → List (κ × ν)} {N m n i r : ℕ}
  {s s' : List (Version κ ν)}

/-- The version is one of the first `n` writes. -/
def Written (ts : ℕ → ℕ) (ws : ℕ → List (κ × ν)) (n : ℕ) (x : Version κ ν) : Prop :=
  ∃ i < n, x.ts = ts i ∧ latest (ws i) x.key = some x.val

/-- The store has the versions of the first `n` writes, and no others. -/
def Contains (ts : ℕ → ℕ) (ws : ℕ → List (κ × ν)) (n : ℕ) (s : List (Version κ ν)) : Prop :=
  ∀ x, x ∈ s ↔ Written ts ws n x

/-- The empty store contains no writes. -/
theorem Contains.nil : Contains ts ws 0 [] := by
  intro x
  refine iff_of_false List.not_mem_nil ?_
  rintro ⟨i, hi, -⟩
  omega

/-- Installing a write once more, or the next one, adds it to the writes that are there. -/
theorem Contains.install (hts : StrictMonoOn ts (Set.Iio N)) (h : Contains ts ws n s) (hi : i ≤ n)
    (hiN : i < N) (hnN : n ≤ N) :
    Contains ts ws (max n (i + 1)) (install s (ts i) (ws i)) := by
  intro x
  rw [mem_install_iff, h x]
  constructor
  · rintro (⟨hx, hw⟩ | ⟨⟨j, hj, hx, hw⟩, -⟩)
    · exact ⟨i, by omega, hx, hw⟩
    · exact ⟨j, by omega, hx, hw⟩
  · rintro ⟨j, hj, hx, hw⟩
    by_cases hij : j = i
    · subst hij
      exact .inl ⟨hx, hw⟩
    · -- Another write has another timestamp, so it is not replaced.
      have hjn : j < n := by omega
      have hne : ts j ≠ ts i := fun heq => hij (hts.injOn (hjn.trans_le hnN) hiN heq)
      refine .inr ⟨⟨j, hjn, hx, hw⟩, fun hxi => ?_⟩
      exact hne (hx.symm.trans hxi.1)

/-- A key has one version at a timestamp. -/
theorem Contains.unique (hts : StrictMonoOn ts (Set.Iio N)) (h : Contains ts ws n s) (hnN : n ≤ N) :
    ∀ x ∈ s, ∀ y ∈ s, x.key = y.key → x.ts = y.ts → x = y := by
  intro x hx y hy hkey hxy
  obtain ⟨i, hi, hxi, hxw⟩ := (h x).mp hx
  obtain ⟨j, hj, hyj, hyw⟩ := (h y).mp hy
  have hij : i = j :=
    hts.injOn (hi.trans_le hnN) (hj.trans_le hnN) (hxi.symm.trans (hxy.trans hyj))
  subst hij
  have hval : x.val = y.val := by
    rw [hkey, hyw] at hxw
    exact (Option.some.inj hxw).symm
  obtain ⟨_, _, _⟩ := x
  obtain ⟨_, _, _⟩ := y
  simp only at hkey hxy hval
  subst hkey hxy hval
  rfl

/-- Below the timestamp of a write, only the writes before it are there. -/
theorem Contains.mem_iff_of_lt (hts : StrictMonoOn ts (Set.Iio N)) (h : Contains ts ws n s)
    (hi : i ≤ n) (hiN : i < N) (hnN : n ≤ N) {x : Version κ ν} (hx : x.ts < ts i) :
    x ∈ s ↔ Written ts ws i x := by
  rw [h x]
  constructor
  · rintro ⟨j, hj, hxj, hw⟩
    rw [hxj] at hx
    exact ⟨j, (hts.lt_iff_lt (hj.trans_le hnN) hiN).mp hx, hxj, hw⟩
  · rintro ⟨j, hj, hxj, hw⟩
    exact ⟨j, by omega, hxj, hw⟩

/-- Below the timestamp of a write, the newest versions do not depend on what has been installed from
that write on. -/
theorem Contains.newest_eq (hts : StrictMonoOn ts (Set.Iio N)) (h : Contains ts ws n s)
    (h' : Contains ts ws m s') (hn : i ≤ n) (hm : i ≤ m) (hiN : i < N) (hnN : n ≤ N) (hmN : m ≤ N)
    (hr : r < ts i) (k : κ) : newest s k r = newest s' k r := by
  apply newest_eq_of_mem_iff (h.unique hts hnN)
  intro x _ hxr
  have hx : x.ts < ts i := by omega
  rw [h.mem_iff_of_lt hts hn hiN hnN hx, h'.mem_iff_of_lt hts hm hiN hmN hx]

end Omashu.Lib.Versions
