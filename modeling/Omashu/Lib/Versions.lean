import Mathlib.Data.List.MinMax
import Mathlib.Tactic.Common

/-!
# Multi-version stores

A multi-version store is a list of versions: a key, the timestamp the version was written at, and
what was written. `put` writes one version and replaces one of the same key and timestamp,
`install` writes several at one timestamp, and `newest s k r` is the version of `k` with the
greatest timestamp at or below `r`.

A read at `r` sees only the versions of its key at or below `r` (`visible`), so a write of another
key or above `r` does not change it, and neither does moving `r` over a gap without versions.
-/

namespace Omashu.Lib

/-- One version of a key. -/
structure Version (κ ν : Type*) where
  key : κ
  /-- The timestamp it was written at. -/
  ts : ℕ
  /-- What was written. -/
  val : ν
  deriving DecidableEq

namespace Versions

variable {κ ν : Type*} [DecidableEq κ]

/-- Writes one version, which replaces one of the same key and timestamp. -/
def put (s : List (Version κ ν)) (k : κ) (ts : ℕ) (v : ν) : List (Version κ ν) :=
  ⟨k, ts, v⟩ :: s.filter fun x => ¬(x.key = k ∧ x.ts = ts)

/-- Writes several versions at one timestamp. The list has the latest write first. -/
def install (s : List (Version κ ν)) (ts : ℕ) (ws : List (κ × ν)) : List (Version κ ν) :=
  ws.foldr (fun w s => put s w.1 ts w.2) s

/-- The versions of a key at or below a timestamp. -/
def visible (s : List (Version κ ν)) (k : κ) (r : ℕ) : List (Version κ ν) :=
  s.filter fun x => x.key = k ∧ x.ts ≤ r

/-- The newest version of a key at or below a timestamp. -/
def newest (s : List (Version κ ν)) (k : κ) (r : ℕ) : Option (Version κ ν) :=
  (visible s k r).argmax Version.ts

/-- The versions of a key at one timestamp. -/
def writtenAt (s : List (Version κ ν)) (k : κ) (ts : ℕ) : List (Version κ ν) :=
  s.filter fun x => x.key = k ∧ x.ts = ts

/-- The latest of several writes of a key. -/
def latest (ws : List (κ × ν)) (k : κ) : Option ν :=
  (ws.find? fun w => w.1 = k).map Prod.snd

variable {s : List (Version κ ν)} {k k' : κ} {r r' ts : ℕ} {v : ν} {x : Version κ ν}
  {ws : List (κ × ν)}

/-- Membership in the visible versions. -/
theorem mem_visible : x ∈ visible s k r ↔ x ∈ s ∧ x.key = k ∧ x.ts ≤ r := by
  simp [visible]

/-- The newest version is a visible one. -/
theorem newest_mem (h : newest s k r = some x) : x ∈ s ∧ x.key = k ∧ x.ts ≤ r :=
  mem_visible.mp (List.argmax_mem h)

/-- The versions after `put`. -/
theorem mem_put_iff : x ∈ put s k ts v ↔ x = ⟨k, ts, v⟩ ∨ x ∈ s ∧ ¬(x.key = k ∧ x.ts = ts) := by
  unfold put
  rw [List.mem_cons, List.mem_filter, decide_eq_true_iff]

/-- A write above `r` is not visible at `r`. -/
theorem visible_put_of_lt (h : r < ts) : visible (put s k' ts v) k r = visible s k r := by
  unfold visible put
  rw [List.filter_cons_of_neg (by simp; omega), List.filter_filter]
  apply List.filter_congr
  intro x _
  by_cases hx : x.ts = ts
  · simp [hx]
    omega
  · simp [hx]

/-- A write of another key is not visible. -/
theorem visible_put_of_ne (h : k' ≠ k) : visible (put s k' ts v) k r = visible s k r := by
  unfold visible put
  rw [List.filter_cons_of_neg (by simp [h]), List.filter_filter]
  apply List.filter_congr
  intro x _
  by_cases hx : x.key = k
  · simp [hx, Ne.symm h]
  · simp [hx]

/-- A write at or below `r`, and not below any visible version of its key, is the newest. -/
theorem newest_put_self (hr : ts ≤ r) (h : ∀ x ∈ s, x.key = k → x.ts ≤ r → x.ts ≤ ts) :
    newest (put s k ts v) k r = some ⟨k, ts, v⟩ := by
  unfold newest visible put
  rw [List.filter_cons_of_pos (by simp [hr]), List.argmax_cons]
  cases hm : List.argmax Version.ts
      ((s.filter fun x => ¬(x.key = k ∧ x.ts = ts)).filter fun x => x.key = k ∧ x.ts ≤ r) with
  | none => rfl
  | some c =>
    have hc := List.mem_filter.mp (List.argmax_mem hm)
    have hck : c.key = k ∧ c.ts ≤ r := by simpa using hc.2
    have hle : c.ts ≤ ts := h c (List.mem_filter.mp hc.1).1 hck.1 hck.2
    show (if ts < c.ts then some c else _) = _
    rw [if_neg (by omega)]

/-- Over a gap without versions of `k`, the visible versions do not change. -/
theorem visible_eq_of_gap (hr : r ≤ r') (h : ∀ x ∈ s, x.key = k → x.ts ≤ r' → x.ts ≤ r) :
    visible s k r' = visible s k r := by
  apply List.filter_congr
  intro x hx
  by_cases hk : x.key = k
  · simp only [hk, true_and, decide_eq_decide]
    exact ⟨h x hx hk, fun hle => le_trans hle hr⟩
  · simp [hk]

/-- Two reads that see the same versions return the same one. -/
theorem newest_congr {s' : List (Version κ ν)} (h : visible s k r = visible s' k r') :
    newest s k r = newest s' k r' := by
  unfold newest
  rw [h]

/-- The latest write of a key, at the first write of the list. -/
theorem latest_cons (w : κ × ν) (ws : List (κ × ν)) (k : κ) :
    latest (w :: ws) k = if w.1 = k then some w.2 else latest ws k := by
  unfold latest
  rw [List.find?_cons]
  by_cases hk : w.1 = k
  · simp [hk]
  · simp [hk]

/-- The latest write of a key comes from the first list, if that has one. -/
theorem latest_append (ws ws' : List (κ × ν)) (k : κ) :
    latest (ws ++ ws') k = (latest ws k).or (latest ws' k) := by
  unfold latest
  rw [List.find?_append, Option.map_or]

/-- The versions after `install`: the latest write of each key that is written, and the old versions
that none of them replaces. -/
theorem mem_install_iff :
    x ∈ install s ts ws ↔
      (x.ts = ts ∧ latest ws x.key = some x.val) ∨
        (x ∈ s ∧ ¬(x.ts = ts ∧ (latest ws x.key).isSome = true)) := by
  induction ws with
  | nil => simp [install, latest]
  | cons w ws ih =>
    show x ∈ put (install s ts ws) w.1 ts w.2 ↔ _
    rw [mem_put_iff, ih, latest_cons]
    obtain ⟨k, t, v⟩ := x
    by_cases hk : w.1 = k
    · subst hk
      by_cases ht : t = ts
      · subst ht
        simpa using eq_comm
      · simp [ht]
    · simp [hk, Ne.symm hk]

/-- A key that has a latest write is written. -/
theorem exists_of_latest_eq_some (h : latest ws k = some v) : ∃ w ∈ ws, w.1 = k ∧ w.2 = v := by
  obtain ⟨w, hw, rfl⟩ := Option.map_eq_some_iff.mp h
  exact ⟨w, List.mem_of_find?_eq_some hw, by simpa using List.find?_some hw, rfl⟩

/-- A version after `install` is one of the writes or an old one. -/
theorem mem_install (h : x ∈ install s ts ws) :
    (x.ts = ts ∧ ∃ w ∈ ws, w.1 = x.key ∧ w.2 = x.val) ∨ x ∈ s := by
  rcases mem_install_iff.mp h with ⟨ht, hw⟩ | ⟨hx, -⟩
  · exact .inl ⟨ht, exists_of_latest_eq_some hw⟩
  · exact .inr hx

/-- Writes above `r` are not visible at `r`. -/
theorem visible_install_of_lt (h : r < ts) : visible (install s ts ws) k r = visible s k r := by
  induction ws with
  | nil => rfl
  | cons w ws ih => exact (visible_put_of_lt h).trans ih

/-- Writes of other keys are not visible. -/
theorem visible_install_of_notMem (h : ∀ w ∈ ws, w.1 ≠ k) :
    visible (install s ts ws) k r = visible s k r := by
  induction ws with
  | nil => rfl
  | cons w ws ih =>
    exact (visible_put_of_ne (h w List.mem_cons_self)).trans
      (ih fun w' hw' => h w' (List.mem_cons_of_mem _ hw'))

/-- A key that none of the writes touches has no latest write. -/
theorem latest_eq_none_iff : latest ws k = none ↔ ∀ w ∈ ws, w.1 ≠ k := by
  simp [latest]

/-- Among writes at one timestamp, not below any version of the key, the latest is the newest
version. -/
theorem newest_install (hr : ts ≤ r) (h : ∀ x ∈ s, x.key = k → x.ts ≤ r → x.ts ≤ ts)
    (hv : latest ws k = some v) : newest (install s ts ws) k r = some ⟨k, ts, v⟩ := by
  induction ws with
  | nil => simp [latest] at hv
  | cons w ws ih =>
    by_cases hk : w.1 = k
    · -- The first write of the list is the last one installed.
      have hw : w.2 = v := by simpa [latest, hk] using hv
      show newest (put (install s ts ws) w.1 ts w.2) k r = _
      rw [hk, hw]
      apply newest_put_self hr
      intro x hx hxk hxr
      rcases mem_install hx with ⟨ht, -⟩ | hx
      · exact le_of_eq ht
      · exact h x hx hxk hxr
    · have hv' : latest ws k = some v := by simpa [latest, hk] using hv
      rw [← ih hv']
      exact newest_congr (visible_put_of_ne hk)

/-- `put` leaves the versions of other keys and at other timestamps. -/
theorem writtenAt_put_of_ne {ts' : ℕ} (h : ¬(k' = k ∧ ts' = ts)) :
    writtenAt (put s k' ts' v) k ts = writtenAt s k ts := by
  unfold writtenAt put
  rw [List.filter_cons_of_neg (by simpa using h), List.filter_filter]
  apply List.filter_congr
  intro x _
  by_cases hx : x.key = k ∧ x.ts = ts
  · have hkept : ¬(x.key = k' ∧ x.ts = ts') := fun hx' =>
      h ⟨hx'.1.symm.trans hx.1, hx'.2.symm.trans hx.2⟩
    simp [hkept]
  · simp [hx]

/-- `put` leaves its own version as the only one of the key at the timestamp. -/
theorem writtenAt_put_self : writtenAt (put s k ts v) k ts = [⟨k, ts, v⟩] := by
  unfold writtenAt put
  rw [List.filter_cons_of_pos (by simp), List.filter_filter]
  congr 1
  rw [List.filter_eq_nil_iff]
  intro x _
  simp

/-- `install` leaves the latest write of a key as its only version at the timestamp. -/
theorem writtenAt_install (h : latest ws k = some v) :
    writtenAt (install s ts ws) k ts = [⟨k, ts, v⟩] := by
  induction ws with
  | nil => simp [latest] at h
  | cons w ws ih =>
    show writtenAt (put (install s ts ws) w.1 ts w.2) k ts = _
    rw [latest_cons] at h
    by_cases hk : w.1 = k
    · rw [if_pos hk] at h
      rw [hk, Option.some.inj h]
      exact writtenAt_put_self
    · rw [if_neg hk] at h
      rw [writtenAt_put_of_ne fun hw => hk hw.1]
      exact ih h

/-- `install` leaves the versions of keys that it does not write, and at other timestamps. -/
theorem writtenAt_install_of_ne {ts' : ℕ} (h : latest ws k = none ∨ ts ≠ ts') :
    writtenAt (install s ts ws) k ts' = writtenAt s k ts' := by
  induction ws with
  | nil => rfl
  | cons w ws ih =>
    show writtenAt (put (install s ts ws) w.1 ts w.2) k ts' = _
    rcases h with h | h
    · have hw := latest_eq_none_iff.mp h
      rw [writtenAt_put_of_ne fun hk => hw w List.mem_cons_self hk.1]
      exact ih (.inl (latest_eq_none_iff.mpr fun w' hw' => hw w' (List.mem_cons_of_mem _ hw')))
    · rw [writtenAt_put_of_ne fun hk => h hk.2]
      exact ih (.inr h)

/-- Dropping elements below the greatest leaves it the greatest. -/
theorem argmax_filter {α : Type*} {f : α → ℕ} {p : α → Bool} {l : List α} {m : α}
    (h : l.argmax f = some m) (hp : ∀ a ∈ l, f m ≤ f a → p a = true) :
    (l.filter p).argmax f = some m := by
  induction l generalizing m with
  | nil => exact absurd h (by simp)
  | cons a l ih =>
    rw [List.argmax_cons] at h
    cases hl : l.argmax f with
    | none =>
      obtain rfl := List.argmax_eq_none.mp hl
      obtain rfl : a = m := by simpa using h
      rw [List.filter_cons_of_pos (hp a List.mem_cons_self le_rfl)]
      rfl
    | some c =>
      rw [hl] at h
      replace h : (if f a < f c then some c else some a) = some m := h
      split_ifs at h with hac
      · -- The greatest is further on.
        obtain rfl := Option.some.inj h
        have hrest := ih hl fun b hb => hp b (List.mem_cons_of_mem _ hb)
        by_cases ha : p a = true
        · rw [List.filter_cons_of_pos ha, List.argmax_cons, hrest]
          exact if_pos hac
        · rw [List.filter_cons_of_neg ha, hrest]
      · -- It is the first, which is kept.
        obtain rfl := Option.some.inj h
        rw [List.filter_cons_of_pos (hp a List.mem_cons_self le_rfl), List.argmax_cons]
        cases hf : (l.filter p).argmax f with
        | none => rfl
        | some c' =>
          have hc' := List.le_of_mem_argmax (List.mem_filter.mp (List.argmax_mem hf)).1 hl
          exact if_neg (by omega)

/-- A version above all others of its key is the newest. -/
theorem newest_eq_of_lt (hx : x ∈ s) (hk : x.key = k) (hr : x.ts ≤ r)
    (h : ∀ y ∈ s, y.key = k → y.ts ≤ r → y.ts < x.ts ∨ y = x) : newest s k r = some x := by
  have hxv : x ∈ visible s k r := mem_visible.mpr ⟨hx, hk, hr⟩
  cases hn : newest s k r with
  | none =>
    rw [newest, List.argmax_eq_none] at hn
    rw [hn] at hxv
    exact absurd hxv List.not_mem_nil
  | some y =>
    have hle : x.ts ≤ y.ts := List.le_of_mem_argmax hxv hn
    obtain ⟨hy, hyk, hyr⟩ := newest_mem hn
    rcases h y hy hyk hyr with hlt | rfl
    · omega
    · rfl

/-- A write below the newest version leaves it the newest. -/
theorem newest_put_of_lt {m : Version κ ν} (h : newest s k r = some m) (hts : ts < m.ts) :
    newest (put s k' ts v) k r = some m := by
  by_cases hk : k' = k
  · subst hk
    by_cases hr : r < ts
    · rw [newest_congr (visible_put_of_lt hr), h]
    · have hrest : ((visible s k' r).filter fun x => ¬(x.key = k' ∧ x.ts = ts)).argmax Version.ts =
          some m := by
        refine argmax_filter h fun x _ hm => ?_
        have hne : x.ts ≠ ts := by omega
        simp [hne]
      unfold visible at hrest
      unfold newest visible put
      rw [List.filter_cons_of_pos (by simpa using not_lt.mp hr), List.filter_comm, List.argmax_cons, hrest]
      exact if_pos hts
  · rw [newest_congr (visible_put_of_ne hk), h]

/-- Writes below the newest version leave it the newest. -/
theorem newest_install_of_lt {m : Version κ ν} (h : newest s k r = some m) (hts : ts < m.ts) :
    newest (install s ts ws) k r = some m := by
  induction ws with
  | nil => exact h
  | cons w ws ih => exact newest_put_of_lt ih hts

/-- Where a key has one version at a timestamp, the newest version depends only on which versions
there are, not on their order. -/
theorem newest_eq_of_mem_iff {s' : List (Version κ ν)}
    (huniq : ∀ x ∈ s, ∀ y ∈ s, x.key = y.key → x.ts = y.ts → x = y)
    (h : ∀ x, x.key = k → x.ts ≤ r → (x ∈ s ↔ x ∈ s')) : newest s k r = newest s' k r := by
  have hmem : ∀ x, x ∈ visible s k r ↔ x ∈ visible s' k r := by
    intro x
    rw [mem_visible, mem_visible]
    exact and_congr_left fun hx => h x hx.1 hx.2
  unfold newest
  cases hx : (visible s k r).argmax Version.ts with
  | none =>
    rw [List.argmax_eq_none, List.eq_nil_iff_forall_not_mem] at hx
    symm
    rw [List.argmax_eq_none, List.eq_nil_iff_forall_not_mem]
    exact fun x hx' => hx x ((hmem x).mpr hx')
  | some x =>
    have hxs := List.argmax_mem hx
    cases hy : (visible s' k r).argmax Version.ts with
    | none =>
      rw [List.argmax_eq_none] at hy
      have hxs' := (hmem x).mp hxs
      rw [hy] at hxs'
      exact absurd hxs' List.not_mem_nil
    | some y =>
      -- Each of the two is at least the other, so they are versions at one timestamp.
      have hys := (hmem y).mpr (List.argmax_mem hy)
      have hyx : y.ts ≤ x.ts := List.le_of_mem_argmax hys hx
      have hxy : x.ts ≤ y.ts := List.le_of_mem_argmax ((hmem x).mp hxs) hy
      obtain ⟨hx, hxk, -⟩ := mem_visible.mp hxs
      obtain ⟨hy, hyk, -⟩ := mem_visible.mp hys
      rw [huniq x hx y hy (hxk.trans hyk.symm) (le_antisymm hxy hyx)]

end Versions

end Omashu.Lib
