import Mathlib.Data.List.Chain
import Mathlib.Order.Nat
import Mathlib.Tactic.Common

/-!
# The retained suffix of a sequence

A sequence numbered from one on, of which the items up to an offset have been dropped. `get? i` is the
item with the number `i`, `slice lo hi` those with numbers from `lo` up to `hi`, without `hi`, and
`dropTo i` drops the items up to `i`. Dropping does not change what lies above (`get?_dropTo`,
`slice_dropTo`, `last_dropTo`).

`put i a` writes an item over what there is from its number on, `putAll` several of them. Where a sequence is
written twice, from two offsets, the one with the higher offset keeps what the other has above it
(`Kept.putAll`): nothing that one accepts is a gap in the other.
-/

namespace Omashu.Lib

/-- The items of a sequence above an offset. -/
structure Suffix (α : Type*) where
  /-- The number of the last item that has been dropped. -/
  offset : ℕ
  /-- The items that are left. -/
  items : List α
  deriving DecidableEq

namespace Suffix

variable {α : Type*} {s : Suffix α} {i j lo up : ℕ}

/-- The number of the last item. -/
def last (s : Suffix α) : ℕ := s.offset + s.items.length

/-- The item with a number, if it is there. -/
def get? (s : Suffix α) (i : ℕ) : Option α :=
  if s.offset < i then s.items[i - s.offset - 1]? else none

/-- The items from a number up to another, without it. -/
def slice (s : Suffix α) (lo hi : ℕ) : List α := (s.items.drop (lo - s.offset - 1)).take (hi - lo)

/-- Drops the items up to a number. -/
def dropTo (s : Suffix α) (i : ℕ) : Suffix α := ⟨i, s.items.drop (i - s.offset)⟩

/-- Dropping keeps the last number. -/
theorem last_dropTo (hi : s.offset ≤ i) (hl : i ≤ s.last) : (s.dropTo i).last = s.last := by
  unfold last at hl
  unfold last dropTo
  simp only [List.length_drop]
  omega

/-- Dropping keeps the items above. -/
theorem get?_dropTo (hi : s.offset ≤ i) (hj : i < j) : (s.dropTo i).get? j = s.get? j := by
  have hoff : s.offset < j := by omega
  have hpos : i - s.offset + (j - i - 1) = j - s.offset - 1 := by omega
  unfold get? dropTo
  rw [if_pos hj, if_pos hoff, List.getElem?_drop, hpos]

/-- What is left after dropping was there before. -/
theorem get?_of_dropTo {a : α} (hi : s.offset ≤ i) (h : (s.dropTo i).get? j = some a) :
    s.get? j = some a := by
  have hj : i < j := by
    by_contra hj
    unfold get? dropTo at h
    rw [if_neg hj] at h
    exact absurd h (by simp)
  rw [← get?_dropTo hi hj]
  exact h

/-- Dropping keeps the slices above. -/
theorem slice_dropTo (hi : s.offset ≤ i) (hlo : i < lo) :
    (s.dropTo i).slice lo up = s.slice lo up := by
  have hpos : i - s.offset + (lo - i - 1) = lo - s.offset - 1 := by omega
  unfold slice dropTo
  rw [List.drop_drop, hpos]

/-- Dropping up to the offset drops nothing. -/
theorem dropTo_offset (s : Suffix α) : s.dropTo s.offset = s := by
  unfold dropTo
  rw [Nat.sub_self, List.drop_zero]

/-- Dropping up to the last number leaves nothing. -/
theorem dropTo_last (s : Suffix α) : s.dropTo s.last = ⟨s.last, []⟩ := by
  unfold dropTo last
  rw [Nat.add_sub_cancel_left, List.drop_length]

/-- Every number above the offset up to the last one has an item. -/
theorem exists_get? (hi : s.offset < i) (hl : i ≤ s.last) : ∃ a, s.get? i = some a := by
  unfold last at hl
  have hlt : i - s.offset - 1 < s.items.length := by omega
  unfold get?
  rw [if_pos hi, List.getElem?_eq_getElem hlt]
  exact ⟨_, rfl⟩

/-- A suffix that reaches beyond its offset has items. -/
theorem items_ne_nil (h : s.offset < s.last) : s.items ≠ [] := by
  unfold last at h
  exact List.ne_nil_of_length_pos (by omega)

/-! ## Writing over a suffix -/

/-- Replaces the items from a number on. -/
def splice (s : Suffix α) (i : ℕ) (l : List α) : Suffix α := ⟨s.offset, s.items.take (i - s.offset - 1) ++ l⟩

/-- Writes an item over the items from its number on. A number that has been dropped is ignored, and one that
leaves a gap is refused. -/
def put (s : Suffix α) (i : ℕ) (a : α) : Option (Suffix α) :=
  if i ≤ s.offset then some s else if s.last + 1 < i then none else some (s.splice i [a])

/-- Writes items one after the other, each at its own number. -/
def putAll (num : α → ℕ) (s : Suffix α) : List α → Option (Suffix α)
  | [] => some s
  | a :: l => (s.put (num a) a).bind fun s => putAll num s l

/-- Every item has the number of its position. -/
def Numbered (num : α → ℕ) (s : Suffix α) : Prop := ∀ j a, s.get? j = some a → num a = j

/-- The items have consecutive numbers. -/
def Consecutive (num : α → ℕ) (l : List α) : Prop := l.IsChain fun a b => num b = num a + 1

variable {num : α → ℕ} {a : α} {l : List α} {s' : Suffix α}

/-- The items below a replacement are all there. -/
theorem length_take_splice (hl : i ≤ s.last + 1) :
    (s.items.take (i - s.offset - 1)).length = i - s.offset - 1 := by
  unfold last at hl
  simp only [List.length_take]
  omega

/-- The last number after a replacement. -/
theorem last_splice (hi : s.offset < i) (hl : i ≤ s.last + 1) : (s.splice i l).last + 1 = i + l.length := by
  change s.offset + (s.items.take (i - s.offset - 1) ++ l).length + 1 = i + l.length
  rw [List.length_append, length_take_splice hl]
  omega

/-- A replacement keeps the items below it. -/
theorem get?_splice_of_lt (hl : i ≤ s.last + 1) (hj : j < i) : (s.splice i l).get? j = s.get? j := by
  unfold last at hl
  change (if s.offset < j then (s.items.take (i - s.offset - 1) ++ l)[j - s.offset - 1]? else none) = s.get? j
  unfold get?
  split_ifs with ho
  · have hlen : j - s.offset - 1 < (s.items.take (i - s.offset - 1)).length := by
      simp only [List.length_take]
      omega
    rw [List.getElem?_append_left hlen, List.getElem?_take_of_lt (by omega)]
  · rfl

/-- The items of a replacement. -/
theorem get?_splice_of_le (hi : s.offset < i) (hl : i ≤ s.last + 1) (hj : i ≤ j) :
    (s.splice i l).get? j = l[j - i]? := by
  have hlen := length_take_splice hl
  have hpos : j - s.offset - 1 - (i - s.offset - 1) = j - i := by omega
  change (if s.offset < j then (s.items.take (i - s.offset - 1) ++ l)[j - s.offset - 1]? else none) = _
  rw [if_pos (show s.offset < j by omega), List.getElem?_append_right (by omega), hlen, hpos]

/-- A number that has been dropped is ignored. -/
theorem put_of_le (hi : i ≤ s.offset) : s.put i a = some s := if_pos hi

/-- A number that leaves no gap is written. -/
theorem put_of_lt (hi : s.offset < i) (hl : i ≤ s.last + 1) : s.put i a = some (s.splice i [a]) := by
  unfold put
  rw [if_neg (by omega), if_neg (by omega)]

/-- Where writing an item succeeds. -/
theorem put_eq_some_iff : s.put i a = some s' ↔
    i ≤ s.offset ∧ s' = s ∨ s.offset < i ∧ i ≤ s.last + 1 ∧ s' = s.splice i [a] := by
  unfold put
  split_ifs with hi hl
  · simp [hi, eq_comm, Nat.not_lt.mpr hi]
  · simp [hi, Nat.not_le.mpr hl]
  · simp [hi, Nat.lt_of_not_le hi, Nat.le_of_not_lt hl, eq_comm]

/-- Writing leaves the offset. -/
theorem offset_put (h : s.put i a = some s') : s'.offset = s.offset := by
  rcases put_eq_some_iff.mp h with ⟨-, rfl⟩ | ⟨-, -, rfl⟩
  · rfl
  · rfl

/-- Items with consecutive numbers, from `i` on, keep the numbers right. -/
theorem Numbered.splice (h : s.Numbered num) (hi : s.offset < i) (hl : i ≤ s.last + 1)
    (hnum : ∀ k a, l[k]? = some a → num a = i + k) : (s.splice i l).Numbered num := by
  intro j a hj
  rcases Nat.lt_or_ge j i with hlt | hge
  · rw [get?_splice_of_lt hl hlt] at hj
    exact h j a hj
  · rw [get?_splice_of_le hi hl hge] at hj
    rw [hnum _ _ hj]
    omega

/-- Consecutive numbers, counted from the first. -/
theorem Consecutive.num_eq {k : ℕ} {b : α} (h : Consecutive num (a :: l)) (hb : (a :: l)[k]? = some b) :
    num b = num a + k := by
  induction l generalizing a k with
  | nil =>
    rcases k with _ | k
    · simp_all
    · simp at hb
  | cons c l ih =>
    rcases k with _ | k
    · simp_all
    · obtain ⟨hc, hl⟩ := List.isChain_cons_cons.mp h
      have hb : (c :: l)[k]? = some b := by simpa using hb
      rw [ih hl hb, hc]
      omega

/-- The items of a suffix with the right numbers are consecutive. -/
theorem Numbered.consecutive (h : s.Numbered num) : Consecutive num s.items := by
  refine List.isChain_iff_getElem.mpr fun k hk => ?_
  have hget : ∀ n (hn : n < s.items.length), num s.items[n] = s.offset + n + 1 := by
    intro n hn
    apply h
    unfold get?
    rw [if_pos (by omega), show s.offset + n + 1 - s.offset - 1 = n by omega, List.getElem?_eq_getElem hn]
  rw [hget (k + 1) hk, hget k (by omega)]
  omega

/-- Items are written in two parts. -/
theorem putAll_append (num : α → ℕ) (s : Suffix α) (l l' : List α) :
    s.putAll num (l ++ l') = (s.putAll num l).bind fun s' => s'.putAll num l' := by
  induction l generalizing s with
  | nil => rfl
  | cons a l ih => simp only [List.cons_append, putAll, ih, Option.bind_assoc]

/-- Items whose numbers have been dropped are ignored. -/
theorem putAll_of_le (h : ∀ a ∈ l, num a ≤ s.offset) : s.putAll num l = some s := by
  induction l with
  | nil => rfl
  | cons a l ih =>
    rw [putAll, put_of_le (h a List.mem_cons_self)]
    exact ih fun b hb => h b (List.mem_cons_of_mem a hb)

/-- Consecutive items replace what there is from the number of the first. -/
theorem putAll_consecutive (hl : Consecutive num (a :: l)) (hi : s.offset < num a)
    (hlast : num a ≤ s.last + 1) : s.putAll num (a :: l) = some (s.splice (num a) (a :: l)) := by
  induction l generalizing a s with
  | nil => rw [putAll, put_of_lt hi hlast]; rfl
  | cons b l ih =>
    obtain ⟨hb, hl'⟩ := List.isChain_cons_cons.mp hl
    have hlast' : (s.splice (num a) [a]).last = num a := by
      simpa using last_splice (l := [a]) hi hlast
    have hoff : (s.splice (num a) [a]).offset < num b := Nat.lt_of_lt_of_le hi (by omega)
    rw [putAll, put_of_lt hi hlast, Option.bind_some, ih hl' hoff (by omega)]
    -- The first item stays, since the second one has the next number.
    have hlen := length_take_splice hlast
    have hpos : num b - s.offset - 1 = (num a - s.offset - 1) + 1 := by omega
    have htake : (s.items.take (num a - s.offset - 1) ++ [a]).take (num b - s.offset - 1) =
        s.items.take (num a - s.offset - 1) ++ [a] :=
      List.take_of_length_le (by simp [hlen, hpos])
    change some (Suffix.mk s.offset
      ((s.items.take (num a - s.offset - 1) ++ [a]).take (num b - s.offset - 1) ++ b :: l)) = _
    rw [htake, List.append_assoc]
    rfl

/-- Consecutive items of which the first are dropped replace what there is from the first one on that is
not. -/
theorem putAll_drop (hl : Consecutive num (a :: l)) (hend : s.offset + 1 ≤ num a + l.length)
    (hgap : max (num a) (s.offset + 1) ≤ s.last + 1) :
    s.putAll num (a :: l) =
      some (s.splice (max (num a) (s.offset + 1)) ((a :: l).drop (s.offset + 1 - num a))) := by
  have hdrop : Consecutive num ((a :: l).drop (s.offset + 1 - num a)) := List.IsChain.drop hl _
  have hlen : s.offset + 1 - num a < (a :: l).length := by
    rw [List.length_cons]
    omega
  -- What is dropped has numbers up to the offset, and what is left begins above it.
  have htake : ∀ b ∈ (a :: l).take (s.offset + 1 - num a), num b ≤ s.offset := by
    intro b hb
    obtain ⟨k, hk⟩ := List.mem_iff_getElem?.mp hb
    have hk' : k < s.offset + 1 - num a := by
      have := (List.getElem?_eq_some_iff.mp hk).1
      rw [List.length_take] at this
      omega
    rw [List.getElem?_take_of_lt hk'] at hk
    rw [hl.num_eq hk]
    omega
  obtain ⟨b, l', hbl⟩ : ∃ b l', (a :: l).drop (s.offset + 1 - num a) = b :: l' :=
    List.exists_cons_of_ne_nil (by simpa using hlen)
  have hb : num b = max (num a) (s.offset + 1) := by
    have hget : (a :: l)[s.offset + 1 - num a]? = some b := by
      have hzero : ((a :: l).drop (s.offset + 1 - num a))[0]? = (a :: l)[s.offset + 1 - num a + 0]? :=
        List.getElem?_drop
      rw [hbl] at hzero
      simpa using hzero.symm
    rw [hl.num_eq hget]
    omega
  rw [← List.take_append_drop (s.offset + 1 - num a) (a :: l), putAll_append, putAll_of_le htake,
    Option.bind_some, List.take_append_drop, hbl, putAll_consecutive (hbl ▸ hdrop) (by omega) (by omega), hb]

/-- The last number after an item is written, which is its own unless that has been dropped. -/
theorem last_put (h : s.put i a = some s') : s'.last = if i ≤ s.offset then s.last else i := by
  rcases put_eq_some_iff.mp h with ⟨hi, rfl⟩ | ⟨hi, hl, rfl⟩
  · rw [if_pos hi]
  · rw [if_neg (Nat.not_le.mpr hi)]
    simpa using last_splice (l := [a]) hi hl

/-- Consecutive items can be written where the first one leaves no gap. -/
theorem exists_putAll (hl : Consecutive num l) (hgap : ∀ b, l.head? = some b → num b ≤ s.last + 1) :
    ∃ s', s.putAll num l = some s' := by
  induction l generalizing s with
  | nil => exact ⟨s, rfl⟩
  | cons a l ih =>
    have ha := hgap a rfl
    obtain ⟨s₁, hs₁⟩ : ∃ s₁, s.put (num a) a = some s₁ := by
      rcases Nat.lt_or_ge s.offset (num a) with hi | hi
      · exact ⟨_, put_of_lt hi ha⟩
      · exact ⟨s, put_of_le hi⟩
    -- The item that follows has the next number.
    have hnext : ∀ b, l.head? = some b → num b ≤ s₁.last + 1 := by
      intro b hb
      obtain ⟨c, l', rfl⟩ : ∃ c l', l = c :: l' := by
        cases l with
        | nil => simp at hb
        | cons c l' => exact ⟨c, l', rfl⟩
      obtain rfl : c = b := by simpa using hb
      have hnum := (List.isChain_cons_cons.mp hl).1
      have hlast := last_put hs₁
      have : s.offset ≤ s.last := Nat.le_add_right _ _
      split_ifs at hlast
      · omega
      · omega
    obtain ⟨s', hs'⟩ := ih hl.tail hnext
    exact ⟨s', by rw [putAll, hs₁, Option.bind_some, hs']⟩

/-- What is there after an item is written. -/
theorem get?_put (h : s.put i a = some s') (hi : s.offset < i) :
    s'.get? j = if j < i then s.get? j else if j = i then some a else none := by
  rcases put_eq_some_iff.mp h with ⟨hi', -⟩ | ⟨-, hl, rfl⟩
  · omega
  · split_ifs with hlt heq
    · exact get?_splice_of_lt hl hlt
    · rw [get?_splice_of_le hi hl (by omega), heq, Nat.sub_self]
      rfl
    · rw [get?_splice_of_le hi hl (by omega), List.getElem?_eq_none_iff]
      simp only [List.length_singleton]
      omega

/-- Writing items leaves the offset. -/
theorem offset_putAll (h : s.putAll num l = some s') : s'.offset = s.offset := by
  induction l generalizing s with
  | nil => rw [← Option.some.inj h]
  | cons a l ih =>
    obtain ⟨s₁, hs₁, hs'⟩ := Option.bind_eq_some_iff.mp h
    rw [ih hs', offset_put hs₁]

/-- An item stays while items are written, or there is one of those at its number or below. -/
theorem get?_putAll (h : s.putAll num l = some s') (hj : s.get? j = some a) :
    s'.get? j = some a ∨ ∃ b ∈ l, num b ≤ j ∧ s'.get? (num b) = some b := by
  induction l generalizing s j a with
  | nil =>
    obtain rfl := Option.some.inj h
    exact .inl hj
  | cons b l ih =>
    obtain ⟨s₁, hs₁, hs'⟩ := Option.bind_eq_some_iff.mp h
    have hlater : ∀ {i c}, s₁.get? i = some c → i ≤ j →
        s'.get? i = some c ∨ ∃ d ∈ b :: l, num d ≤ j ∧ s'.get? (num d) = some d := by
      intro i c hc hi
      rcases ih hs' hc with hkept | ⟨d, hd, hle, hget⟩
      · exact .inl hkept
      · exact .inr ⟨d, List.mem_cons_of_mem b hd, hle.trans hi, hget⟩
    rcases Nat.lt_or_ge s.offset (num b) with hb | hb
    · rcases Nat.lt_or_ge j (num b) with hlt | hge
      · exact hlater (by rw [get?_put hs₁ hb, if_pos hlt, hj]) le_rfl
      · -- The item is replaced, and what matters from here on is the new one.
        have hget : s₁.get? (num b) = some b := by
          rw [get?_put hs₁ hb, if_neg (Nat.lt_irrefl _), if_pos rfl]
        rcases hlater hget hge with hkept | hreplaced
        · exact .inr ⟨b, List.mem_cons_self, hge, hkept⟩
        · exact .inr hreplaced
    · rw [put_of_le hb] at hs₁
      obtain rfl := Option.some.inj hs₁
      exact hlater hj le_rfl

/-- Where there is an item, or one is written above the offset, something is left. -/
theorem offset_lt_last_putAll (h : s.putAll num l = some s')
    (hs : s.offset < s.last ∨ ∃ a ∈ l, s.offset < num a) : s'.offset < s'.last := by
  induction l generalizing s with
  | nil =>
    obtain rfl := Option.some.inj h
    exact hs.resolve_right fun ⟨a, ha, _⟩ => absurd ha List.not_mem_nil
  | cons b l ih =>
    obtain ⟨s₁, hs₁, hs'⟩ := Option.bind_eq_some_iff.mp h
    refine ih hs' ?_
    rw [offset_put hs₁, last_put hs₁]
    split_ifs with hb
    · refine hs.imp_right fun ⟨a, ha, hlt⟩ => ⟨a, ?_, hlt⟩
      rcases List.mem_cons.mp ha with rfl | ha
      · omega
      · exact ha
    · exact .inl (Nat.lt_of_not_le hb)

/-- What is there after items are written was there before, or is one of them. -/
theorem mem_of_get?_putAll (h : s.putAll num l = some s') (hj : s'.get? j = some a) :
    s.get? j = some a ∨ a ∈ l := by
  induction l generalizing s with
  | nil =>
    obtain rfl := Option.some.inj h
    exact .inl hj
  | cons b l ih =>
    obtain ⟨s₁, hs₁, hs'⟩ := Option.bind_eq_some_iff.mp h
    rcases ih hs' with hget | hmem
    · rcases Nat.lt_or_ge s.offset (num b) with hb | hb
      · rw [get?_put hs₁ hb] at hget
        split_ifs at hget
        · exact .inl hget
        · exact .inr (List.mem_cons.mpr (.inl (Option.some.inj hget).symm))
      · rw [put_of_le hb] at hs₁
        obtain rfl := Option.some.inj hs₁
        exact .inl hget
    · exact .inr (List.mem_cons_of_mem b hmem)

/-- Consecutive items of which one has the first number replace all there is. -/
theorem putAll_of_first (hl : Consecutive num l) (ha : a ∈ l) (hnum : num a = s.offset + 1) :
    s.putAll num l = putAll num ⟨s.offset, []⟩ l := by
  have hlt : l.Pairwise fun b c => num b < num c := by
    have : Trans (fun b c => num b < num c) (fun b c => num b < num c) fun b c => num b < num c :=
      ⟨fun hbc hcd => Nat.lt_trans hbc hcd⟩
    exact List.isChain_iff_pairwise.mp (hl.imp fun b c hbc => by omega)
  obtain ⟨l₁, l₂, rfl⟩ := List.append_of_mem ha
  -- The items before it are ignored.
  have hbefore : ∀ b ∈ l₁, num b ≤ s.offset := by
    intro b hb
    have := (List.pairwise_append.mp hlt).2.2 b hb a List.mem_cons_self
    omega
  -- What is left after the item does not depend on what was there.
  have hput : ∀ x : Suffix α, x.offset = s.offset →
      x.putAll num (l₁ ++ a :: l₂) = putAll num ⟨s.offset, [a]⟩ l₂ := by
    intro x hx
    have hgap : num a ≤ x.last + 1 := by
      rw [hnum, ← hx]
      exact Nat.succ_le_succ (Nat.le_add_right _ _)
    have hsplice : x.splice (num a) [a] = ⟨s.offset, [a]⟩ := by
      simp [splice, hnum, hx]
    rw [putAll_append, putAll_of_le (fun b hb => hx ▸ hbefore b hb), Option.bind_some, putAll,
      put_of_lt (by omega) hgap, hsplice]
    rfl
  rw [hput s rfl, hput ⟨s.offset, []⟩ rfl]

/-- Items of which none has the first number leave an empty suffix. -/
theorem putAll_nil_of_ne (h : putAll num ⟨i, []⟩ l = some s') (hl : ∀ a ∈ l, num a ≠ i + 1) :
    s' = ⟨i, []⟩ := by
  induction l with
  | nil => exact (Option.some.inj h).symm
  | cons a l ih =>
    obtain ⟨s₁, hs₁, hs'⟩ := Option.bind_eq_some_iff.mp h
    rcases put_eq_some_iff.mp hs₁ with ⟨-, rfl⟩ | ⟨hi, hlast, -⟩
    · exact ih hs' fun b hb => hl b (List.mem_cons_of_mem a hb)
    · have hi : i < num a := hi
      have hlast : num a ≤ i + 1 := hlast
      exact absurd (Nat.le_antisymm hlast hi) (hl a List.mem_cons_self)

/-- A suffix with the right numbers is what its items make of an empty one. -/
theorem Numbered.putAll_items (h : s.Numbered num) : putAll num ⟨s.offset, []⟩ s.items = some s := by
  have hcons := h.consecutive
  obtain ⟨o, _ | ⟨a, l⟩⟩ := s
  · rfl
  · have ha : num a = o + 1 := by
      apply h
      change (if o < o + 1 then (a :: l)[o + 1 - o - 1]? else none) = some a
      rw [if_pos (Nat.lt_succ_self o), show o + 1 - o - 1 = 0 by omega]
      rfl
    have hgap : num a ≤ (Suffix.mk o ([] : List α)).last + 1 := ha.le
    have hoff : (Suffix.mk o ([] : List α)).offset < num a := ha.symm ▸ Nat.lt_succ_self o
    rw [putAll_consecutive hcons hoff hgap]
    simp [Suffix.splice]

/-! ## Two suffixes of one sequence -/

/-- The second suffix keeps what the first one has above its offset, and may go on after it. -/
structure Kept (x y : Suffix α) : Prop where
  /-- The second suffix begins no earlier. -/
  offset_le : x.offset ≤ y.offset
  /-- It reaches as far. -/
  last_le : x.last ≤ y.last
  /-- They agree where both have items. -/
  get?_eq : ∀ j, y.offset < j → j ≤ x.last → y.get? j = x.get? j

variable {x y z x' : Suffix α}

/-- A suffix keeps itself. -/
theorem Kept.refl (x : Suffix α) : Kept x x := ⟨le_rfl, le_rfl, fun _ _ _ => rfl⟩

/-- An empty suffix is kept by one that begins no earlier. -/
theorem Kept.nil (h : i ≤ j) : Kept (⟨i, []⟩ : Suffix α) ⟨j, []⟩ where
  offset_le := h
  last_le := h
  get?_eq k hk hle := by
    have hj : j < k := hk
    have hi : k ≤ i := hle
    omega

/-- What is written to an empty suffix keeps it. -/
theorem Kept.of_putAll (h : Suffix.putAll num ⟨i, []⟩ l = some x) : Kept ⟨i, []⟩ x where
  offset_le := (offset_putAll h).ge
  last_le := (offset_putAll h).ge.trans (Nat.le_add_right _ _)
  get?_eq k hk hle := by
    have hoff : x.offset = i := offset_putAll h
    have hi : k ≤ i := hle
    omega

/-- What is written to a suffix can be written to one that keeps it, and is kept. -/
theorem Kept.put (h : Kept x y) (hx : x.put i a = some x') : ∃ y', y.put i a = some y' ∧ Kept x' y' := by
  have hlast := h.last_le
  have hoff := h.offset_le
  rcases Nat.lt_or_ge y.offset i with hi | hi
  · -- The number is above both offsets, and what is written there ends both.
    have hxi : x.offset < i := by omega
    obtain ⟨hxi', -⟩ | ⟨-, hl, -⟩ := put_eq_some_iff.mp hx
    · omega
    have hy := put_of_lt (a := a) hi (by omega : i ≤ y.last + 1)
    refine ⟨_, hy, ?_, ?_, ?_⟩
    · rw [offset_put hx, offset_put hy]
      exact hoff
    · rw [last_put hx, last_put hy, if_neg (Nat.not_le.mpr hxi), if_neg (Nat.not_le.mpr hi)]
    · intro j hj hle
      rw [offset_put hy] at hj
      rw [last_put hx, if_neg (by omega)] at hle
      rw [get?_put hx hxi, get?_put hy hi]
      split_ifs with hlt
      · exact h.get?_eq j hj (by omega)
      · rfl
      · rfl
  · -- The second suffix has dropped the number, so the first one is cut below its offset.
    refine ⟨y, put_of_le hi, ?_, ?_, ?_⟩
    · rw [offset_put hx]
      exact hoff
    · rw [last_put hx]
      split_ifs
      · exact hlast
      · exact hi.trans (Nat.le_add_right _ _)
    · intro j hj hle
      rw [last_put hx] at hle
      split_ifs at hle with hxi
      · obtain ⟨-, rfl⟩ | ⟨hxi', -⟩ := put_eq_some_iff.mp hx
        · exact h.get?_eq j hj hle
        · omega
      · omega

/-- What is written to a suffix, item after item, can be written to one that keeps it, and is kept. -/
theorem Kept.putAll (h : Kept x y) (hx : x.putAll num l = some x') :
    ∃ y', y.putAll num l = some y' ∧ Kept x' y' := by
  induction l generalizing x y with
  | nil =>
    obtain rfl := Option.some.inj hx
    exact ⟨y, rfl, h⟩
  | cons a l ih =>
    obtain ⟨x₁, hx₁, hx'⟩ := Option.bind_eq_some_iff.mp hx
    obtain ⟨y₁, hy₁, h₁⟩ := h.put hx₁
    obtain ⟨y', hy', hk⟩ := ih h₁ hx'
    exact ⟨y', by rw [Suffix.putAll, hy₁, Option.bind_some, hy'], hk⟩

end Suffix

end Omashu.Lib
