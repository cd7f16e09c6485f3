import Mathlib.Data.Finset.Card
import Omashu.Lib.Run
import Omashu.Store.Scans

/-!
# Paging through a prefix

A caller pages through a prefix with `IterateByPrefix`: it starts with the empty cursor, and passes the
cursor that a call returns to the next call until it is empty. Between the calls the store changes, so each
call has a store and a clock of its own. `Paging` is the caller: the cursor, the state that `process` works
on, and what was passed to it so far.

Whatever changes between the calls, the keys that are passed increase, no call accepts more than the limit,
and the calls end after as many as there are keys, and one (`Inv`). A call that does not find a key that
begins with its cursor at the seek point, since that was deleted, passes nothing and returns the empty
cursor: the keys after it are never passed. `pages_complete_iff` says that this is the only way to miss a
key that is there all the time.
-/

namespace Omashu

open Lib

/-- A caller that pages through a prefix. -/
structure Paging (σ : Type*) where
  /-- The cursor of the next call. -/
  cursor : Key
  /-- The state that `process` works on. -/
  state : σ
  /-- The pairs that were passed to `process`. -/
  passed : List (Key × Bytes)
  /-- How many items each call accepted. -/
  pages : List ℕ
  /-- The last call returned the empty cursor. -/
  ended : Bool

namespace Paging

variable {σ : Type*}

/-- Before the first call. -/
def start (st : σ) : Paging σ := ⟨[], st, [], [], false⟩

/-- The caller after a call has returned. -/
def returned (s : Paging σ) (r : Iteration σ) : Paging σ :=
  ⟨r.nextCursor, r.state, s.passed ++ r.passed, s.pages ++ [r.iterNum], r.nextCursor = []⟩

/-- One call, at the store and the clock it finds. -/
def step (pre : Bytes) (limit : ℤ) (process : σ → Key → Bytes → Bool × σ) (s : Paging σ) (snap : Store × ℤ) :
    Option (Paging σ) :=
  if s.ended then none
  else some (s.returned (snap.1.iterateByPrefix pre (some limit) process ⟨snap.2, none⟩ s.cursor s.state))

/-- The items ahead of the iterator of the next call. -/
def ahead (pre : Bytes) (s : Paging σ) (snap : Store × ℤ) : List (Key × Bytes) :=
  seek Prod.fst (startBound pre s.cursor) (snap.1.view.items snap.2)

/-- The key is in the store, and begins with the prefix. -/
def Present (pre : Bytes) (snap : Store × ℤ) (k : Key) : Prop :=
  pre <+: k ∧ ∃ v, snap.1.view.lookup snap.2 k = some v

/-- What holds of the caller after any calls. -/
structure Inv (pre : Bytes) (limit : ℤ) (s : Paging σ) : Prop where
  /-- The keys were passed in increasing order. -/
  ordered : s.passed.Pairwise fun x y => x.1 < y.1
  /-- They are below the cursor. -/
  below : s.ended = false → ∀ x ∈ s.passed, x.1 < s.cursor
  /-- The cursor begins with the prefix. -/
  cursor : s.cursor = [] ∨ pre <+: s.cursor
  /-- No call accepted more than the limit. -/
  accepted : ∀ n ∈ s.pages, (n : ℤ) ≤ limit
  /-- Every call but the last one passed something. -/
  length : s.pages.length ≤ s.passed.length + if s.ended then 1 else 0

section

variable {pre : Bytes} {limit : ℤ} {process : σ → Key → Bytes → Bool × σ} {s t : Paging σ} {snap : Store × ℤ}

/-- The items that a call visits begin with the prefix, are not below the cursor, and are in the store. -/
theorem Inv.of_mem_visited (hs : s.Inv pre limit) {x : Key × Bytes}
    (hx : x ∈ visited pre (startBound pre s.cursor) (s.ahead pre snap)) :
    pre <+: x.1 ∧ s.cursor ≤ x.1 ∧ x ∈ snap.1.view.items snap.2 := by
  have hahead := (visited_sublist _ _ _).subset hx
  refine ⟨isPrefix_of_mem_visited (startsContained_of_isPrefix hs.cursor) hx,
    le_of_startBound_le (le_of_mem_seek hahead), (List.dropWhile_sublist _).subset hahead⟩

/-- The items that a call visits are in the order of their keys. -/
theorem visited_pairwise : (visited pre (startBound pre s.cursor) (s.ahead pre snap)).Pairwise fun x y => x.1 < y.1 :=
  BTxn.items_pairwise.sublist ((visited_sublist _ _ _).trans (List.dropWhile_sublist _))

/-- What a call does: it passes items from the first that it visits on, and ends with the last, or returns
the key of the next one. -/
theorem call_spec (hlimit : 1 ≤ limit) (h : step pre limit process s snap = some t) :
    s.ended = false ∧ ∃ (taken rest : List (Key × Bytes)) (n : ℕ),
      visited pre (startBound pre s.cursor) (s.ahead pre snap) = taken ++ rest ∧
      t.passed = s.passed ++ taken ∧ t.pages = s.pages ++ [n] ∧ (n : ℤ) ≤ limit ∧
      (rest = [] ∧ t.ended = true ∧ t.cursor = [] ∨
        ∃ x ∈ rest.head?, t.ended = false ∧ t.cursor = x.1 ∧ taken ≠ []) := by
  unfold step at h
  split_ifs at h with hended
  refine ⟨by simpa using hended, ?_⟩
  obtain ⟨r, hr⟩ : ∃ r, snap.1.iterateByPrefix pre (some limit) process ⟨snap.2, none⟩ s.cursor s.state = r := ⟨_, rfl⟩
  obtain ⟨rest, hvisited, hnum, hend⟩ := iterateByPrefix_spec hr
  have hle : (r.iterNum : ℤ) ≤ limit :=
    hr ▸ iterNum_iterateByPrefix_le (by omega) snap.1 ⟨snap.2, none⟩ s.cursor s.state
  rw [hr] at h
  obtain rfl := Option.some.inj h
  refine ⟨r.passed, rest, r.iterNum, hvisited, rfl, rfl, hle, ?_⟩
  cases hend with
  | exhausted hrest _ _ hcursor => exact .inl ⟨hrest, decide_eq_true hcursor, hcursor⟩
  | cancelled _ hpoll => exact absurd hpoll (by simp)
  | full x hx _ _ hcursor hreached =>
    -- At least one item was accepted, and its key is below the cursor.
    obtain ⟨l, hl, hreached⟩ := hreached
    obtain rfl := Option.some.inj hl
    have hne : r.passed ≠ [] := by
      intro hnil
      rw [hnil, List.length_nil] at hnum
      omega
    obtain ⟨y, hy⟩ := List.exists_mem_of_ne_nil _ hne
    have hpair : (r.passed ++ rest).Pairwise fun x y => x.1 < y.1 := hvisited ▸ visited_pairwise
    have hlt : y.1 < x.1 := (List.pairwise_append.mp hpair).2.2 y hy x (List.mem_of_mem_head? hx)
    refine .inr ⟨x, hx, ?_, hcursor, hne⟩
    have hcursor_ne : r.nextCursor ≠ [] := by
      rw [hcursor]
      intro hnil
      rw [hnil] at hlt
      exact List.not_lt_nil _ hlt
    exact decide_eq_false hcursor_ne

/-- Every call keeps the invariant. -/
theorem Inv.step (hs : s.Inv pre limit) (hlimit : 1 ≤ limit) (h : step pre limit process s snap = some t) :
    t.Inv pre limit := by
  obtain ⟨hended, taken, rest, n, hvisited, hpassed, hpages, hn, hend⟩ := call_spec hlimit h
  have hpair : (taken ++ rest).Pairwise fun x y => x.1 < y.1 := hvisited ▸ visited_pairwise
  obtain ⟨htaken, -, hrest⟩ := List.pairwise_append.mp hpair
  have hmem : ∀ x ∈ taken ++ rest, pre <+: x.1 ∧ s.cursor ≤ x.1 ∧ x ∈ snap.1.view.items snap.2 :=
    fun x hx => hs.of_mem_visited (hvisited ▸ hx)
  have hordered : t.passed.Pairwise fun x y => x.1 < y.1 := by
    rw [hpassed]
    refine List.pairwise_append.mpr ⟨hs.ordered, htaken, fun x hx y hy => ?_⟩
    exact Std.lt_of_lt_of_le (hs.below hended x hx) (hmem y (List.mem_append_left _ hy)).2.1
  have haccepted : ∀ m ∈ t.pages, (m : ℤ) ≤ limit := by
    rw [hpages]
    intro m hm
    rcases List.mem_append.mp hm with hm | hm
    · exact hs.accepted m hm
    · obtain rfl := List.mem_singleton.mp hm
      exact hn
  have hlength := hs.length
  rw [hended] at hlength
  rcases hend with ⟨-, htended, hcursor⟩ | ⟨x, hx, htended, hcursor, hne⟩
  · refine ⟨hordered, fun hfalse => ?_, .inl hcursor, haccepted, ?_⟩
    · rw [htended] at hfalse
      exact absurd hfalse (by simp)
    · rw [hpages, hpassed, htended, List.length_append, List.length_append]
      simp only [List.length_singleton, Bool.false_eq_true, if_true, if_false] at hlength ⊢
      omega
  · have hx := List.mem_of_mem_head? hx
    refine ⟨hordered, fun _ => ?_, .inr ?_, haccepted, ?_⟩
    · rw [hpassed, hcursor]
      intro y hy
      rcases List.mem_append.mp hy with hy | hy
      · exact Std.lt_of_lt_of_le (hs.below hended y hy) (hmem x (List.mem_append_right _ hx)).2.1
      · exact hrest y hy x hx
    · rw [hcursor]
      exact (hmem x (List.mem_append_right _ hx)).1
    · have hpos := List.length_pos_of_ne_nil hne
      rw [hpages, hpassed, htended, List.length_append, List.length_append]
      simp only [List.length_singleton, Bool.false_eq_true, if_false] at hlength ⊢
      omega

/-- The invariant holds before the first call. -/
theorem inv_start (st : σ) : (start st).Inv pre limit := by
  refine ⟨List.Pairwise.nil, fun _ x hx => absurd hx List.not_mem_nil, .inl rfl,
    fun n hn => absurd hn List.not_mem_nil, Nat.zero_le _⟩

/-- The invariant holds after any calls. -/
theorem Inv.run {snaps : List (Store × ℤ)} (hs : s.Inv pre limit) (hlimit : 1 ≤ limit)
    (h : run (Paging.step pre limit process) s snaps = some t) : t.Inv pre limit :=
  run_invariant h hs fun _ _ _ _ hu hstep => hu.step hlimit hstep

/-- There is one page for each call. -/
theorem length_pages {snaps : List (Store × ℤ)} (h : run (step pre limit process) s snaps = some t) :
    t.pages.length = s.pages.length + snaps.length := by
  induction snaps generalizing s with
  | nil =>
    obtain rfl : s = t := by simpa [run] using h
    rfl
  | cons snap snaps ih =>
    obtain ⟨u, hu, h⟩ := Option.bind_eq_some_iff.mp h
    have hpages : u.pages.length = s.pages.length + 1 := by
      unfold step at hu
      split_ifs at hu
      obtain rfl := Option.some.inj hu
      exact List.length_append
    rw [ih h, hpages, List.length_cons]
    omega

/-- Where the keys of all stores are in a finite set, so are those that were passed. -/
theorem passed_mem {snaps : List (Store × ℤ)} {K : Finset Key} (hlimit : 1 ≤ limit) (hs : s.Inv pre limit)
    (hpassed : ∀ x ∈ s.passed, x.1 ∈ K) (hK : ∀ snap ∈ snaps, ∀ k, Present pre snap k → k ∈ K)
    (h : run (step pre limit process) s snaps = some t) : ∀ x ∈ t.passed, x.1 ∈ K := by
  have hboth : t.Inv pre limit ∧ ∀ x ∈ t.passed, x.1 ∈ K := by
    refine run_invariant (I := fun u => u.Inv pre limit ∧ ∀ x ∈ u.passed, x.1 ∈ K) h ⟨hs, hpassed⟩ ?_
    rintro u snap v hsnap ⟨hu, hupassed⟩ hstep
    refine ⟨hu.step hlimit hstep, ?_⟩
    obtain ⟨-, taken, rest, n, hvisited, hvpassed, -⟩ := call_spec hlimit hstep
    rw [hvpassed]
    intro x hx
    rcases List.mem_append.mp hx with hx | hx
    · exact hupassed x hx
    · obtain ⟨hpre, -, hitem⟩ := hu.of_mem_visited (hvisited ▸ List.mem_append_left rest hx)
      exact hK snap hsnap x.1 ⟨hpre, x.2, BTxn.mem_items.mp hitem⟩
  exact hboth.2

/-! ## Keys that are there all the time -/

/-- The call finds a key that begins with its cursor at the seek point, or it has no key of `stable` left to
pass. -/
def Resumes (pre : Bytes) (stable : Key → Prop) (s : Paging σ) (snap : Store × ℤ) : Prop :=
  (∀ x ∈ (s.ahead pre snap).head?, startBound pre s.cursor <+: x.1) ∨ ∀ k, stable k → k < s.cursor

/-- The keys of `stable` below the cursor were passed, and all of them at the end. -/
def Complete (stable : Key → Prop) (s : Paging σ) : Prop :=
  ∀ k, stable k → k < s.cursor ∨ s.ended = true → k ∈ s.passed.map Prod.fst

/-- A call that finds a key that begins with its cursor visits all keys with the prefix from the cursor on. -/
theorem Inv.mem_visited (hs : s.Inv pre limit)
    (hfirst : ∀ x ∈ (s.ahead pre snap).head?, startBound pre s.cursor <+: x.1) {k : Key} (hk : Present pre snap k)
    (hcursor : s.cursor ≤ k) :
    k ∈ (visited pre (startBound pre s.cursor) (s.ahead pre snap)).map Prod.fst := by
  obtain ⟨hpre, v, hv⟩ := hk
  have hbound : startBound pre s.cursor ≤ k := by
    unfold startBound
    split_ifs
    · exact hpre.le
    · exact hcursor
  have hbegins : pre <+: startBound pre s.cursor := by
    unfold startBound
    split_ifs with hempty
    · exact List.prefix_rfl
    · exact hs.cursor.resolve_left hempty
  -- All of the block is visited, since its first item is.
  have hall : visited pre (startBound pre s.cursor) (s.ahead pre snap) = leading pre (s.ahead pre snap) := by
    cases hahead : s.ahead pre snap with
    | nil => rfl
    | cons x rest =>
      have hx : startBound pre s.cursor <+: x.1 := hfirst x (by rw [hahead]; rfl)
      rw [visited, if_pos hx, leading_cons_of_pos (hbegins.trans hx)]
  have hsorted : (s.ahead pre snap).Pairwise fun x y => x.1 < y.1 :=
    BTxn.items_pairwise.sublist (List.dropWhile_sublist _)
  have habove : ∀ x ∈ s.ahead pre snap, pre ≤ x.1 :=
    fun x hx => List.le_trans hbegins.le (le_of_mem_seek hx)
  have hitem : (k, v) ∈ s.ahead pre snap := by
    unfold ahead
    rw [seek_eq_filter BTxn.items_pairwise, List.mem_filter]
    exact ⟨BTxn.mem_items.mpr hv, by simpa using List.not_lt.mpr hbound⟩
  rw [hall, leading, takeWhile_eq_filter hsorted habove]
  exact List.mem_map.mpr ⟨(k, v), List.mem_filter.mpr ⟨hitem, by simpa using hpre⟩, rfl⟩

/-- A call that resumes at its cursor misses no key of `stable`. -/
theorem Complete.step {stable : Key → Prop} (hcomplete : s.Complete stable) (hs : s.Inv pre limit) (hlimit : 1 ≤ limit)
    (hstable : ∀ k, stable k → Present pre snap k) (hresumes : s.Resumes pre stable snap)
    (h : Paging.step pre limit process s snap = some t) : t.Complete stable := by
  obtain ⟨-, taken, rest, n, hvisited, hpassed, -, -, hend⟩ := call_spec hlimit h
  have hpair : (taken ++ rest).Pairwise fun x y => x.1 < y.1 := hvisited ▸ visited_pairwise
  intro k hk hlt
  rw [hpassed, List.map_append, List.mem_append]
  by_cases hcursor : k < s.cursor
  · exact .inl (hcomplete k hk (.inl hcursor))
  · -- The key is at the cursor or after it.
    rcases hresumes with hfirst | hnone
    · have hmem := hs.mem_visited hfirst (hstable k hk) (List.not_lt.mp hcursor)
      rw [hvisited, List.map_append, List.mem_append] at hmem
      refine .inr (hmem.resolve_right fun hrest => ?_)
      rcases hend with ⟨hnil, -⟩ | ⟨x, hx, htended, htcursor, -⟩
      · rw [hnil] at hrest
        exact absurd hrest List.not_mem_nil
      · -- The keys that are left are not below the new cursor.
        have hkx : k < x.1 := by
          rw [← htcursor]
          refine hlt.resolve_right fun hended => ?_
          rw [htended] at hended
          exact absurd hended (by simp)
        obtain ⟨y, hy, rfl⟩ := List.mem_map.mp hrest
        obtain ⟨rest', rfl⟩ := List.head?_eq_some_iff.mp hx
        rcases List.mem_cons.mp hy with rfl | hy
        · exact List.lt_irrefl _ hkx
        · have hxy := (List.pairwise_cons.mp (List.pairwise_append.mp hpair).2.1).1 y hy
          exact List.lt_irrefl _ (List.lt_trans hkx hxy)
    · exact absurd (hnone k hk) hcursor

/-- A call that does not resume at its cursor ends the calls and misses a key of `stable`. -/
theorem missed_of_not_resumes {stable : Key → Prop} (hs : s.Inv pre limit) (hlimit : 1 ≤ limit)
    (hresumes : ¬s.Resumes pre stable snap) (h : step pre limit process s snap = some t) :
    t.ended = true ∧ ∃ k, stable k ∧ k ∉ t.passed.map Prod.fst := by
  unfold Resumes at hresumes
  push Not at hresumes
  obtain ⟨⟨x, hx, hbound⟩, k, hk, hcursor⟩ := hresumes
  obtain ⟨hended, taken, rest, n, hvisited, hpassed, -, -, hend⟩ := call_spec hlimit h
  have hnil : visited pre (startBound pre s.cursor) (s.ahead pre snap) = [] := by
    obtain ⟨rest, hahead⟩ := List.head?_eq_some_iff.mp hx
    rw [hahead, visited, if_neg hbound]
  obtain ⟨rfl, rfl⟩ := List.append_eq_nil_iff.mp (hvisited.symm.trans hnil)
  rcases hend with ⟨-, htended, -⟩ | ⟨y, hy, -⟩
  · refine ⟨htended, k, hk, ?_⟩
    rw [hpassed, List.append_nil]
    intro hmem
    obtain ⟨y, hy, rfl⟩ := List.mem_map.mp hmem
    exact hcursor (hs.below hended y hy)
  · exact absurd hy (by simp)

/-- The calls miss no key of `stable` exactly if every one of them resumes at its cursor. -/
theorem complete_run_iff {stable : Key → Prop} {snaps : List (Store × ℤ)} (hlimit : 1 ≤ limit) (hs : s.Inv pre limit)
    (hcomplete : s.Complete stable) (hstable : ∀ snap ∈ snaps, ∀ k, stable k → Present pre snap k)
    (h : run (step pre limit process) s snaps = some t) (hended : t.ended = true) :
    (∀ k, stable k → k ∈ t.passed.map Prod.fst) ↔
      Along (step pre limit process) (Resumes pre stable) s snaps := by
  induction snaps generalizing s with
  | nil =>
    obtain rfl : s = t := by simpa [run] using h
    exact iff_of_true (fun k hk => hcomplete k hk (.inr hended)) trivial
  | cons snap snaps ih =>
    obtain ⟨u, hu, h⟩ := Option.bind_eq_some_iff.mp h
    obtain ⟨hsnap, hsnaps⟩ := List.forall_mem_cons.mp hstable
    rw [along_cons_iff hu]
    by_cases hresumes : s.Resumes pre stable snap
    · rw [ih (hs.step hlimit hu) (hcomplete.step hs hlimit hsnap hresumes hu) hsnaps h]
      exact (and_iff_right hresumes).symm
    · refine iff_of_false (fun hall => ?_) fun hboth => hresumes hboth.1
      obtain ⟨huended, k, hk, hmissed⟩ := missed_of_not_resumes hs hlimit hresumes hu
      -- The calls have ended here.
      have hlast : u = t := by
        cases snaps with
        | nil => simpa [run] using h
        | cons snap' snaps =>
          rw [run, step, if_pos huended] at h
          exact absurd h (by simp)
      exact hmissed (hlast ▸ hall k hk)

end

/-- The key is in the store of every call, and begins with the prefix. -/
def Stable (pre : Bytes) (snaps : List (Store × ℤ)) (k : Key) : Prop := pre <+: k ∧ ∀ snap ∈ snaps, Present pre snap k

/-- Paging through a prefix, over calls that each find a store of their own: the keys are passed to
`process` in increasing order, so none of them twice; no call accepts more than the limit; with a finite set
of keys there is at most one call more than keys, and that many calls end; and at the end every key with the
prefix that was there at each call has been passed, exactly if each call finds a key that begins with its
cursor at the seek point, or has no such key left. -/
theorem pages_complete_iff (pre : Bytes) {limit : ℤ} (hlimit : 1 ≤ limit) (process : σ → Key → Bytes → Bool × σ)
    (st : σ) {snaps : List (Store × ℤ)} {s : Paging σ}
    (hrun : run (step pre limit process) (start st) snaps = some s) :
    (s.passed.map Prod.fst).Pairwise (· < ·) ∧ (∀ n ∈ s.pages, (n : ℤ) ≤ limit) ∧
      (∀ K : Finset Key, (∀ snap ∈ snaps, ∀ k, Present pre snap k → k ∈ K) →
        snaps.length ≤ K.card + 1 ∧ (snaps.length = K.card + 1 → s.ended = true)) ∧
      (s.ended = true →
        ((∀ k, Stable pre snaps k → k ∈ s.passed.map Prod.fst) ↔
          Along (step pre limit process) (Resumes pre (Stable pre snaps)) (start st) snaps)) := by
  have hinv : s.Inv pre limit := (inv_start st).run hlimit hrun
  have hordered : (s.passed.map Prod.fst).Pairwise (· < ·) := List.pairwise_map.mpr hinv.ordered
  refine ⟨hordered, hinv.accepted, fun K hK => ?_, fun hended => ?_⟩
  · have hmem := passed_mem hlimit (inv_start st) (fun x hx => absurd hx List.not_mem_nil) hK hrun
    have hcard : s.passed.length ≤ K.card := by
      have hnodup : (s.passed.map Prod.fst).Nodup := by
        refine hordered.imp ?_
        rintro a b hlt rfl
        exact List.lt_irrefl a hlt
      rw [← List.length_map Prod.fst, ← List.toFinset_card_of_nodup hnodup]
      apply Finset.card_le_card
      intro k hk
      obtain ⟨x, hx, rfl⟩ := List.mem_map.mp (List.mem_toFinset.mp hk)
      exact hmem x hx
    have hpages : s.pages.length = 0 + snaps.length := length_pages hrun
    have hlength := hinv.length
    cases hended : s.ended with
    | true =>
      rw [hended, if_pos rfl] at hlength
      exact ⟨by omega, fun _ => rfl⟩
    | false =>
      rw [hended] at hlength
      simp only [Bool.false_eq_true, if_false] at hlength
      exact ⟨by omega, fun heq => by omega⟩
  · refine complete_run_iff hlimit (inv_start st) ?_ (fun snap hsnap k hk => hk.2 snap hsnap) hrun hended
    rintro k - (hlt | hfalse)
    · exact absurd hlt (List.not_lt_nil k)
    · exact absurd hfalse (by simp [start])

/-- A callback that counts the items, and accepts each of them. -/
def countAll (n : ℕ) (_ : Key) (_ : Bytes) : Bool × ℕ := (true, n + 1)

/-- A store with the keys `a1`, `a2` and `a3`. -/
def threeKeys : Store := [⟨[97, 49], 1, .value [1] 0⟩, ⟨[97, 50], 1, .value [2] 0⟩, ⟨[97, 51], 1, .value [3] 0⟩]

/-- The same after `a2` was deleted. -/
def twoLeft : Store := ⟨[97, 50], 2, .tombstone⟩ :: threeKeys

/-- `a2` is inserted after the first call has returned `a3` as its cursor: the two keys that were there are
passed. -/
theorem pages_complete_iff_inserted :
    ∃ s, run (step [97] 1 countAll) (start 0) [(twoLeft, 0), (threeKeys, 0)] = some s ∧ s.ended = true ∧
      (s.passed.map Prod.fst).Pairwise (· < ·) ∧
      ∀ k, Stable [97] [(twoLeft, 0), (threeKeys, 0)] k → k ∈ s.passed.map Prod.fst := by
  have hrun : ∃ s, run (step [97] 1 countAll) (start 0) [(twoLeft, 0), (threeKeys, 0)] = some s ∧ s.ended = true :=
    ⟨_, rfl, by decide +kernel⟩
  obtain ⟨s, hs, hended⟩ := hrun
  obtain ⟨hordered, -, -, hiff⟩ := pages_complete_iff [97] (by decide) countAll 0 hs
  refine ⟨s, hs, hended, hordered, (hiff hended).mpr ⟨.inl (by decide +kernel), fun u hu => ?_⟩⟩
  obtain rfl := Option.some.inj hu
  exact ⟨.inl (by decide +kernel), fun _ _ => trivial⟩

/-- `a2` is deleted after the first call has returned it as its cursor: the second call ends, and `a3` is
missed. -/
theorem pages_miss_key :
    ∃ s, run (step [97] 1 countAll) (start 0) [(threeKeys, 0), (twoLeft, 0)] = some s ∧ s.ended = true ∧
      s.passed = [([97, 49], [1])] ∧ Stable [97] [(threeKeys, 0), (twoLeft, 0)] [97, 51] ∧
      [97, 51] ∉ s.passed.map Prod.fst := by
  have hrun : ∃ s, run (step [97] 1 countAll) (start 0) [(threeKeys, 0), (twoLeft, 0)] = some s ∧ s.ended = true ∧
      s.passed = [([97, 49], [1])] := ⟨_, rfl, by decide +kernel, by decide +kernel⟩
  obtain ⟨s, hs, hended, hpassed⟩ := hrun
  refine ⟨s, hs, hended, hpassed, ⟨by decide, ?_⟩, by rw [hpassed]; decide⟩
  simp only [List.forall_mem_cons, List.not_mem_nil, false_implies, implies_true, and_true]
  exact ⟨⟨by decide, [3], by decide +kernel⟩, ⟨by decide, [3], by decide +kernel⟩⟩

end Paging

end Omashu
