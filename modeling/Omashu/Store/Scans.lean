import Omashu.Store.Reads

/-!
# Prefix scans

`Count`, `HasChild`, `GetKeysByPrefix`, `GetByPrefix` and `IterateByPrefix` of `badger.go` each open an
iterator in a read-only transaction, seek and walk. The iterator is the list of the items ahead of it, the
current one first: `Seek` drops the items below its argument, `ValidForPrefix` tests the first one, `Next`
drops it. `Count` and the two `Get` functions are one loop (`walk`), which polls the context in each turn.
`IterateByPrefix` has a loop of its own (`iterateLoop`): its bound is the start cursor in the first turn and
the prefix from then on, it stops at a limit, and what it does with an item is up to a callback, which is a
function on a state of the caller's.

Keys with a common prefix are one block in bytewise order, so with an uncancelled context all five see
exactly the keys with the prefix (`scans_exact`). With a start cursor the first item is only known to begin
with the cursor: `iterateByPrefix_contained_iff` says when the items stay within the prefix.
-/

namespace Omashu

open Lib

namespace BTxn

variable (txn : BTxn) (now : ℤ)

/-- The items that an iterator walks, in the bytewise order of the keys. -/
def items : List (Key × Bytes) := (txn.liveKeys now).map fun k => (k, (txn.lookup now k).getD [])

variable {txn now}

/-- The items are the pairs that the transaction finds. -/
theorem mem_items {k : Key} {v : Bytes} : (k, v) ∈ txn.items now ↔ txn.lookup now k = some v := by
  unfold items
  simp only [List.mem_map, mem_liveKeys, Option.isSome_iff_exists, Prod.mk.injEq]
  constructor
  · rintro ⟨k', ⟨v', hv'⟩, rfl, hv⟩
    rw [hv'] at hv ⊢
    exact congrArg some hv
  · intro hv
    exact ⟨k, ⟨v, hv⟩, rfl, by rw [hv]; rfl⟩

/-- The items are in the order of their keys. -/
theorem items_pairwise : (txn.items now).Pairwise fun x y => x.1 < y.1 :=
  List.pairwise_map.mpr (liveKeys_pairwise txn now)

end BTxn

/-- The loop of a scan over the items ahead: while the key begins with the prefix, it polls the context and
takes the item in. -/
def walk {σ : Type*} (pre : Bytes) (take : σ → Key × Bytes → σ) :
    Option ℕ → σ → List (Key × Bytes) → Except Err σ
  | _, s, [] => .ok s
  | polls, s, x :: ahead =>
    if pre <+: x.1 then
      if polls = some 0 then .error .ctxDone else walk pre take (polls.map Nat.pred) (take s x) ahead
    else .ok s

/-- The items at the front that begin with the prefix. -/
def leading (pre : Bytes) (ahead : List (Key × Bytes)) : List (Key × Bytes) := ahead.takeWhile fun x => pre <+: x.1

/-- An item at the front that begins with the prefix. -/
theorem leading_cons_of_pos {pre : Bytes} {x : Key × Bytes} (h : pre <+: x.1) (ahead : List (Key × Bytes)) :
    leading pre (x :: ahead) = x :: leading pre ahead :=
  List.takeWhile_cons_of_pos (by simpa using h)

/-- An item at the front that does not. -/
theorem leading_cons_of_neg {pre : Bytes} {x : Key × Bytes} (h : ¬pre <+: x.1) (ahead : List (Key × Bytes)) :
    leading pre (x :: ahead) = [] :=
  List.takeWhile_cons_of_neg (by simpa using h)

/-- What a scan takes in: the items that begin with the prefix, if the context lasts. -/
theorem walk_eq {σ : Type*} {pre : Bytes} {take : σ → Key × Bytes → σ} (polls : Option ℕ) (s : σ)
    (ahead : List (Key × Bytes)) :
    walk pre take polls s ahead =
      if ∀ n ∈ polls, (leading pre ahead).length ≤ n then .ok ((leading pre ahead).foldl take s)
      else .error .ctxDone := by
  induction ahead generalizing polls s with
  | nil => simp [walk, leading]
  | cons x ahead ih =>
    unfold walk
    by_cases hx : pre <+: x.1
    · rw [if_pos hx, leading_cons_of_pos hx, ih]
      cases polls with
      | none => simp
      | some n =>
        cases n with
        | zero => simp
        | succ n => simp
    · rw [if_neg hx, leading_cons_of_neg hx, if_pos (by simp)]
      rfl

/-- Appending the image of one item after the other. -/
theorem foldl_concat {α β : Type*} (f : α → β) (l : List α) (acc : List β) :
    l.foldl (fun acc x => acc ++ [f x]) acc = acc ++ l.map f := by
  induction l generalizing acc with
  | nil => simp
  | cons x l ih => simp [ih]

namespace BTxn

variable {txn : BTxn} {env : Env} {pre : Bytes}

/-- The keys that `scan` finds are those of the items that a loop takes in. -/
theorem scan_liveKeys_eq (txn : BTxn) (now : ℤ) (pre : Bytes) :
    scan pre (txn.liveKeys now) =
      (leading pre (seek Prod.fst pre (txn.items now))).map Prod.fst := by
  unfold scan leading seek items
  rw [List.dropWhile_map, List.takeWhile_map, List.map_map]
  exact (List.map_id _).symm

/-- `GetKeysByPrefixWithTxn` is the loop that collects the keys. -/
theorem getKeysByPrefixWithTxn_eq_walk :
    txn.getKeysByPrefixWithTxn env pre =
      walk pre (fun keys x => keys ++ [x.1]) env.doneAfter [] (seek Prod.fst pre (txn.items env.now)) := by
  rw [walk_eq, foldl_concat Prod.fst, getKeysByPrefixWithTxn, scan_liveKeys_eq]
  cases env.doneAfter with
  | none => simp
  | some n =>
    simp only [List.length_map, Option.mem_def, Option.some.injEq, forall_eq', List.nil_append]
    split_ifs with hlt hle hle
    · omega
    · rfl
    · rfl
    · omega

/-- `GetByPrefixWithTxn` is the loop that collects the pairs. -/
theorem getByPrefixWithTxn_eq_walk :
    txn.getByPrefixWithTxn env pre =
      walk pre (fun pairs x => pairs ++ [x]) env.doneAfter [] (seek Prod.fst pre (txn.items env.now)) := by
  have hpairs : ∀ l : List (Key × Bytes), (∀ x ∈ l, x ∈ txn.items env.now) →
      (l.map Prod.fst).filterMap (fun k => (txn.lookup env.now k).map (k, ·)) = l := by
    intro l hl
    induction l with
    | nil => rfl
    | cons x l ih =>
      obtain ⟨hx, hl⟩ := List.forall_mem_cons.mp hl
      rw [List.map_cons, List.filterMap_cons_some (b := x) (by rw [mem_items.mp hx]; rfl), ih hl]
  have htaken : ∀ x ∈ leading pre (seek Prod.fst pre (txn.items env.now)), x ∈ txn.items env.now := by
    intro x hx
    exact (List.dropWhile_sublist _).subset ((List.takeWhile_sublist _).subset hx)
  unfold getByPrefixWithTxn
  rw [getKeysByPrefixWithTxn_eq_walk, walk_eq, walk_eq, foldl_concat Prod.fst]
  split_ifs with hlasts
  · exact congrArg Except.ok ((hpairs _ htaken).trans (by simpa using (foldl_concat id _ []).symm))
  · rfl

end BTxn

namespace Store

/-- The transaction of `badger.DB.View`, which reads at the greatest timestamp. -/
def view (db : Store) : BTxn := BTxn.newTransactionAt db (2 ^ 64 - 1)

/-- `Badger.Count`: zero if the context is done. -/
def count (db : Store) (env : Env) (pre : Bytes) : ℕ :=
  match walk pre (fun n _ => n + 1) env.doneAfter 0 (seek Prod.fst pre (db.view.items env.now)) with
  | .ok n => n
  | .error _ => 0

/-- `Badger.HasChild`: the loop returns in its first turn, and does not poll the context. -/
def hasChild (db : Store) (now : ℤ) (pre : Bytes) : Bool :=
  match seek Prod.fst pre (db.view.items now) with
  | [] => false
  | x :: _ => pre <+: x.1

/-- `Badger.GetKeysByPrefix`. -/
def getKeysByPrefix (db : Store) (env : Env) (pre : Bytes) : Except Err (List Key) :=
  db.view.getKeysByPrefixWithTxn env pre

/-- `Badger.GetByPrefix`. -/
def getByPrefix (db : Store) (env : Env) (pre : Bytes) : Except Err (List (Key × Bytes)) :=
  db.view.getByPrefixWithTxn env pre

end Store

/-! ## `IterateByPrefix` -/

/-- The variables of `IterateByPrefix`, with the state of the caller that `process` works on and the pairs
that were passed to it. -/
structure Iteration (σ : Type*) where
  /-- How many items were accepted. -/
  iterNum : ℕ
  /-- The cursor to return. -/
  nextCursor : Key
  /-- The error to return. -/
  err : Option Err
  /-- The state that `process` works on. -/
  state : σ
  /-- The pairs that were passed to `process`. -/
  passed : List (Key × Bytes)

namespace Iteration

variable {σ : Type*}

/-- The item is passed to `process`, and counts if that returns true. -/
def pass (process : σ → Key → Bytes → Bool × σ) (s : Iteration σ) (x : Key × Bytes) : Iteration σ :=
  { s with
    iterNum := if (process s.state x.1 x.2).1 then s.iterNum + 1 else s.iterNum
    state := (process s.state x.1 x.2).2
    passed := s.passed ++ [x] }

/-- `limit != nil && iterNum >= *limit`. -/
def LimitReached (limit : Option ℤ) (s : Iteration σ) : Prop := ∃ l ∈ limit, l ≤ s.iterNum

instance (limit : Option ℤ) (s : Iteration σ) : Decidable (s.LimitReached limit) :=
  match limit with
  | none => isFalse (by simp [LimitReached])
  | some l => decidable_of_iff (l ≤ s.iterNum) (by simp [LimitReached])

end Iteration

section Iterate

variable {σ : Type*} (pre : Bytes) (limit : Option ℤ) (process : σ → Key → Bytes → Bool × σ)

/-- The loop of `IterateByPrefix` over the items ahead, at the bound that the next key has to begin with. -/
def iterateLoop : Bytes → Option ℕ → Iteration σ → List (Key × Bytes) → Iteration σ
  | _, _, s, [] => s
  | bound, polls, s, x :: ahead =>
    if bound <+: x.1 then
      if polls = some 0 then { s with err := some .ctxDone }
      else if s.LimitReached limit then { s with nextCursor := x.1 }
      -- From here on the bound is the prefix.
      else iterateLoop pre (polls.map Nat.pred) (s.pass process x) ahead
    else s

/-- The bound of the first turn, which is also where the iterator seeks. -/
def startBound (startCursor : Key) : Bytes := if startCursor = [] then pre else startCursor

/-- `Badger.IterateByPrefix`, with the state that `process` starts from. -/
def Store.iterateByPrefix (db : Store) (env : Env) (startCursor : Key) (st : σ) : Iteration σ :=
  let p := startBound pre startCursor
  let s := iterateLoop pre limit process p env.doneAfter ⟨0, [], none, st, []⟩
    (seek Prod.fst p (db.view.items env.now))
  match s.err with
  | some _ => { s with nextCursor := [] }
  | none => if ∃ l ∈ limit, (s.iterNum : ℤ) < l then { s with nextCursor := [] } else s

variable {pre limit process}

/-- What the loop visits if nothing stops it: the first item, if it begins with the bound, and then the
items that begin with the prefix. -/
def visited (pre bound : Bytes) : List (Key × Bytes) → List (Key × Bytes)
  | [] => []
  | x :: ahead => if bound <+: x.1 then x :: leading pre ahead else []

/-- Where the bound is the prefix, the items that begin with it are visited. -/
theorem visited_self (ahead : List (Key × Bytes)) : visited pre pre ahead = leading pre ahead := by
  cases ahead with
  | nil => rfl
  | cons x ahead =>
    rw [visited]
    split_ifs with hx
    · rw [leading_cons_of_pos hx]
    · rw [leading_cons_of_neg hx]

/-- How a loop ends that has passed the items `taken` and not the items `rest`: it has visited all, the
context was done, or the limit was reached. -/
inductive IterateEnd (limit : Option ℤ) (polls : Option ℕ) (s : Iteration σ) (taken rest : List (Key × Bytes))
    (r : Iteration σ) : Prop
  /-- All items were visited. -/
  | exhausted : rest = [] → (∀ n ∈ polls, taken.length ≤ n) → r.err = s.err → r.nextCursor = s.nextCursor →
    IterateEnd limit polls s taken rest r
  /-- The context was done. -/
  | cancelled : rest ≠ [] → polls = some taken.length → r.err = some .ctxDone → r.nextCursor = s.nextCursor →
    IterateEnd limit polls s taken rest r
  /-- The limit was reached. -/
  | full (x : Key × Bytes) : x ∈ rest.head? → (∀ n ∈ polls, taken.length < n) → r.err = s.err → r.nextCursor = x.1 →
    r.LimitReached limit → IterateEnd limit polls s taken rest r

variable (pre limit process) in
/-- The loop passes the first items that it visits, up to where it ends. -/
theorem iterateLoop_spec (bound : Bytes) (polls : Option ℕ) (s : Iteration σ) (ahead : List (Key × Bytes)) :
    ∃ taken rest, visited pre bound ahead = taken ++ rest ∧
      (iterateLoop pre limit process bound polls s ahead).passed = s.passed ++ taken ∧
      (iterateLoop pre limit process bound polls s ahead).iterNum ≤ s.iterNum + taken.length ∧
      IterateEnd limit polls s taken rest (iterateLoop pre limit process bound polls s ahead) := by
  induction ahead generalizing bound polls s with
  | nil =>
    exact ⟨[], [], rfl, (List.append_nil _).symm, le_rfl, .exhausted rfl (fun _ _ => Nat.zero_le _) rfl rfl⟩
  | cons x ahead ih =>
    rw [iterateLoop, visited]
    split_ifs with hbound hpolls hlimit
    · exact ⟨[], _, rfl, (List.append_nil _).symm, le_rfl, .cancelled (List.cons_ne_nil _ _) hpolls rfl rfl⟩
    · refine ⟨[], _, rfl, (List.append_nil _).symm, le_rfl, .full x rfl (fun n hn => ?_) rfl rfl hlimit⟩
      obtain rfl : polls = some n := hn
      exact Nat.pos_of_ne_zero fun hzero => hpolls (congrArg some hzero)
    · obtain ⟨taken, rest, hvisited, hpassed, hnum, hend⟩ := ih pre (polls.map Nat.pred) (s.pass process x)
      rw [visited_self] at hvisited
      refine ⟨x :: taken, rest, by rw [hvisited]; rfl, ?_, ?_, ?_⟩
      · rw [hpassed]
        exact List.append_assoc _ [x] taken
      · have hpass : (s.pass process x).iterNum ≤ s.iterNum + 1 := by
          unfold Iteration.pass
          dsimp only
          split_ifs
          · exact le_rfl
          · exact Nat.le_succ _
        rw [List.length_cons]
        omega
      · -- One more poll has been made before.
        cases hend with
        | exhausted hrest hpoll herr hcursor =>
          refine .exhausted hrest (fun n hn => ?_) herr hcursor
          have hle := hpoll (n - 1) (by rw [hn]; rfl)
          have hne : n ≠ 0 := fun hzero => hpolls (hn.trans (congrArg some hzero))
          rw [List.length_cons]
          omega
        | cancelled hrest hpoll herr hcursor =>
          refine .cancelled hrest ?_ herr hcursor
          obtain ⟨n, hn, hpred⟩ := Option.map_eq_some_iff.mp hpoll
          have hne : n ≠ 0 := fun hzero => hpolls (hn.trans (congrArg some hzero))
          rw [hn, List.length_cons, ← hpred]
          exact congrArg some (Nat.succ_pred hne).symm
        | full y hy hpoll herr hcursor hreached =>
          refine .full y hy (fun n hn => ?_) herr hcursor hreached
          have hlt := hpoll (n - 1) (by rw [hn]; rfl)
          rw [List.length_cons]
          omega
    · exact ⟨[], [], rfl, (List.append_nil _).symm, le_rfl, .exhausted rfl (fun _ _ => Nat.zero_le _) rfl rfl⟩

variable (pre process) in
/-- The loop does not accept more items than the limit. -/
theorem iterNum_iterateLoop_le {l : ℤ} (bound : Bytes) (polls : Option ℕ) (s : Iteration σ)
    (ahead : List (Key × Bytes)) (hs : (s.iterNum : ℤ) ≤ l) :
    ((iterateLoop pre (some l) process bound polls s ahead).iterNum : ℤ) ≤ l := by
  induction ahead generalizing bound polls s with
  | nil => exact hs
  | cons x ahead ih =>
    rw [iterateLoop]
    split_ifs with hbound hpolls hlimit
    · exact hs
    · exact hs
    · apply ih
      have hlt : (s.iterNum : ℤ) < l := not_le.mp fun hle => hlimit ⟨l, rfl, hle⟩
      unfold Iteration.pass
      dsimp only
      split_ifs
      · push_cast
        omega
      · exact hs
    · exact hs

/-- `IterateByPrefix` passes the first items that it visits, up to where it ends. -/
theorem iterateByPrefix_spec {db : Store} {env : Env} {startCursor : Key} {st : σ} {r : Iteration σ}
    (hr : db.iterateByPrefix pre limit process env startCursor st = r) :
    ∃ rest, visited pre (startBound pre startCursor)
        (seek Prod.fst (startBound pre startCursor) (db.view.items env.now)) = r.passed ++ rest ∧
      r.iterNum ≤ r.passed.length ∧
      IterateEnd limit env.doneAfter ⟨0, [], none, st, []⟩ r.passed rest r := by
  subst hr
  obtain ⟨taken, rest, hvisited, hpassed, hnum, hend⟩ :=
    iterateLoop_spec pre limit process (startBound pre startCursor) env.doneAfter
      ⟨0, [], none, st, []⟩ (seek Prod.fst (startBound pre startCursor) (db.view.items env.now))
  rw [List.nil_append] at hpassed
  rw [Nat.zero_add] at hnum
  subst hpassed
  refine ⟨rest, ?_⟩
  unfold Store.iterateByPrefix
  dsimp only
  generalize iterateLoop pre limit process (startBound pre startCursor) env.doneAfter
    ⟨0, [], none, st, []⟩ (seek Prod.fst (startBound pre startCursor) (db.view.items env.now)) = s at *
  cases hend with
  | exhausted hrest hpoll herr hcursor =>
    rw [herr]
    dsimp only
    split_ifs with hless
    · exact ⟨hvisited, hnum, .exhausted hrest hpoll rfl rfl⟩
    · exact ⟨hvisited, hnum, .exhausted hrest hpoll herr hcursor⟩
  | cancelled hrest hpoll herr hcursor =>
    rw [herr]
    exact ⟨hvisited, hnum, .cancelled hrest hpoll rfl rfl⟩
  | full x hx hpoll herr hcursor hreached =>
    -- The test after the loop does not reset the cursor, since the limit was reached.
    rw [herr]
    dsimp only
    obtain ⟨l, hl, hle⟩ := hreached
    rw [if_neg]
    · exact ⟨hvisited, hnum, .full x hx hpoll herr hcursor ⟨l, hl, hle⟩⟩
    · rintro ⟨l', hl', hlt⟩
      obtain rfl := Option.some.inj (hl.symm.trans hl')
      omega

/-- The state is what the calls of `process` on the pairs have made of the one before, one after the other. -/
def Iteration.Called (process : σ → Key → Bytes → Bool × σ) (st : σ) (s : Iteration σ) : Prop :=
  s.state = s.passed.foldl (fun st x => (process st x.1 x.2).2) st

/-- One more call. -/
theorem Iteration.Called.pass {st : σ} {s : Iteration σ} (h : s.Called process st) (x : Key × Bytes) :
    (s.pass process x).Called process st := by
  show (process s.state x.1 x.2).2 = (s.passed ++ [x]).foldl _ st
  rw [List.foldl_append, h]
  rfl

/-- All calls of the loop. -/
theorem called_iterateLoop {st : σ} (bound : Bytes) (polls : Option ℕ) {s : Iteration σ} (h : s.Called process st)
    (ahead : List (Key × Bytes)) : (iterateLoop pre limit process bound polls s ahead).Called process st := by
  induction ahead generalizing bound polls s with
  | nil => exact h
  | cons x ahead ih =>
    rw [iterateLoop]
    split_ifs
    · exact h
    · exact h
    · exact ih _ _ (h.pass x)
    · exact h

/-- The state after `IterateByPrefix` is what the calls of `process` have made of the one that they started from. -/
theorem called_iterateByPrefix (db : Store) (env : Env) (startCursor : Key) (st : σ) :
    (db.iterateByPrefix pre limit process env startCursor st).Called process st := by
  have hstart : (⟨0, [], none, st, []⟩ : Iteration σ).Called process st := rfl
  have hloop : (iterateLoop pre limit process (startBound pre startCursor) env.doneAfter ⟨0, [], none, st, []⟩
      (seek Prod.fst (startBound pre startCursor) (db.view.items env.now))).Called process st :=
    called_iterateLoop _ _ hstart _
  unfold Store.iterateByPrefix
  dsimp only
  split
  · exact hloop
  · split_ifs
    · exact hloop
    · exact hloop

/-- The number of accepted items is at most the limit. -/
theorem iterNum_iterateByPrefix_le {l : ℤ} (hl : 0 ≤ l) (db : Store) (env : Env) (startCursor : Key) (st : σ) :
    ((db.iterateByPrefix pre (some l) process env startCursor st).iterNum : ℤ) ≤ l := by
  have hloop := iterNum_iterateLoop_le pre process (startBound pre startCursor) env.doneAfter
    ⟨0, [], none, st, []⟩ (seek Prod.fst (startBound pre startCursor) (db.view.items env.now)) hl
  unfold Store.iterateByPrefix
  dsimp only
  split
  · exact hloop
  · split_ifs
    · exact hloop
    · exact hloop

end Iterate

/-! ## Exactly the prefix -/

/-- The items that a scan of the prefix finds are those whose key begins with it. -/
theorem leading_seek_eq (txn : BTxn) (now : ℤ) (pre : Bytes) :
    leading pre (seek Prod.fst pre (txn.items now)) = (txn.items now).filter fun x => pre <+: x.1 :=
  takeWhile_seek_eq_filter BTxn.items_pairwise

/-- All prefix scans see exactly the prefix: on any store, with a context that is not done, there is one
list of pairs, in the order of the keys, of all keys that are visible and begin with the prefix;
`GetKeysByPrefix` returns its keys, `GetByPrefix` its pairs, `Count` its length, `HasChild` whether it has
an element, and `IterateByPrefix` without a cursor and a limit calls any `process` on its pairs, one after the
other. -/
theorem Store.scans_exact (db : Store) (now : ℤ) (pre : Bytes) :
    ∃ pairs : List (Key × Bytes), pairs.Pairwise (fun x y => x.1 < y.1) ∧
      (∀ k v, (k, v) ∈ pairs ↔ pre <+: k ∧ db.view.lookup now k = some v) ∧
      db.getKeysByPrefix ⟨now, none⟩ pre = .ok (pairs.map Prod.fst) ∧
      db.getByPrefix ⟨now, none⟩ pre = .ok pairs ∧
      db.count ⟨now, none⟩ pre = pairs.length ∧
      (db.hasChild now pre = true ↔ ∃ k v, pre <+: k ∧ db.view.lookup now k = some v) ∧
      ∀ (σ : Type*) (process : σ → Key → Bytes → Bool × σ) (st : σ),
        (db.iterateByPrefix pre none process ⟨now, none⟩ [] st).passed = pairs ∧
        (db.iterateByPrefix pre none process ⟨now, none⟩ [] st).state =
          pairs.foldl (fun st x => (process st x.1 x.2).2) st ∧
        (db.iterateByPrefix pre none process ⟨now, none⟩ [] st).err = none ∧
        (db.iterateByPrefix pre none process ⟨now, none⟩ [] st).nextCursor = [] := by
  have hmem : ∀ k v, (k, v) ∈ leading pre (seek Prod.fst pre (db.view.items now)) ↔
      pre <+: k ∧ db.view.lookup now k = some v := by
    intro k v
    rw [leading_seek_eq, List.mem_filter, BTxn.mem_items, and_comm, decide_eq_true_iff]
  refine ⟨leading pre (seek Prod.fst pre (db.view.items now)), ?_, hmem, ?_, ?_, ?_, ?_, ?_⟩
  · rw [leading_seek_eq]
    exact BTxn.items_pairwise.filter _
  · rw [getKeysByPrefix, BTxn.getKeysByPrefixWithTxn_eq_walk, walk_eq, foldl_concat Prod.fst, if_pos (by simp)]
    rfl
  · rw [getByPrefix, BTxn.getByPrefixWithTxn_eq_walk, walk_eq, if_pos (by simp)]
    exact congrArg Except.ok (by simpa using foldl_concat id _ [])
  · have hlength : ∀ (l : List (Key × Bytes)) (n : ℕ), l.foldl (fun n _ => n + 1) n = n + l.length := by
      intro l
      induction l with
      | nil => simp
      | cons x l ih =>
        intro n
        rw [List.foldl_cons, ih, List.length_cons]
        omega
    rw [count, walk_eq, if_pos (by simp), hlength]
    exact Nat.zero_add _
  · constructor
    · intro h
      unfold hasChild at h
      cases hseek : seek Prod.fst pre (db.view.items now) with
      | nil => simp [hseek] at h
      | cons x ahead =>
        have hx : pre <+: x.1 := by simpa [hseek] using h
        refine ⟨x.1, x.2, (hmem x.1 x.2).mp ?_⟩
        rw [hseek, leading_cons_of_pos hx]
        exact List.mem_cons_self
    · rintro ⟨k, v, hkv⟩
      have hkv := (hmem k v).mpr hkv
      unfold hasChild
      cases hseek : seek Prod.fst pre (db.view.items now) with
      | nil =>
        rw [hseek] at hkv
        exact absurd hkv List.not_mem_nil
      | cons x ahead =>
        by_contra hx
        rw [hseek, leading_cons_of_neg (by simpa using hx)] at hkv
        exact absurd hkv List.not_mem_nil
  · intro σ process st
    obtain ⟨rest, hvisited, -, hend⟩ :=
      iterateByPrefix_spec (rfl : db.iterateByPrefix pre none process ⟨now, none⟩ [] st = _)
    rw [show startBound pre [] = pre from if_pos rfl, visited_self] at hvisited
    -- There is no limit to reach and no context to be done.
    cases hend with
    | exhausted hrest _ herr hcursor =>
      rw [hrest, List.append_nil] at hvisited
      refine ⟨hvisited.symm, ?_, herr, hcursor⟩
      rw [hvisited]
      exact called_iterateByPrefix db ⟨now, none⟩ [] st
    | cancelled _ hpoll => exact absurd hpoll (by simp)
    | full x _ _ _ _ hreached =>
      obtain ⟨l, hl, -⟩ := hreached
      exact absurd hl (by simp)

/-! ## Within the prefix -/

section Contained

variable {σ : Type*} {pre : Bytes} {limit : Option ℤ} {process : σ → Key → Bytes → Bool × σ} {db : Store} {env : Env}
  {startCursor : Key} {st : σ}

/-- All keys that are passed to `process`, and the cursor if there is one, begin with the prefix and are not
below the start cursor. -/
def Iteration.Contained (pre : Bytes) (startCursor : Key) (r : Iteration σ) : Prop :=
  (∀ x ∈ r.passed, pre <+: x.1 ∧ startCursor ≤ x.1) ∧
    (r.nextCursor ≠ [] → pre <+: r.nextCursor ∧ startCursor ≤ r.nextCursor)

/-- The key at the seek point, if it begins with the bound of the first turn, begins with the prefix. -/
def Store.StartsContained (db : Store) (now : ℤ) (pre : Bytes) (startCursor : Key) : Prop :=
  ∀ x ∈ (seek Prod.fst (startBound pre startCursor) (db.view.items now)).head?,
    startBound pre startCursor <+: x.1 → pre <+: x.1

/-- Items at a seek point are not below it. -/
theorem le_of_mem_seek {txn : BTxn} {now : ℤ} {p : Bytes} {x : Key × Bytes}
    (h : x ∈ seek Prod.fst p (txn.items now)) : p ≤ x.1 := by
  rw [seek_eq_filter BTxn.items_pairwise, List.mem_filter] at h
  exact List.not_lt.mp (by simpa using h.2)

/-- The bound of the first turn is not below the start cursor. -/
theorem le_of_startBound_le {k : Key} (h : startBound pre startCursor ≤ k) : startCursor ≤ k := by
  unfold startBound at h
  split_ifs at h with hempty
  · rw [hempty]
    exact List.nil_le _
  · exact h

/-- What is visited begins with the prefix, if the first item does. -/
theorem isPrefix_of_mem_visited {bound : Bytes} {ahead : List (Key × Bytes)} {x : Key × Bytes}
    (hfirst : ∀ y ∈ ahead.head?, bound <+: y.1 → pre <+: y.1) (h : x ∈ visited pre bound ahead) : pre <+: x.1 := by
  cases ahead with
  | nil => exact absurd h List.not_mem_nil
  | cons y ahead =>
    rw [visited] at h
    split_ifs at h with hbound
    · rcases List.mem_cons.mp h with rfl | h
      · exact hfirst _ rfl hbound
      · simpa using List.mem_takeWhile_imp h
    · exact absurd h List.not_mem_nil

/-- What is visited is ahead of the iterator, in its order. -/
theorem visited_sublist (pre bound : Bytes) (ahead : List (Key × Bytes)) :
    List.Sublist (visited pre bound ahead) ahead := by
  cases ahead with
  | nil => exact List.Sublist.refl _
  | cons y ahead =>
    rw [visited]
    split_ifs with hbound
    · exact (List.takeWhile_sublist _).cons_cons y
    · exact List.nil_sublist _

/-- Where the first item begins with the prefix, the scan stays within it. -/
theorem contained_of_startsContained (h : db.StartsContained env.now pre startCursor) :
    (db.iterateByPrefix pre limit process env startCursor st).Contained pre startCursor := by
  obtain ⟨rest, hvisited, -, hend⟩ :=
    iterateByPrefix_spec (rfl : db.iterateByPrefix pre limit process env startCursor st = _)
  have hkey : ∀ x ∈ (db.iterateByPrefix pre limit process env startCursor st).passed ++ rest,
      pre <+: x.1 ∧ startCursor ≤ x.1 := by
    intro x hx
    rw [← hvisited] at hx
    exact ⟨isPrefix_of_mem_visited h hx, le_of_startBound_le (le_of_mem_seek ((visited_sublist _ _ _).subset hx))⟩
  refine ⟨fun x hx => hkey x (List.mem_append_left _ hx), fun hne => ?_⟩
  cases hend with
  | exhausted _ _ _ hcursor | cancelled _ _ _ hcursor => exact absurd hcursor hne
  | full x hx _ _ hcursor _ =>
    rw [hcursor]
    exact hkey x (List.mem_append_right _ (List.mem_of_mem_head? hx))

/-- A scan of any store, with any start cursor and limit, stays within its prefix and does not go below the
start cursor, exactly if its context is done before the first item, or the first item that begins with the
start cursor begins with the prefix. -/
theorem Store.iterateByPrefix_contained_iff (db : Store) (env : Env) (pre : Bytes) (startCursor : Key)
    (limit : Option ℤ) (process : σ → Key → Bytes → Bool × σ) (st : σ) :
    (db.iterateByPrefix pre limit process env startCursor st).Contained pre startCursor ↔
      env.doneAfter = some 0 ∨ db.StartsContained env.now pre startCursor := by
  obtain ⟨rest, hvisited, -, hend⟩ :=
    iterateByPrefix_spec (rfl : db.iterateByPrefix pre limit process env startCursor st = _)
  constructor
  · rintro ⟨hpassed, hcursor⟩
    by_cases hdone : env.doneAfter = some 0
    · exact .inl hdone
    refine .inr fun x hx hbound => ?_
    -- The first item is passed to `process`, or it is the cursor.
    obtain ⟨ahead, hahead⟩ : ∃ ahead, seek Prod.fst (startBound pre startCursor) (db.view.items env.now) = x :: ahead :=
      List.head?_eq_some_iff.mp hx
    rw [hahead, visited, if_pos hbound] at hvisited
    cases hlist : (db.iterateByPrefix pre limit process env startCursor st).passed with
    | cons y taken =>
      rw [hlist] at hvisited hpassed
      obtain rfl : x = y := (List.cons.inj hvisited).1
      exact (hpassed x List.mem_cons_self).1
    | nil =>
      rw [hlist, List.nil_append] at hvisited
      rw [hlist] at hend
      cases hend with
      | exhausted hrest => exact absurd (hvisited.trans hrest) (List.cons_ne_nil _ _)
      | cancelled _ hpoll => exact absurd hpoll hdone
      | full y hy _ _ hnext _ =>
        rw [← hvisited] at hy
        obtain rfl : x = y := Option.some.inj hy
        by_cases hempty : x.1 = []
        · -- Only the empty bound begins the empty key, so the prefix is empty too.
          rw [hempty, List.prefix_nil, startBound] at hbound
          split_ifs at hbound with hstart
          · rw [hbound]
            exact List.nil_prefix
          · exact absurd hbound hstart
        · rw [← hnext] at hempty ⊢
          exact (hcursor hempty).1
  · rintro (hdone | hstarts)
    · -- Nothing is passed, and there is no cursor.
      have hnone : (db.iterateByPrefix pre limit process env startCursor st).passed = [] ∧
          (db.iterateByPrefix pre limit process env startCursor st).nextCursor = [] := by
        cases hend with
        | exhausted _ hpoll _ hnext => exact ⟨List.length_eq_zero_iff.mp (Nat.le_zero.mp (hpoll 0 hdone)), hnext⟩
        | cancelled _ hpoll _ hnext =>
          exact ⟨List.length_eq_zero_iff.mp (Option.some.inj (hpoll.symm.trans hdone)), hnext⟩
        | full _ _ hpoll => exact absurd (hpoll 0 hdone) (Nat.not_lt_zero _)
      refine ⟨fun x hx => ?_, fun hne => absurd hnone.2 hne⟩
      rw [hnone.1] at hx
      exact absurd hx List.not_mem_nil
    · exact contained_of_startsContained hstarts

/-- Without a start cursor, or with one that begins with the prefix, the first item begins with the prefix. -/
theorem startsContained_of_isPrefix {now : ℤ} (h : startCursor = [] ∨ pre <+: startCursor) :
    db.StartsContained now pre startCursor := by
  intro x _ hbound
  unfold startBound at hbound
  split_ifs at hbound with hempty
  · exact hbound
  · exact (h.resolve_left hempty).trans hbound

/-- A scan of the prefix `a` that starts at the cursor `b` passes the key `b1`. -/
theorem iterateByPrefix_leaves_prefix :
    (Store.iterateByPrefix [97] none (fun (n : ℕ) _ _ => (true, n + 1))
        [⟨[97, 49], 1, .value [1] 0⟩, ⟨[98, 49], 2, .value [2] 0⟩] ⟨0, none⟩ [98] 0).passed = [([98, 49], [2])] ∧
      ¬(Store.iterateByPrefix [97] none (fun (n : ℕ) _ _ => (true, n + 1))
        [⟨[97, 49], 1, .value [1] 0⟩, ⟨[98, 49], 2, .value [2] 0⟩] ⟨0, none⟩ [98] 0).Contained [97] [98] := by
  have hpassed : (Store.iterateByPrefix [97] none (fun (n : ℕ) _ _ => (true, n + 1))
      [⟨[97, 49], 1, .value [1] 0⟩, ⟨[98, 49], 2, .value [2] 0⟩] ⟨0, none⟩ [98] 0).passed = [([98, 49], [2])] := by
    decide +kernel
  refine ⟨hpassed, fun hcontained => ?_⟩
  have hkey := hcontained.1 ([98, 49], [2]) (by rw [hpassed]; exact List.mem_cons_self)
  exact absurd hkey.1 (by decide)

end Contained

end Omashu
