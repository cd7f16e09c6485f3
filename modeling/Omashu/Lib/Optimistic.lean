import Mathlib.Logic.Function.Basic
import Mathlib.Data.List.Infix
import Omashu.Lib.Run
import Omashu.Lib.Versions

/-!
# Optimistic transactions

The script of a transaction reads and writes keys one by one, where what it does next depends on what it has read, and
returns a result or an error in the end (`Script`). Several parties run such scripts on one multi-version store, their
operations in any order (`Occ.step`). A script reads the store as it was when it began, and its own writes over it. At
the end the keys it has read are checked against the commits since then: where one of these has written one of them, the
transaction is given up; otherwise its writes are installed, all at once, at the next timestamp. The check can be
switched off.

`Occ.Sound.serial` says what it gives where it is on. After any run the store is what the committed scripts make of it
when they are run alone, one after the other in the order of their commits, and each has the same result as in the run.
`Occ.Sound.placed` is about the scripts that have written nothing or have failed: they have the result that they have
if run alone after the commits they have seen.

The argument is `Script.exec_congr`: a script depends on the keys it reads only. If none of them has been written since
it began, then it does the same on the store that it commits to.
-/

namespace Omashu.Lib

/-- What a transaction does: it reads and writes keys, and returns a result or an error. -/
inductive Script (κ ν ε α : Type*)
  /-- The end. -/
  | done (r : Except ε α)
  /-- Reads a key; what follows depends on what it finds. -/
  | read (k : κ) (next : Option ν → Script κ ν ε α)
  /-- Writes a key. -/
  | write (k : κ) (v : ν) (next : Script κ ν ε α)

/-- A multi-version store with the timestamp of its last commit. -/
structure Mvcc (κ ν : Type*) where
  versions : List (Version κ ν)
  /-- The timestamp of the last commit. -/
  ts : ℕ

variable {κ ν ε α : Type*} [DecidableEq κ]

/-- What a body finds under a key: its own latest write, or what it sees of the store. -/
def seen (view : κ → Option ν) (ws : List (κ × ν)) (k : κ) : Option ν := (Versions.latest ws k).or (view k)

/-- One of the commits above a timestamp has written a key with the fingerprint of one that was read. -/
def Conflicts {φ : Type*} (fp : κ → φ) (committed : List (ℕ × List φ)) (readTs : ℕ) (reads : List κ) : Prop :=
  ∃ c ∈ committed, readTs < c.1 ∧ ∃ k ∈ reads, fp k ∈ c.2

instance {φ : Type*} [DecidableEq φ] (fp : κ → φ) (committed : List (ℕ × List φ)) (readTs : ℕ) (reads : List κ) :
    Decidable (Conflicts fp committed readTs reads) := inferInstanceAs (Decidable (∃ c ∈ committed, _))

omit [DecidableEq κ] in
/-- It does not matter in what order keys were read. -/
theorem conflicts_congr {φ : Type*} {fp : κ → φ} {committed : List (ℕ × List φ)} {readTs : ℕ} {reads reads' : List κ}
    (h : ∀ k, k ∈ reads ↔ k ∈ reads') : Conflicts fp committed readTs reads ↔ Conflicts fp committed readTs reads' := by
  simp only [Conflicts, h]

namespace Script

/-- Runs a body to its end. The writes are returned with the latest first. -/
def exec (view : κ → Option ν) : Script κ ν ε α → List (κ × ν) → Except ε (α × List (κ × ν))
  | done r, ws => r.map fun a => (a, ws)
  | read k next, ws => exec view (next (seen view ws k)) ws
  | write k v next, ws => exec view next ((k, v) :: ws)

/-- The keys that a body reads from the store, and not from its own writes. -/
def reads (view : κ → Option ν) : Script κ ν ε α → List (κ × ν) → List κ
  | done _, _ => []
  | read k next, ws =>
    (if (Versions.latest ws k).isNone then [k] else []) ++ reads view (next (seen view ws k)) ws
  | write k v next, ws => reads view next ((k, v) :: ws)

/-- The result of a body that is at its end. -/
def result? : Script κ ν ε α → Option (Except ε α)
  | done r => some r
  | _ => none

omit [DecidableEq κ] in
/-- A body that has a result is at its end. -/
theorem eq_done_of_result? {b : Script κ ν ε α} {r : Except ε α} (h : b.result? = some r) : b = .done r := by
  cases b with
  | done r' => rw [Option.some.inj h]
  | read | write => cases h

/-- A body depends on what it sees of the keys that it reads, and on nothing else of the store. -/
theorem exec_congr {view view' : κ → Option ν} {b : Script κ ν ε α} {ws : List (κ × ν)}
    (h : ∀ k ∈ b.reads view ws, view k = view' k) : b.exec view ws = b.exec view' ws := by
  induction b generalizing ws with
  | done r => rfl
  | read k next ih =>
    have hseen : seen view ws k = seen view' ws k := by
      unfold seen
      cases hlatest : Versions.latest ws k with
      | some v => rfl
      | none =>
        refine h k (List.mem_append_left _ ?_)
        rw [hlatest]
        exact List.mem_singleton_self k
    show exec view (next (seen view ws k)) ws = exec view' (next (seen view' ws k)) ws
    rw [← hseen]
    exact ih _ fun k' hk' => h k' (List.mem_append_right _ hk')
  | write k v next ih => exact ih h

end Script

namespace Mvcc

variable {m : Mvcc κ ν} {r : ℕ} {ws : List (κ × ν)}

/-- What a read at a timestamp finds. -/
def view (m : Mvcc κ ν) (r : ℕ) (k : κ) : Option ν := (Versions.newest m.versions k r).map Version.val

/-- Installs the writes at the next timestamp. -/
def commit (m : Mvcc κ ν) (ws : List (κ × ν)) : Mvcc κ ν := ⟨Versions.install m.versions (m.ts + 1) ws, m.ts + 1⟩

/-- One body, with nothing else going on. A body that has written nothing commits nothing. -/
def alone (m : Mvcc κ ν) (b : Script κ ν ε α) : Mvcc κ ν × Except ε α :=
  match b.exec (m.view m.ts) [] with
  | .ok (r, ws) => (if ws.isEmpty then m else m.commit ws, .ok r)
  | .error e => (m, .error e)

/-- Several bodies, one after the other. -/
def serial (m : Mvcc κ ν) : List (Script κ ν ε α) → Mvcc κ ν × List (Except ε α)
  | [] => (m, [])
  | b :: bs => (((m.alone b).1.serial bs).1, (m.alone b).2 :: ((m.alone b).1.serial bs).2)

/-- One more body at the end. -/
theorem serial_concat (m : Mvcc κ ν) (bs : List (Script κ ν ε α)) (b : Script κ ν ε α) :
    m.serial (bs ++ [b]) =
      (((m.serial bs).1.alone b).1, (m.serial bs).2 ++ [((m.serial bs).1.alone b).2]) := by
  induction bs generalizing m with
  | nil => rfl
  | cons b' bs ih =>
    show (((m.alone b').1.serial (bs ++ [b])).1, (m.alone b').2 :: ((m.alone b').1.serial (bs ++ [b])).2) = _
    rw [ih]
    rfl

/-- A commit is above what can be read before it. -/
theorem view_commit (h : r ≤ m.ts) : (m.commit ws).view r = m.view r := by
  funext k
  exact congrArg (Option.map Version.val) (Versions.newest_congr (Versions.visible_install_of_lt (Nat.lt_succ_of_le h)))

/-- A key without versions above a timestamp is read at it as it is read later. -/
theorem view_eq_of_gap {k : κ} {r' : ℕ} (hle : r ≤ r') (h : ∀ x ∈ m.versions, x.key = k → x.ts ≤ r' → x.ts ≤ r) :
    m.view r k = m.view r' k :=
  congrArg (Option.map Version.val) (Versions.newest_congr (Versions.visible_eq_of_gap hle h).symm)

end Mvcc

/-! ## The parties -/

/-- A body under way. -/
structure Attempt (κ ν ε α : Type*) where
  /-- The whole body. -/
  body : Script κ ν ε α
  /-- The timestamp it reads at. -/
  readTs : ℕ
  /-- Its writes, the latest first. -/
  pending : List (κ × ν)
  /-- The keys it has read from the store. -/
  reads : List κ
  /-- What is left of the body. -/
  rest : Script κ ν ε α

/-- How a transaction ends. -/
inductive Outcome (ε α : Type*)
  /-- Its writes are installed. -/
  | committed (r : α)
  /-- It has not written anything. -/
  | readOnly (r : α)
  /-- The body has returned an error. -/
  | failed (e : ε)
  /-- A commit since it began has written what it has read. -/
  | conflict

/-- A transaction that has ended. -/
structure Finished (κ ν ε α : Type*) where
  body : Script κ ν ε α
  /-- The timestamp it read at. -/
  readTs : ℕ
  /-- How it ended. -/
  outcome : Outcome ε α

/-- The store, and the parties that run transactions on it. -/
structure Occ (ι φ κ ν ε α : Type*) where
  store : Mvcc κ ν
  /-- The commits: their timestamps and the fingerprints of the keys they wrote. -/
  committed : List (ℕ × List φ)
  /-- The transaction that each party is in. -/
  call : ι → Option (Attempt κ ν ε α)
  /-- The transactions that have ended, in this order. -/
  finished : List (Finished κ ν ε α)

/-- What can happen next. -/
inductive OccAction (ι κ ν ε α : Type*)
  /-- A party begins a transaction. -/
  | start (i : ι) (b : Script κ ν ε α)
  /-- The next read or write of a transaction. -/
  | advance (i : ι)
  /-- A body has returned, and its transaction ends. -/
  | finish (i : ι)

/-- The next read or write of a body, on what it sees of the store. -/
def Attempt.advance (a : Attempt κ ν ε α) (view : κ → Option ν) : Option (Attempt κ ν ε α) :=
  match a.rest with
  | .done _ => none
  | .read k next =>
    some { a with
      reads := a.reads ++ if (Versions.latest a.pending k).isNone then [k] else []
      rest := next (seen view a.pending k) }
  | .write k v next => some { a with pending := (k, v) :: a.pending, rest := next }

/-- The body that has committed, with its result. -/
def Finished.commit? (f : Finished κ ν ε α) : Option (Script κ ν ε α × α) :=
  match f.outcome with
  | .committed r => some (f.body, r)
  | _ => none

/-- What the body has returned, if it has failed or has not written anything. -/
def Outcome.unwritten : Outcome ε α → Option (Except ε α)
  | .readOnly r => some (.ok r)
  | .failed e => some (.error e)
  | .committed _ => none
  | .conflict => none

namespace Occ

variable {ι φ : Type*} [DecidableEq ι] [DecidableEq φ] {fp : κ → φ}

/-- The parties before they have begun anything. -/
def init (m : Mvcc κ ν) : Occ ι φ κ ν ε α := ⟨m, [], fun _ => none, []⟩

/-- The committed bodies with their results, in the order of their commits. -/
def history (s : Occ ι φ κ ν ε α) : List (Script κ ν ε α × α) := s.finished.filterMap Finished.commit?

/-- A commit since the transaction began has written a key with the fingerprint of one that it has read. -/
def HasConflict (fp : κ → φ) (s : Occ ι φ κ ν ε α) (a : Attempt κ ν ε α) : Prop :=
  Conflicts fp s.committed a.readTs a.reads

instance (s : Occ ι φ κ ν ε α) (a : Attempt κ ν ε α) : Decidable (s.HasConflict fp a) :=
  inferInstanceAs (Decidable (Conflicts fp s.committed a.readTs a.reads))

/-- The transaction of a party, begun, one operation further. -/
def setCall (s : Occ ι φ κ ν ε α) (i : ι) (a : Attempt κ ν ε α) : Occ ι φ κ ν ε α :=
  { s with call := Function.update s.call i (some a) }

/-- The transaction of a party ends. -/
def close (s : Occ ι φ κ ν ε α) (i : ι) (a : Attempt κ ν ε α) (o : Outcome ε α) : Occ ι φ κ ν ε α :=
  { s with
    call := Function.update s.call i none
    finished := s.finished ++ [⟨a.body, a.readTs, o⟩] }

/-- The writes of a transaction are installed. -/
def install (fp : κ → φ) (s : Occ ι φ κ ν ε α) (a : Attempt κ ν ε α) : Occ ι φ κ ν ε α :=
  { s with
    store := s.store.commit a.pending
    committed := (s.store.ts + 1, a.pending.map fun w => fp w.1) :: s.committed }

/-- The end of a transaction whose body has returned. The check for conflicts is made if it is on. -/
def finish (detect : Bool) (fp : κ → φ) (s : Occ ι φ κ ν ε α) (i : ι) (a : Attempt κ ν ε α) :
    Except ε α → Occ ι φ κ ν ε α
  | .error e => s.close i a (.failed e)
  | .ok r =>
    if a.pending.isEmpty then s.close i a (.readOnly r)
    else if detect ∧ s.HasConflict fp a then s.close i a .conflict
    else (s.install fp a).close i a (.committed r)

/-- One step. -/
def step (detect : Bool) (fp : κ → φ) (s : Occ ι φ κ ν ε α) : OccAction ι κ ν ε α → Option (Occ ι φ κ ν ε α)
  | .start i b => if (s.call i).isNone then some (s.setCall i ⟨b, s.store.ts, [], [], b⟩) else none
  | .advance i => (s.call i).bind fun a => (a.advance (s.store.view a.readTs)).map (s.setCall i)
  | .finish i => (s.call i).bind fun a => a.rest.result?.map (s.finish detect fp i a)

end Occ

/-! ## Serial order -/

/-- A transaction under way, after the commits `bs` on `m₀`: what is left of the body, on what it sees, leads to what
the whole body does there, and what it sees is the store after some of the commits. -/
structure Attempt.Sound (m₀ : Mvcc κ ν) (bs : List (Script κ ν ε α)) (m : Mvcc κ ν) (a : Attempt κ ν ε α) : Prop where
  exec_eq : a.body.exec (m.view a.readTs) [] = a.rest.exec (m.view a.readTs) a.pending
  reads_eq : a.body.reads (m.view a.readTs) [] = a.reads ++ a.rest.reads (m.view a.readTs) a.pending
  start_le : m₀.ts ≤ a.readTs
  le_ts : a.readTs ≤ m.ts
  started : ∃ before, before <+: bs ∧ (m₀.serial before).1.ts = a.readTs ∧
    (m₀.serial before).1.view a.readTs = m.view a.readTs

/-- A transaction that has ended without a write, or with an error: run alone after the commits up to its read
timestamp, its body returns the same and leaves the store as it is. -/
def Finished.Placed (m₀ : Mvcc κ ν) (bs : List (Script κ ν ε α)) (f : Finished κ ν ε α) : Prop :=
  ∀ r ∈ f.outcome.unwritten, ∃ before, before <+: bs ∧ (m₀.serial before).1.ts = f.readTs ∧
    (m₀.serial before).1.alone f.body = ((m₀.serial before).1, r)

/-- The next operation leaves the whole script. -/
theorem Attempt.body_advance {a a' : Attempt κ ν ε α} {view : κ → Option ν} (h : a.advance view = some a') :
    a'.body = a.body := by
  obtain ⟨body, readTs, pending, reads, rest⟩ := a
  cases rest with
  | done r => cases h
  | read | write => rw [← Option.some.inj h]

namespace Attempt.Sound

variable {m₀ m : Mvcc κ ν} {bs : List (Script κ ν ε α)} {a a' : Attempt κ ν ε α}

/-- One operation more. -/
theorem advance (h : a.Sound m₀ bs m) (ha : a.advance (m.view a.readTs) = some a') : a'.Sound m₀ bs m := by
  obtain ⟨body, readTs, pending, reads, rest⟩ := a
  cases rest with
  | done r => cases ha
  | read k next =>
    obtain rfl := Option.some.inj ha
    exact ⟨h.exec_eq, h.reads_eq.trans (List.append_assoc _ _ _).symm, h.start_le, h.le_ts, h.started⟩
  | write k v next =>
    obtain rfl := Option.some.inj ha
    exact ⟨h.exec_eq, h.reads_eq, h.start_le, h.le_ts, h.started⟩

/-- A commit of another transaction does not change what this one sees. -/
theorem commit (h : a.Sound m₀ bs m) (b : Script κ ν ε α) (ws : List (κ × ν)) :
    a.Sound m₀ (bs ++ [b]) (m.commit ws) := by
  have hview : (m.commit ws).view a.readTs = m.view a.readTs := Mvcc.view_commit h.le_ts
  obtain ⟨before, hbefore, hts, hseen⟩ := h.started
  refine ⟨?_, ?_, h.start_le, Nat.le_succ_of_le h.le_ts, before, ?_, hts, ?_⟩
  · rw [hview]
    exact h.exec_eq
  · rw [hview]
    exact h.reads_eq
  · exact hbefore.trans (List.prefix_append bs [b])
  · rw [hview]
    exact hseen

/-- At its end a body has done on what it sees what its result and its writes are. -/
theorem exec_of_done {r : Except ε α} (h : a.Sound m₀ bs m) (hrest : a.rest = .done r) :
    a.body.exec (m.view a.readTs) [] = r.map fun x => (x, a.pending) := by
  rw [h.exec_eq, hrest]
  rfl

/-- Where no key that it has read has a later version, the body does the same on the store as it is now. -/
theorem alone_eq {r : α} (h : a.Sound m₀ bs m) (hrest : a.rest = .done (.ok r)) (hwritten : ¬a.pending.isEmpty)
    (hkeys : ∀ k ∈ a.reads, ∀ x ∈ m.versions, x.key = k → x.ts ≤ a.readTs) :
    m.alone a.body = (m.commit a.pending, .ok r) := by
  have hreads : a.body.reads (m.view a.readTs) [] = a.reads := by
    rw [h.reads_eq, hrest]
    exact List.append_nil _
  have hexec : a.body.exec (m.view m.ts) [] = .ok (r, a.pending) := by
    rw [← Script.exec_congr, h.exec_of_done hrest]
    · rfl
    · intro k hk
      rw [hreads] at hk
      exact Mvcc.view_eq_of_gap h.le_ts fun x hx hxk _ => hkeys k hk x hx hxk
  unfold Mvcc.alone
  rw [hexec]
  exact congrArg (·, Except.ok r) (if_neg hwritten)

end Attempt.Sound

namespace Occ

variable {ι φ : Type*} {fp : κ → φ} {m₀ : Mvcc κ ν} {s t : Occ ι φ κ ν ε α} {i : ι} {a : Attempt κ ν ε α}

/-- The invariant: the store is that of the commits in a row, every version since the start is recorded with its
commit, and the transactions are what they would be in that row. -/
structure Sound (fp : κ → φ) (m₀ : Mvcc κ ν) (s : Occ ι φ κ ν ε α) : Prop where
  serial : m₀.serial (s.history.map Prod.fst) = (s.store, s.history.map fun c => .ok c.2)
  start_le : m₀.ts ≤ s.store.ts
  bounded : ∀ x ∈ s.store.versions, x.ts ≤ s.store.ts
  recorded : ∀ x ∈ s.store.versions, m₀.ts < x.ts → ∃ c ∈ s.committed, c.1 = x.ts ∧ fp x.key ∈ c.2
  call : ∀ i a, s.call i = some a → a.Sound m₀ (s.history.map Prod.fst) s.store
  placed : ∀ f ∈ s.finished, f.Placed m₀ (s.history.map Prod.fst)

/-- At the start. -/
theorem sound_init (hm : ∀ x ∈ m₀.versions, x.ts ≤ m₀.ts) : Sound fp m₀ (init m₀ : Occ ι φ κ ν ε α) where
  serial := rfl
  bounded := hm
  recorded x hx hlt := absurd (hm x hx) (Nat.not_le.mpr hlt)
  start_le := le_rfl
  call _ _ h := nomatch h
  placed _ hf := absurd hf List.not_mem_nil

namespace Sound

/-- What a transaction that begins now sees. -/
theorem started (h : Sound fp m₀ s) (b : Script κ ν ε α) :
    Attempt.Sound m₀ (s.history.map Prod.fst) s.store ⟨b, s.store.ts, [], [], b⟩ := by
  have hstore : (m₀.serial (s.history.map Prod.fst)).1 = s.store := congrArg Prod.fst h.serial
  refine ⟨rfl, rfl, h.start_le, le_rfl, s.history.map Prod.fst, List.prefix_rfl, ?_, ?_⟩
  · rw [hstore]
  · rw [hstore]

/-- A transaction that ends with nothing written has its place after the commits that it has seen. -/
theorem placed_of_exec {o : Outcome ε α} (h : a.Sound m₀ (s.history.map Prod.fst) s.store)
    (hexec : ∀ r ∈ o.unwritten, a.body.exec (s.store.view a.readTs) [] = r.map fun x => (x, [])) :
    Finished.Placed m₀ (s.history.map Prod.fst) ⟨a.body, a.readTs, o⟩ := by
  obtain ⟨before, hbefore, hts, hview⟩ := h.started
  intro r hr
  refine ⟨before, hbefore, hts, ?_⟩
  have hbody : a.body.exec ((m₀.serial before).1.view (m₀.serial before).1.ts) [] = r.map fun x => (x, []) := by
    rw [hts, hview]
    exact hexec r hr
  unfold Mvcc.alone
  rw [hbody]
  cases r with
  | error | ok => rfl

/-- Where there is no conflict, no key that the transaction has read has been written since it began. -/
theorem ts_le_of_not_hasConflict (h : Sound fp m₀ s) (ha : a.Sound m₀ (s.history.map Prod.fst) s.store)
    (hno : ¬s.HasConflict fp a) : ∀ k ∈ a.reads, ∀ x ∈ s.store.versions, x.key = k → x.ts ≤ a.readTs := by
  rintro k hk x hx rfl
  by_contra hlt
  have hafter : a.readTs < x.ts := Nat.lt_of_not_le hlt
  obtain ⟨c, hc, hcts, hkey⟩ := h.recorded x hx (lt_of_le_of_lt ha.start_le hafter)
  exact hno ⟨c, hc, hcts ▸ hafter, x.key, hk, hkey⟩

end Sound

variable [DecidableEq ι]

omit [DecidableEq κ] in
/-- A transaction that ends without a commit adds nothing to the commits. -/
theorem history_close {o : Outcome ε α} (ho : ∀ r, o ≠ .committed r) : (s.close i a o).history = s.history := by
  have hnone : Finished.commit? ⟨a.body, a.readTs, o⟩ = none := by
    cases o with
    | committed r => exact absurd rfl (ho r)
    | _ => rfl
  show (s.finished ++ [(⟨a.body, a.readTs, o⟩ : Finished κ ν ε α)]).filterMap Finished.commit? = _
  rw [List.filterMap_append, List.filterMap_cons_none hnone]
  exact List.append_nil _

omit [DecidableEq κ] in
/-- A transaction that commits is the last of the commits. -/
theorem history_close_committed {r : α} :
    (s.close i a (.committed r)).history = s.history ++ [(a.body, r)] := by
  show (s.finished ++ [(⟨a.body, a.readTs, .committed r⟩ : Finished κ ν ε α)]).filterMap Finished.commit? = _
  rw [List.filterMap_append]
  rfl

omit [DecidableEq κ] in
/-- The transactions under way after one of them has been set. -/
theorem call_setCall {j : ι} {a' : Attempt κ ν ε α} (h : (s.setCall i a).call j = some a') :
    j = i ∧ a' = a ∨ s.call j = some a' := by
  change Function.update s.call i (some a) j = some a' at h
  by_cases hj : j = i
  · subst hj
    rw [Function.update_self] at h
    exact .inl ⟨rfl, (Option.some.inj h).symm⟩
  · rw [Function.update_of_ne hj] at h
    exact .inr h

omit [DecidableEq κ] in
/-- The transactions under way after one of them has ended. -/
theorem call_close {j : ι} {a' : Attempt κ ν ε α} {o : Outcome ε α} (h : (s.close i a o).call j = some a') :
    s.call j = some a' := by
  change Function.update s.call i none j = some a' at h
  by_cases hj : j = i
  · subst hj
    rw [Function.update_self] at h
    cases h
  · rwa [Function.update_of_ne hj] at h

/-- What a step does. -/
theorem step_cases [DecidableEq φ] {detect : Bool} {act : OccAction ι κ ν ε α} (h : s.step detect fp act = some t) :
    (∃ i b, act = .start i b ∧ t = s.setCall i ⟨b, s.store.ts, [], [], b⟩) ∨
    (∃ i a a', s.call i = some a ∧ a.advance (s.store.view a.readTs) = some a' ∧ t = s.setCall i a') ∨
    ∃ i a r, s.call i = some a ∧ a.rest = .done r ∧ t = s.finish detect fp i a r := by
  cases act with
  | start i b =>
    change (if (s.call i).isNone then some (s.setCall i ⟨b, s.store.ts, [], [], b⟩) else none) = some t at h
    split_ifs at h
    exact .inl ⟨i, b, rfl, (Option.some.inj h).symm⟩
  | advance i =>
    obtain ⟨a, hcall, h⟩ := Option.bind_eq_some_iff.mp h
    obtain ⟨a', ha', rfl⟩ := Option.map_eq_some_iff.mp h
    exact .inr (.inl ⟨i, a, a', hcall, ha', rfl⟩)
  | finish i =>
    obtain ⟨a, hcall, h⟩ := Option.bind_eq_some_iff.mp h
    obtain ⟨r, hr, rfl⟩ := Option.map_eq_some_iff.mp h
    exact .inr (.inr ⟨i, a, r, hcall, Script.eq_done_of_result? hr, rfl⟩)

namespace Sound

/-- A transaction begins, or goes on. -/
theorem setCall (h : Sound fp m₀ s) (ha : a.Sound m₀ (s.history.map Prod.fst) s.store) :
    Sound fp m₀ (s.setCall i a) where
  serial := h.serial
  start_le := h.start_le
  bounded := h.bounded
  recorded := h.recorded
  call j a' hj := by
    rcases call_setCall hj with ⟨-, rfl⟩ | hj
    · exact ha
    · exact h.call j a' hj
  placed := h.placed

/-- A transaction ends without a commit. -/
theorem close {o : Outcome ε α} (h : Sound fp m₀ s) (ho : ∀ r, o ≠ .committed r)
    (hplaced : Finished.Placed m₀ (s.history.map Prod.fst) ⟨a.body, a.readTs, o⟩) : Sound fp m₀ (s.close i a o) := by
  have hhistory : (s.close i a o).history = s.history := history_close ho
  refine ⟨?_, h.start_le, h.bounded, h.recorded, ?_, ?_⟩
  · rw [hhistory]
    exact h.serial
  · intro j a' hj
    rw [hhistory]
    exact h.call j a' (call_close hj)
  · intro f hf
    rw [hhistory]
    rcases List.mem_append.mp hf with hf | hf
    · exact h.placed f hf
    · obtain rfl := List.mem_singleton.mp hf
      exact hplaced

/-- A transaction without a conflict commits. -/
theorem commit {r : α} (h : Sound fp m₀ s) (ha : a.Sound m₀ (s.history.map Prod.fst) s.store)
    (hrest : a.rest = .done (.ok r)) (hwritten : ¬a.pending.isEmpty) (hno : ¬s.HasConflict fp a) :
    Sound fp m₀ ((s.install fp a).close i a (.committed r)) := by
  have hhistory : ((s.install fp a).close i a (.committed r)).history = s.history ++ [(a.body, r)] :=
    history_close_committed
  -- The body, run alone on the store as it is now, writes what it has written.
  have halone : s.store.alone a.body = (s.store.commit a.pending, .ok r) :=
    ha.alone_eq hrest hwritten (h.ts_le_of_not_hasConflict ha hno)
  refine ⟨?_, Nat.le_succ_of_le h.start_le, ?_, ?_, ?_, ?_⟩
  · rw [hhistory, List.map_append, List.map_append]
    show m₀.serial (s.history.map Prod.fst ++ [a.body]) = _
    rw [Mvcc.serial_concat, h.serial, halone]
    rfl
  · intro x hx
    rcases Versions.mem_install hx with ⟨hts, -⟩ | hx
    · exact le_of_eq hts
    · exact Nat.le_succ_of_le (h.bounded x hx)
  · intro x hx hlt
    rcases Versions.mem_install hx with ⟨hts, w, hw, hkey, -⟩ | hx
    · refine ⟨_, List.mem_cons_self, hts.symm, ?_⟩
      rw [← hkey]
      exact List.mem_map_of_mem hw
    · obtain ⟨c, hc, hrecorded⟩ := h.recorded x hx hlt
      exact ⟨c, List.mem_cons_of_mem _ hc, hrecorded⟩
  · intro j a' hj
    rw [hhistory, List.map_append]
    exact (h.call j a' (call_close (s := s.install fp a) hj)).commit a.body a.pending
  · intro f hf
    rw [hhistory, List.map_append]
    rcases List.mem_append.mp hf with hf | hf
    · intro r' hr'
      obtain ⟨before, hbefore, hplace⟩ := h.placed f hf r' hr'
      exact ⟨before, hbefore.trans (List.prefix_append _ _), hplace⟩
    · obtain rfl := List.mem_singleton.mp hf
      exact fun r' hr' => nomatch hr'

/-- A transaction ends. -/
theorem finish [DecidableEq φ] {r : Except ε α} (h : Sound fp m₀ s) (hcall : s.call i = some a)
    (hrest : a.rest = .done r) : Sound fp m₀ (s.finish true fp i a r) := by
  have ha := h.call i a hcall
  have hexec := ha.exec_of_done hrest
  cases r with
  | error e =>
    refine h.close (fun _ => nofun) (placed_of_exec ha ?_)
    rintro _ ⟨⟩
    exact hexec
  | ok r =>
    unfold Occ.finish
    split_ifs with hempty hconflict
    · refine h.close (fun _ => nofun) (placed_of_exec ha ?_)
      rintro _ ⟨⟩
      rw [hexec, List.isEmpty_iff.mp hempty]
    · exact h.close (fun _ => nofun) (placed_of_exec ha nofun)
    · exact h.commit ha hrest hempty fun hc => hconflict ⟨rfl, hc⟩

/-- Every step keeps the invariant. -/
theorem step [DecidableEq φ] {act : OccAction ι κ ν ε α} (h : Sound fp m₀ s) (hstep : s.step true fp act = some t) :
    Sound fp m₀ t := by
  rcases step_cases hstep with ⟨i, b, -, rfl⟩ | ⟨i, a, a', hcall, ha', rfl⟩ | ⟨i, a, r, hcall, hrest, rfl⟩
  · exact h.setCall (h.started b)
  · exact h.setCall ((h.call i a hcall).advance ha')
  · exact h.finish hcall hrest

end Sound

/-- In all runs with the check on, the commits are in a serial order. -/
theorem sound_of_run [DecidableEq φ] {acts : List (OccAction ι κ ν ε α)} (hm : ∀ x ∈ m₀.versions, x.ts ≤ m₀.ts)
    (h : run (step true fp) (init m₀) acts = some s) : Sound fp m₀ s :=
  run_invariant h (sound_init hm) fun _ _ _ _ hu hstep => hu.step hstep

/-- The end of a transaction puts it with the others that have ended, whatever its outcome. -/
theorem finish_eq_close [DecidableEq φ] (detect : Bool) (fp : κ → φ) (s : Occ ι φ κ ν ε α) (i : ι)
    (a : Attempt κ ν ε α) (r : Except ε α) :
    ∃ s' o, s.finish detect fp i a r = close s' i a o ∧ s'.call = s.call ∧ s'.finished = s.finished := by
  cases r with
  | error e => exact ⟨s, _, rfl, rfl, rfl⟩
  | ok r =>
    unfold finish
    split_ifs
    · exact ⟨s, _, rfl, rfl, rfl⟩
    · exact ⟨s, _, rfl, rfl, rfl⟩
    · exact ⟨s.install fp a, _, rfl, rfl, rfl⟩

/-- The scripts of all transactions are scripts that have been started. -/
theorem forall_finished_of_run [DecidableEq φ] {detect : Bool} {acts : List (OccAction ι κ ν ε α)}
    {P : Script κ ν ε α → Prop} (hP : ∀ i b, .start i b ∈ acts → P b)
    (h : run (step detect fp) (init m₀) acts = some s) :
    ∀ f ∈ s.finished, P f.body := by
  have hinv : (∀ i a, s.call i = some a → P a.body) ∧ ∀ f ∈ s.finished, P f.body := by
    refine run_invariant
      (I := fun u : Occ ι φ κ ν ε α => (∀ i a, u.call i = some a → P a.body) ∧ ∀ f ∈ u.finished, P f.body)
      h ⟨fun i a ha => (nomatch ha), fun f hf => absurd hf List.not_mem_nil⟩ ?_
    rintro u act v hact ⟨hcalls, hfinished⟩ hstep
    rcases step_cases hstep with ⟨i, b, rfl, rfl⟩ | ⟨i, a, a', hcall, ha', rfl⟩ | ⟨i, a, r, hcall, -, rfl⟩
    · refine ⟨fun j a' hj => ?_, hfinished⟩
      rcases call_setCall hj with ⟨-, rfl⟩ | hj
      · exact hP i b hact
      · exact hcalls j a' hj
    · refine ⟨fun j a'' hj => ?_, hfinished⟩
      rcases call_setCall hj with ⟨-, rfl⟩ | hj
      · rw [Attempt.body_advance ha']
        exact hcalls i a hcall
      · exact hcalls j a'' hj
    · obtain ⟨s', o, heq, hcall', hfinished'⟩ := finish_eq_close detect fp u i a r
      rw [heq]
      constructor
      · intro j a' hj
        exact hcalls j a' (hcall' ▸ call_close hj)
      · intro f hf
        rcases List.mem_append.mp hf with hf | hf
        · exact hfinished f (hfinished' ▸ hf)
        · obtain rfl := List.mem_singleton.mp hf
          exact hcalls i a hcall
  exact hinv.2

end Occ

end Omashu.Lib
