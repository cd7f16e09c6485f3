import Omashu.Lib.Run
import Omashu.Tso.Timestamp

/-!
# The window of the oracle over a term

The oracle hands out timestamps below `saved.physical`, and `windowUpdator` is to move this bound on.
Both go through `tso.mu`. A call of `newCommitTs` holds the lock while it waits in the loops of
`allocate`, and `UpdateWindow` takes the lock twice itself and once more in the transaction that
persists the new bound, whose commit needs a timestamp below the old one.

The term starts with the bound `defaultUpperBoundWindow` above its first physical part, and the ticker
of the updator, which has the same period, starts after that. So the updator never runs before the
clock has reached the bound. A call that comes from then on waits under the lock for a bound that
nobody can move, and the updator's own transaction is such a call (`never_blocked_iff`).
-/

namespace Omashu

open Lib

/-- The loops that `allocate` waits in. -/
inductive Loop
  /-- At the upper bound, for a reading below it. -/
  | upperBound
  /-- On logical overflow, for a later reading. -/
  | overflow
  deriving DecidableEq

namespace Clock

/-- The loop that `allocate` enters after its first step. -/
def enters (c : Clock) : Option Loop :=
  if c.saved.physical ≤ c.current.physical then some .upperBound
  else if c.current.exceedLogicalMax then some .overflow
  else none

/-- A reading with which `allocate` leaves a loop. -/
def leaves (c : Clock) : Loop → ℤ → Bool
  | .upperBound, now => now < c.saved.physical
  | .overflow, now => c.current.physical < now

/-- `allocate`, as the steps of a call: it enters a loop or returns at once, and returns from a loop at
the first reading that leaves it. The counter is zero after the upper-bound loop, so a call goes through
one loop at most. -/
theorem allocate_eq_enters (c : Clock) (now : ℤ) (readings : List ℤ) :
    c.allocate (now :: readings) =
      match ({ c with current := c.advancePhysical now } : Clock).enters with
      | none => some { c with current := (c.advancePhysical now).incr }
      | some loop => (waitFor (({ c with current := c.advancePhysical now } : Clock).leaves loop)
          readings).map fun r => { c with current := (TimeStamp.reset r.1).incr } := by
  have hzero : ∀ r, (TimeStamp.reset r).exceedLogicalMax = false := by
    intro r
    simp [TimeStamp.exceedLogicalMax, TimeStamp.reset]
  unfold allocate enters enforceUpperBound handleLogicalOverflow
  by_cases hbound : c.saved.physical ≤ (c.advancePhysical now).physical
  · have hleaves : ({ c with current := c.advancePhysical now } : Clock).leaves .upperBound =
        fun now => decide (now < c.saved.physical) := rfl
    simp only [hbound, if_true, hleaves]
    cases waitFor (fun now => now < c.saved.physical) readings with
    | none => rfl
    | some r => simp [hzero]
  · have hleaves : ({ c with current := c.advancePhysical now } : Clock).leaves .overflow =
        fun r => decide ((c.advancePhysical now).physical < r) := rfl
    simp only [hbound, if_false, Option.bind_eq_bind, Option.bind_some]
    by_cases hmax : (c.advancePhysical now).exceedLogicalMax = true
    · simp only [hmax, if_true, hleaves]
      cases waitFor (fun r => decide ((c.advancePhysical now).physical < r)) readings with
      | none | some => rfl
    · simp [hmax]

/-- The first step of `allocate` goes to the reading, where the clock has not gone back. -/
theorem advancePhysical_physical {c : Clock} {now : ℤ} (h : c.current.physical ≤ now) :
    (c.advancePhysical now).physical = now := by
  unfold advancePhysical
  split_ifs with hlt
  · rfl
  · omega

end Clock

/-- Who calls `newCommitTs`. -/
inductive Caller (ι : Type*)
  /-- The commit of a client's transaction. -/
  | client (i : ι)
  /-- The commit of the transaction of `UpdateWindow`. -/
  | windowUpdator
  deriving DecidableEq

/-- Where `windowUpdator` is. -/
inductive Updator
  /-- In its `select`. -/
  | waiting
  /-- In `UpdateWindow`, before its first critical section. -/
  | ticked
  /-- In the transaction that persists the new bound, before it has its commit timestamp. -/
  | committing (upperBound : ℤ)
  /-- In this transaction, with its commit timestamp. -/
  | persisting (upperBound : ℤ)
  /-- After the transaction, before the second critical section. -/
  | saving (upperBound : ℤ)
  deriving DecidableEq

/-- The oracle in one leadership term. -/
structure OracleTerm (ι : Type*) where
  /-- The wall clock, in milliseconds. -/
  now : ℤ
  /-- `current` and `saved`. -/
  clock : Clock
  /-- The call that holds `tso.mu` while it waits in a loop of `allocate`. -/
  mu : Option (Caller ι × Loop)
  updator : Updator
  /-- Whether the channel of the ticker holds a tick. -/
  pending : Bool
  /-- When the ticker fires next. -/
  nextTick : ℤ
  deriving DecidableEq

/-- One step of the oracle. -/
inductive OracleAction (ι : Type*)
  /-- The clock advances. -/
  | elapse (d : ℕ)
  /-- The ticker fires. -/
  | tick
  /-- The updator receives a tick and calls `UpdateWindow`. -/
  | startUpdate
  /-- The first critical section of `UpdateWindow`, and its decision. -/
  | readWindow
  /-- A call of `newCommitTs` up to its return, or up to a loop. Its transaction may conflict. -/
  | newCommitTs (c : Caller ι) (conflict : Bool)
  /-- The call in a loop makes a reading with which it leaves. -/
  | leaveLoop
  /-- The transaction of `UpdateWindow` succeeds. -/
  | persisted
  /-- The transaction of `UpdateWindow` fails. -/
  | persistFailed
  /-- The second critical section of `UpdateWindow`. -/
  | save

namespace OracleTerm

variable {ι : Type*}

/-- A call of `allocate` returns: the counter is incremented and the lock released. -/
def returnTs (s : OracleTerm ι) (c : Caller ι) (cur : TimeStamp) : OracleTerm ι :=
  { s with
    clock := { s.clock with current := cur.incr }
    mu := none
    updator := match c, s.updator with
      | .windowUpdator, .committing upperBound => .persisting upperBound
      | _, u => u }

/-- A call of `allocate` up to its return or a loop. -/
def allocate (s : OracleTerm ι) (c : Caller ι) : OracleTerm ι :=
  let cur := s.clock.advancePhysical s.now
  match ({ s.clock with current := cur } : Clock).enters with
  | none => s.returnTs c cur
  | some loop => { s with clock := { s.clock with current := cur }, mu := some (c, loop) }

/-- `newCommitTs`. The transaction of the updator has no reads, so it has no conflict. -/
def newCommitTs (s : OracleTerm ι) (c : Caller ι) (conflict : Bool) : Option (OracleTerm ι) :=
  if s.mu.isSome then none
  else
    match c, s.updator, conflict with
    -- A conflict returns before `allocate`, and releases the lock.
    | .client _, _, true => some s
    | .client i, _, false => some (s.allocate (.client i))
    | .windowUpdator, .committing _, false => some (s.allocate .windowUpdator)
    | .windowUpdator, _, _ => none

/-- A call in a loop of `allocate` makes a reading with which it leaves. -/
def leaveLoop (s : OracleTerm ι) : Option (OracleTerm ι) :=
  match s.mu with
  | some (c, loop) =>
    if s.clock.leaves loop s.now then some (s.returnTs c (TimeStamp.reset s.now)) else none
  | none => none

/-- The transaction of `UpdateWindow` fails, unless it is in `allocate`. -/
def persistFailed (s : OracleTerm ι) : Option (OracleTerm ι) :=
  match s.updator, s.mu with
  | .committing _, some (.windowUpdator, _) => none
  | .committing _, _ => some { s with updator := .waiting }
  | .persisting _, _ => some { s with updator := .waiting }
  | _, _ => none

/-- One step of the oracle. A ticker that is late drops the ticks it has missed. -/
def step (s : OracleTerm ι) : OracleAction ι → Option (OracleTerm ι)
  | .elapse d => some { s with now := s.now + d }
  | .tick =>
    if s.nextTick ≤ s.now then
      some { s with
        pending := true
        nextTick := s.nextTick + defaultUpperBoundWindow *
          (1 + (s.now - s.nextTick) / defaultUpperBoundWindow) }
    else none
  | .startUpdate =>
    if s.updator = .waiting ∧ s.pending = true then
      some { s with updator := .ticked, pending := false }
    else none
  | .readWindow =>
    if s.mu = none ∧ s.updator = .ticked then
      some { s with updator := match s.clock.nextUpperBound with
        | none => .waiting
        | some upperBound => .committing upperBound }
    else none
  | .newCommitTs c conflict => s.newCommitTs c conflict
  | .leaveLoop => s.leaveLoop
  | .persisted =>
    match s.updator with
    | .persisting upperBound => some { s with updator := .saving upperBound }
    | _ => none
  | .persistFailed => s.persistFailed
  | .save =>
    match s.mu, s.updator with
    | none, .saving upperBound =>
      some { s with clock := s.clock.resetSaved upperBound, updator := .waiting }
    | _, _ => none

/-- A call waits at the upper bound, and whatever happens before it returns, the bound stays at or
below the clock. -/
def Blocked (s : OracleTerm ι) : Prop :=
  (∃ c, s.mu = some (c, .upperBound)) ∧
    ∀ t, Reaches step (fun _ a => a ≠ .leaveLoop) s t → t.clock.saved.physical ≤ t.now

/-- The oracle after `StartServing`, with the first physical part `p₀`. The clock has reached it, and
the ticker starts now or later. -/
structure Started (p₀ : ℤ) (s : OracleTerm ι) : Prop where
  /-- The current timestamp is the one that `persistUpperboundOnStartup` has used. -/
  current : s.clock.current = ⟨p₀, 1⟩
  /-- The bound is the one that it has persisted. -/
  saved : s.clock.saved = TimeStamp.reset (p₀ + defaultUpperBoundWindow)
  /-- The clock has reached the first physical part. -/
  now : p₀ ≤ s.now
  /-- No call is in `allocate`. -/
  mu : s.mu = none
  /-- The updator waits for its first tick. -/
  updator : s.updator = .waiting
  /-- There is no tick. -/
  pending : s.pending = false
  /-- The first tick is a whole period ahead. -/
  nextTick : s.now + defaultUpperBoundWindow ≤ s.nextTick

/-- A call of `newCommitTs` that allocates a timestamp starts while the clock is below the first upper
bound of the term. -/
def InWindow (p₀ : ℤ) (s : OracleTerm ι) : OracleAction ι → Prop
  | .newCommitTs _ false => s.now < p₀ + defaultUpperBoundWindow
  | _ => True

instance (p₀ : ℤ) (s : OracleTerm ι) : (a : OracleAction ι) → Decidable (s.InWindow p₀ a)
  | .newCommitTs _ false => inferInstanceAs (Decidable (s.now < p₀ + defaultUpperBoundWindow))
  | .newCommitTs _ true | .elapse _ | .tick | .startUpdate | .readWindow | .leaveLoop | .persisted | .persistFailed
  | .save => isTrue trivial

/-! ## Before the first call at the bound -/

/-- What holds as long as no call comes at or above the bound: the bound is the first one, and the
updator has not committed. -/
structure Fresh (p₀ : ℤ) (s : OracleTerm ι) : Prop where
  /-- The bound is the first one. -/
  saved : s.clock.saved.physical = p₀ + defaultUpperBoundWindow
  /-- The clock is not behind the current timestamp. -/
  current_le : s.clock.current.physical ≤ s.now
  /-- The ticker fires only at or above the bound. -/
  nextTick : p₀ + defaultUpperBoundWindow ≤ s.nextTick
  /-- The updator runs only at or above the bound. -/
  ticked : s.pending = true ∨ s.updator ≠ .waiting → p₀ + defaultUpperBoundWindow ≤ s.now
  /-- Only a client waits, and not at the bound. -/
  mu : ∀ c loop, s.mu = some (c, loop) → c ≠ .windowUpdator ∧ loop = .overflow
  /-- The updator has not committed. -/
  updator : ∀ upperBound, s.updator ≠ .persisting upperBound ∧ s.updator ≠ .saving upperBound

variable {p₀ : ℤ} {s t : OracleTerm ι} {a : OracleAction ι} {c : Caller ι}

/-- So it is after `StartServing`. -/
theorem Started.fresh (h : Started p₀ s) : Fresh p₀ s where
  saved := by
    rw [h.saved]
    rfl
  current_le := by
    rw [h.current]
    exact h.now
  nextTick := by
    have hnow := h.now
    have htick := h.nextTick
    omega
  ticked := by simp [h.pending, h.updator]
  mu := by simp [h.mu]
  updator := by simp [h.updator]

/-- What a call of `newCommitTs` can do. -/
theorem newCommitTs_cases {conflict : Bool} (h : s.newCommitTs c conflict = some t) :
    s.mu = none ∧ (conflict = true ∧ t = s ∨ conflict = false ∧ t = s.allocate c ∧
      (c = .windowUpdator → s.updator ≠ .waiting)) := by
  unfold newCommitTs at h
  split_ifs at h with hmu
  refine ⟨by simpa using hmu, ?_⟩
  split at h
  · exact .inl ⟨rfl, (Option.some.inj h).symm⟩
  · exact .inr ⟨rfl, (Option.some.inj h).symm, by simp⟩
  · rename_i hup
    exact .inr ⟨rfl, (Option.some.inj h).symm, by simp [hup]⟩
  · simp at h

/-- A failed transaction sends the updator back to its `select`. -/
theorem persistFailed_eq (h : s.persistFailed = some t) :
    t = { s with updator := .waiting } ∧ s.updator ≠ .waiting := by
  unfold persistFailed at h
  split at h
  · simp at h
  · rename_i hup _
    exact ⟨(Option.some.inj h).symm, by simp [hup]⟩
  · rename_i hup
    exact ⟨(Option.some.inj h).symm, by simp [hup]⟩
  · simp at h

/-- A client's call below the bound does not wait at it. -/
theorem Fresh.allocate (hF : Fresh p₀ s) (hnow : s.now < p₀ + defaultUpperBoundWindow)
    (hc : c ≠ .windowUpdator) : Fresh p₀ (s.allocate c) := by
  obtain ⟨i, rfl⟩ : ∃ i, c = .client i := by
    cases c with
    | client i => exact ⟨i, rfl⟩
    | windowUpdator => exact absurd rfl hc
  have hadv : (s.clock.advancePhysical s.now).physical = s.now :=
    Clock.advancePhysical_physical hF.current_le
  have hsaved := hF.saved
  have hbound : ¬s.clock.saved.physical ≤ (s.clock.advancePhysical s.now).physical := by omega
  unfold OracleTerm.allocate Clock.enters
  simp only [hbound, if_false]
  split_ifs
  · refine ⟨hF.saved, le_of_eq hadv, hF.nextTick, hF.ticked, ?_, hF.updator⟩
    rintro c loop heq
    obtain ⟨rfl, rfl⟩ := Prod.mk.inj (Option.some.inj heq)
    exact ⟨hc, rfl⟩
  · exact ⟨hF.saved, le_of_eq hadv, hF.nextTick, hF.ticked, by simp [returnTs], hF.updator⟩

/-- A step whose calls come below the bound keeps the bound and the updator where they are. -/
theorem Fresh.step (hF : Fresh p₀ s) (hw : s.InWindow p₀ a) (h : s.step a = some t) :
    Fresh p₀ t := by
  have hticked := hF.ticked
  cases a with
  | elapse d =>
    obtain rfl := Option.some.inj h
    have hcur := hF.current_le
    refine ⟨hF.saved, ?_, hF.nextTick, fun ht => ?_, hF.mu, hF.updator⟩
    · show s.clock.current.physical ≤ s.now + d
      omega
    · have hnow := hticked ht
      show p₀ + defaultUpperBoundWindow ≤ s.now + d
      omega
  | tick =>
    simp only [OracleTerm.step] at h
    split_ifs at h with hnow
    obtain rfl := Option.some.inj h
    have htick := hF.nextTick
    -- The ticks that were missed are not negative in number, so the next one is later.
    have hnn : 0 ≤ (s.now - s.nextTick) / defaultUpperBoundWindow :=
      Int.ediv_nonneg (by omega) (by decide)
    refine ⟨hF.saved, hF.current_le, ?_, fun _ => le_trans htick hnow, hF.mu, hF.updator⟩
    show p₀ + defaultUpperBoundWindow ≤ s.nextTick + defaultUpperBoundWindow * _
    unfold defaultUpperBoundWindow at *
    omega
  | startUpdate =>
    simp only [OracleTerm.step] at h
    split_ifs at h with hp
    obtain rfl := Option.some.inj h
    exact ⟨hF.saved, hF.current_le, hF.nextTick, fun _ => hticked (.inl hp.2), hF.mu, by simp⟩
  | readWindow =>
    simp only [OracleTerm.step] at h
    split_ifs at h with hp
    obtain rfl := Option.some.inj h
    -- The updator is on its way only at or above the bound, whatever it decides.
    have hnow : p₀ + defaultUpperBoundWindow ≤ s.now := hticked (.inr (by simp [hp.2]))
    refine ⟨hF.saved, hF.current_le, hF.nextTick, fun _ => hnow, hF.mu, fun upperBound => ?_⟩
    dsimp only
    split <;> simp
  | newCommitTs c conflict =>
    obtain ⟨-, ⟨-, rfl⟩ | ⟨rfl, rfl, hup⟩⟩ := newCommitTs_cases h
    · exact hF
    · -- The updator itself comes only at or above the bound.
      refine hF.allocate hw fun hc => ?_
      have hnow := hticked (.inr (hup hc))
      exact absurd hw (not_lt.mpr hnow)
  | leaveLoop =>
    simp only [OracleTerm.step, leaveLoop] at h
    split at h
    · rename_i c loop hmu
      split_ifs at h with hl
      obtain rfl := Option.some.inj h
      obtain ⟨hc, -⟩ := hF.mu c loop hmu
      cases c with
      | windowUpdator => exact absurd rfl hc
      | client i =>
        exact ⟨hF.saved, le_refl _, hF.nextTick, hticked, by simp [returnTs], hF.updator⟩
    · simp at h
  | persisted =>
    simp only [OracleTerm.step] at h
    split at h
    · rename_i upperBound hup
      exact absurd hup (hF.updator upperBound).1
    · simp at h
  | persistFailed =>
    obtain ⟨rfl, hup⟩ := persistFailed_eq h
    exact ⟨hF.saved, hF.current_le, hF.nextTick, fun _ => hticked (.inr hup), hF.mu, by simp⟩
  | save =>
    simp only [OracleTerm.step] at h
    split at h
    · rename_i upperBound hmu hup
      exact absurd hup (hF.updator upperBound).2
    · simp at h

/-! ## The first call at the bound -/

/-- A call waits at the upper bound while the clock is at or above it. -/
structure Stuck (c : Caller ι) (s : OracleTerm ι) : Prop where
  /-- The call waits. -/
  mu : s.mu = some (c, .upperBound)
  /-- The clock is not below the bound. -/
  saved_le : s.clock.saved.physical ≤ s.now

/-- No step moves the bound, and the call goes on waiting. -/
theorem Stuck.step (hS : Stuck c s) (h : s.step a = some t) : Stuck c t := by
  obtain ⟨hmu, hle⟩ := hS
  cases a with
  | elapse d =>
    obtain rfl := Option.some.inj h
    refine ⟨hmu, ?_⟩
    show s.clock.saved.physical ≤ s.now + d
    omega
  | tick | startUpdate =>
    simp only [OracleTerm.step] at h
    split_ifs at h
    obtain rfl := Option.some.inj h
    exact ⟨hmu, hle⟩
  | readWindow => simp [OracleTerm.step, hmu] at h
  | newCommitTs c' conflict =>
    obtain ⟨hnone, -⟩ := newCommitTs_cases h
    simp [hmu] at hnone
  | leaveLoop =>
    -- A reading leaves the loop only below the bound.
    have hnot : s.clock.leaves .upperBound s.now = false := by
      simpa [Clock.leaves] using hle
    simp [OracleTerm.step, leaveLoop, hmu, hnot] at h
  | persisted =>
    simp only [OracleTerm.step] at h
    split at h
    · obtain rfl := Option.some.inj h
      exact ⟨hmu, hle⟩
    · simp at h
  | persistFailed =>
    obtain ⟨rfl, -⟩ := persistFailed_eq h
    exact ⟨hmu, hle⟩
  | save => simp [OracleTerm.step, hmu] at h

/-- So the oracle is blocked. -/
theorem Stuck.blocked (hS : Stuck c s) : s.Blocked := by
  refine ⟨⟨c, hS.mu⟩, fun t ht => ?_⟩
  exact (ht.invariant hS fun _ _ _ hu _ hstep => hu.step hstep).saved_le

/-- A call at or above the bound waits there. -/
theorem Fresh.stuck_allocate (hF : Fresh p₀ s) (hnow : p₀ + defaultUpperBoundWindow ≤ s.now)
    (c : Caller ι) : Stuck c (s.allocate c) := by
  have hadv : (s.clock.advancePhysical s.now).physical = s.now :=
    Clock.advancePhysical_physical hF.current_le
  have hsaved := hF.saved
  have hle : s.clock.saved.physical ≤ s.now := by omega
  have hbound : s.clock.saved.physical ≤ (s.clock.advancePhysical s.now).physical := by omega
  unfold OracleTerm.allocate Clock.enters
  simp only [hbound, if_true]
  exact ⟨rfl, hle⟩

/-- A step that does not meet the condition blocks the oracle. -/
theorem Fresh.blocked_step (hF : Fresh p₀ s) (hw : ¬s.InWindow p₀ a) (h : s.step a = some t) :
    t.Blocked := by
  cases a with
  | newCommitTs c conflict =>
    obtain ⟨-, ⟨rfl, -⟩ | ⟨rfl, rfl, -⟩⟩ := newCommitTs_cases h
    · exact absurd trivial hw
    · exact (hF.stuck_allocate (not_lt.mp hw) c).blocked
  | _ => exact absurd trivial hw

/-- Before that it is not. -/
theorem Fresh.not_blocked (hF : Fresh p₀ s) : ¬s.Blocked := by
  rintro ⟨⟨c, hmu⟩, -⟩
  exact absurd (hF.mu c _ hmu).2 (by simp)

/-- A run of the oracle in a term leads through no blocked state exactly if every call of `newCommitTs`
that allocates a timestamp, by a client or by the updator, starts while the clock is below the first
upper bound of the term. -/
theorem never_blocked_iff {as : List (OracleAction ι)} (h₀ : Started p₀ s)
    (h : run step s as = some t) :
    (∀ u, Passes step s as u → ¬u.Blocked) ↔ Along step (InWindow p₀) s as :=
  forall_passes_iff_along (I := Fresh p₀) (fun _ _ _ hF hw hs => hF.step hw hs)
    (fun _ _ _ hF hw hs => hF.blocked_step hw hs) (fun _ hF => hF.not_blocked) h₀.fresh h

/-- The oracle after `StartServing` at millisecond 1000. -/
def startedAt1000 : OracleTerm Unit where
  now := 1000
  clock := ⟨⟨1000, 1⟩, ⟨3000, 0⟩⟩
  mu := none
  updator := .waiting
  pending := false
  nextTick := 3000

/-- It is at the start of a term. -/
theorem started_startedAt1000 : Started 1000 startedAt1000 := by
  constructor <;> decide

/-- A client commits half a second later. -/
theorem never_blocked_iff_early_commit :
    ∃ t, run step startedAt1000 [.elapse 500, .newCommitTs (.client ()) false] = some t ∧
      ∀ u, Passes step startedAt1000 [.elapse 500, .newCommitTs (.client ()) false] u → ¬u.Blocked :=
  ⟨_, rfl, (never_blocked_iff started_startedAt1000 rfl).mpr (by decide)⟩

/-- After that commit the ticker fires for the first time, and the updator goes to move the bound. -/
def firstUpdate : List (OracleAction Unit) :=
  [.elapse 500, .newCommitTs (.client ()) false, .elapse 1500, .tick, .startUpdate, .readWindow,
    .newCommitTs .windowUpdator false]

/-- The updator waits, under the lock, for the bound that it is itself to move. -/
theorem updator_blocks_itself :
    ∃ t, run step startedAt1000 firstUpdate = some t ∧
      t.mu = some (.windowUpdator, .upperBound) ∧ t.Blocked :=
  ⟨_, rfl, rfl, Stuck.blocked ⟨rfl, by decide⟩⟩

end OracleTerm

end Omashu
