import Omashu.Store.View
import Omashu.Tso.Terms

/-!
# The persisted bound in the sequence of applied commands

The upper bound of the clock is kept under `persistentKey`, in the same key space as the data of the
clients. `BoundLog` is the store with the commands that are applied to it, in the order of their commit
timestamps: those of the clients, and those that the oracles of the nodes produce in
`persistUpperboundOnStartup` and `UpdateWindow`. A bound that is proposed may also be lost.

`bound_grows` says that the bound, once it is there, stays and does not decrease, where the clients leave
the key alone (a prefix deletion with a prefix of it does not), where `UpdateWindow` persists its bound
within the term in which it has read the clock, and where the clock does not step back in `allocate`.

`leader` is not part of the program: it is the node whose startup bound was applied last, until it starts
once more.
-/

namespace Omashu

open Lib

/-- An oracle, as far as its bounds are concerned. -/
structure BoundOracle where
  /-- `current` and `saved`. -/
  clock : Clock
  /-- Where the node is in its term. -/
  role : Role
  /-- Its `UpdateWindow`. -/
  update : Update
  deriving DecidableEq

/-- The store after the commands that were applied, and the oracles of the nodes. -/
structure BoundLog (ν : Type) where
  store : Store
  /-- The commit timestamp of the last command. -/
  last : ℕ
  oracles : ν → BoundOracle
  /-- The node whose startup bound was applied last, unless it has started once more. -/
  leader : Option ν

/-- A step of the sequence. -/
inductive BoundAction (ν : Type)
  /-- A command of a client is applied. -/
  | client (env : Env) (c : Command)
  /-- `StartServing` of a node has read the clock, and the bound that it finds in its own store. -/
  | load (i : ν) (now : ℤ) (found : Option ℤ)
  /-- The command of `persistUpperboundOnStartup` is applied. -/
  | persist (i : ν) (env : Env)
  /-- `persistUpperboundOnStartup` saves the bound. -/
  | persisted (i : ν)
  /-- A commit of a client calls `allocate`. -/
  | allocate (i : ν) (readings : List ℤ)
  /-- The first critical section of `UpdateWindow`. -/
  | readWindow (i : ν)
  /-- The transaction of `UpdateWindow` gets its commit timestamp, and its command is applied. -/
  | commitWindow (i : ν) (env : Env) (readTs : ℕ) (readings : List ℤ)
  /-- The transaction of `UpdateWindow` gets its commit timestamp, and its command is lost. -/
  | loseWindow (i : ν) (readings : List ℤ)
  /-- The second critical section of `UpdateWindow`. -/
  | saveWindow (i : ν)
  /-- `UpdateWindow` fails, or its node stops. -/
  | updateFailed (i : ν)

namespace BoundLog

variable {ν : Type} [DecidableEq ν]

/-- One of the oracles changes. -/
def setOracle (s : BoundLog ν) (i : ν) (o : BoundOracle) : BoundLog ν :=
  { s with oracles := Function.update s.oracles i o }

/-- A command is applied. The commit timestamps increase. -/
def apply (M : Merge) (s : BoundLog ν) (env : Env) (c : Command) : Option (BoundLog ν) :=
  if s.last < c.commitTs then
    match Fsm.apply M s.store env c with
    | .ok store => some { s with store, last := c.commitTs }
    | .error _ => none
  else none

/-- The clock after `StartServing` has read the bound, if there is one. -/
def loaded (clock : Clock) (now : ℤ) : Option ℤ → Clock
  | none => { clock with current := TimeStamp.reset now }
  | some found => ⟨TimeStamp.reset (if now ≤ found then found + 1 else now), TimeStamp.reset found⟩

/-- `persistUpperboundOnStartup` on the oracle and the log. -/
def persist (M : Merge) (s : BoundLog ν) (i : ν) (env : Env) : Option (BoundLog ν) :=
  let o := s.oracles i
  let current := o.clock.current.incr
  let upperBound := current.physical + defaultUpperBoundWindow
  if o.role = .loaded then
    { s.setOracle i { o with clock := { o.clock with current }, role := .persisting upperBound } with
      leader := some i }.apply M env ⟨current.compose, current.compose, .single (setBound upperBound)⟩
  else none

/-- The first critical section of `UpdateWindow`. -/
def readWindow (s : BoundLog ν) (i : ν) : Option (BoundLog ν) :=
  let o := s.oracles i
  if o.role = .serving ∧ o.update = .idle then
    match o.clock.nextUpperBound with
    | none => some s
    | some upperBound => some (s.setOracle i { o with update := .decided upperBound })
  else none

/-- The transaction of `UpdateWindow` gets its commit timestamp: the bound, and the oracle after it. -/
def allocateWindow (o : BoundOracle) (readings : List ℤ) : Option (ℤ × BoundOracle) :=
  match o.update with
  | .decided upperBound => (o.clock.allocate readings).map fun clock =>
      (upperBound, { o with clock, update := .proposed upperBound })
  | _ => none

/-- One step of the sequence. -/
def step (M : Merge) (s : BoundLog ν) : BoundAction ν → Option (BoundLog ν)
  | .client env c => s.apply M env c
  | .load i now found => some { s.setOracle i { s.oracles i with
        clock := loaded (s.oracles i).clock now found
        role := .loaded } with
      leader := if s.leader = some i then none else s.leader }
  | .persist i env => s.persist M i env
  | .persisted i =>
    match (s.oracles i).role with
    | .persisting upperBound => some (s.setOracle i { s.oracles i with
        clock := (s.oracles i).clock.resetSaved upperBound
        role := .serving })
    | _ => none
  | .allocate i readings => ((s.oracles i).clock.allocate readings).map fun clock =>
      s.setOracle i { s.oracles i with clock }
  | .readWindow i => s.readWindow i
  | .commitWindow i env readTs readings => (allocateWindow (s.oracles i) readings).bind fun x =>
      (s.setOracle i x.2).apply M env
        ⟨readTs, x.2.clock.current.compose, .transaction [setBound x.1]⟩
  | .loseWindow i readings =>
    (allocateWindow (s.oracles i) readings).map fun x => s.setOracle i x.2
  | .saveWindow i =>
    match (s.oracles i).update with
    | .proposed upperBound => some (s.setOracle i { s.oracles i with
        clock := (s.oracles i).clock.resetSaved upperBound
        update := .idle })
    | _ => none
  | .updateFailed i => some (s.setOracle i { s.oracles i with update := .idle })

/-- The call of `allocate` is made while the oracle serves, moves forward, and its readings fit the
layout. -/
def Allocates (o : BoundOracle) (readings : List ℤ) : Prop :=
  o.role = .serving ∧ o.clock.MovesForward readings ∧ ∀ now ∈ readings, now < 2^45

instance (o : BoundOracle) (readings : List ℤ) : Decidable (Allocates o readings) :=
  inferInstanceAs (Decidable (_ ∧ _))

/-- The clients leave the key alone. A startup bound is applied while no `UpdateWindow` runs, and
`UpdateWindow` is called on the node whose startup bound was applied last. Besides, the clocks do not step
back in `allocate` and stay within the layout. -/
def Reserved (s : BoundLog ν) : BoundAction ν → Prop
  | .client _ c => ¬c.Touches persistentKey
  | .load _ now found => 0 ≤ now ∧ now < 2^45 ∧ ∀ x ∈ found, x + 1 < 2^45
  | .persist _ _ => ∀ j, (s.oracles j).update = .idle
  | .allocate i readings => Allocates (s.oracles i) readings
  | .readWindow i => s.leader = some i
  | .commitWindow i _ _ readings => Allocates (s.oracles i) readings
  | .loseWindow i readings => Allocates (s.oracles i) readings
  | _ => True

instance [Fintype ν] (s : BoundLog ν) : (a : BoundAction ν) → Decidable (s.Reserved a)
  | .client _ c => inferInstanceAs (Decidable (¬c.Touches persistentKey))
  | .load _ _ _ => inferInstanceAs (Decidable (_ ∧ _ ∧ _))
  | .persist _ _ => inferInstanceAs (Decidable (∀ _, _))
  | .allocate i readings => inferInstanceAs (Decidable (Allocates (s.oracles i) readings))
  | .readWindow i => inferInstanceAs (Decidable (s.leader = some i))
  | .commitWindow i _ _ readings => inferInstanceAs (Decidable (Allocates (s.oracles i) readings))
  | .loseWindow i readings => inferInstanceAs (Decidable (Allocates (s.oracles i) readings))
  | .persisted _ | .saveWindow _ | .updateFailed _ => inferInstanceAs (Decidable True)

/-- The bound that is visible in the store. -/
def lastTimestamp (s : BoundLog ν) (now : ℤ) : Option ℕ :=
  ((BTxn.newTransactionAt s.store s.last).lookup now persistentKey).bind bytesToUint64

/-! ## What the oracles keep -/

/-- The term of the oracle has begun: its startup bound is applied. -/
def Begun : Role → Prop
  | .persisting _ | .serving => True
  | _ => False

/-- The pair is in the ranges of the layout, but for a counter that has just been used up. -/
def InRange (ts : TimeStamp) : Prop := 0 ≤ ts.physical ∧ ts.physical < 2^45 ∧ ts.logical ≤ 2^18

/-- What an oracle keeps, when the last bound that was applied is that of the physical part in `p`, if there
is one. `leads` says that its own startup bound is the last one. -/
structure OracleKeeps (leads : Prop) (p : Option ℤ) (o : BoundOracle) : Prop where
  /-- The current pair is in range. -/
  range : InRange o.clock.current
  /-- Before its first bound it has used no timestamp. -/
  loaded : o.role = .loaded → o.clock.current.logical = 0
  /-- The clock of the last oracle is not below the last bound's part. -/
  current : leads → ∀ x ∈ p, x ≤ o.clock.current.physical
  /-- Nor is the part of which `UpdateWindow` has made its bound. -/
  window : ∀ upperBound, o.update = .decided upperBound → Begun o.role →
    leads ∧ ∃ q, upperBound = q + defaultUpperBoundWindow ∧ 0 ≤ q ∧ q ≤ o.clock.current.physical ∧
      ∀ x ∈ p, x ≤ q

/-- An oracle that is not the last one does not see the bounds. -/
theorem OracleKeeps.of_not_leads {leads leads' : Prop} {p p' : Option ℤ} {o : BoundOracle}
    (h : OracleKeeps leads p o) (hn : ¬leads) (hn' : ¬leads') : OracleKeeps leads' p' o where
  range := h.range
  loaded := h.loaded
  current := fun hleads => absurd hleads hn'
  window := fun upperBound hu hb => absurd (h.window upperBound hu hb).1 hn

/-- A call of `allocate` that moves forward stays in range and does not go back. -/
theorem allocate_inRange {c c' : Clock} {readings : List ℤ} (h : InRange c.current)
    (hf : c.MovesForward readings) (hr : ∀ now ∈ readings, now < 2^45)
    (hc : c.allocate readings = some c') :
    InRange c'.current ∧ c.current.physical ≤ c'.current.physical := by
  obtain ⟨h0, h45, hl⟩ := h
  have hle : c.current.physical ≤ c'.current.physical := by
    rcases hf.lt hc with hlt | ⟨heq, -⟩
    · exact le_of_lt hlt
    · exact le_of_eq heq
  refine ⟨⟨le_trans h0 hle, ?_⟩, hle⟩
  cases readings with
  | nil => simp [Clock.allocate] at hc
  | cons now readings =>
    obtain ⟨-, ⟨-, r, hw, hcur⟩ | ⟨-, r, hmem, -, hcur⟩ | ⟨-, -, hmax, hcur⟩⟩ :=
      Clock.allocate_cases hc
    · rw [hcur]
      exact ⟨hr _ (List.mem_cons_of_mem _ (waitFor_spec hw).2), by norm_num⟩
    · rw [hcur]
      exact ⟨hr r hmem, by norm_num⟩
    · rw [hcur]
      unfold MAX_LOGICAL LOGICAL_BITS at hmax
      exact ⟨h45, by simp only [TimeStamp.incr]; omega⟩

/-- A call of `allocate` keeps what an oracle keeps. -/
theorem OracleKeeps.allocate {leads : Prop} {p : Option ℤ} {o : BoundOracle} {readings : List ℤ}
    {clock : Clock} (h : OracleKeeps leads p o) (ha : Allocates o readings)
    (hc : o.clock.allocate readings = some clock) : OracleKeeps leads p { o with clock } := by
  obtain ⟨hserving, hf, hr⟩ := ha
  obtain ⟨hrange, hle⟩ := allocate_inRange h.range hf hr hc
  refine ⟨hrange, ?_, ?_, ?_⟩
  · intro hloaded
    have hloaded : o.role = .loaded := hloaded
    rw [hserving] at hloaded
    cases hloaded
  · intro hleads x hx
    exact le_trans (h.current hleads x hx) hle
  · intro upperBound hu hb
    obtain ⟨hleads, q, hq, h0, hqle, hall⟩ := h.window upperBound hu hb
    exact ⟨hleads, q, hq, h0, le_trans hqle hle, hall⟩

/-- The entry under `persistentKey` for an upper bound. -/
def boundEntry (upperBound : ℤ) : Entry := .value (uint64ToBytes (upperBound % 2^64).toNat) 0

/-- The state of the log, when the last bound that was applied is that of the physical part in `p`, if there
is one. -/
structure BoundInv (s : BoundLog ν) (p : Option ℤ) : Prop where
  /-- No version is above the last commit timestamp. -/
  versions : ∀ x ∈ s.store, x.ts ≤ s.last
  /-- The bound is what is stored. -/
  entry : (Versions.newest s.store persistentKey s.last).map Version.val =
    p.map fun x => boundEntry (x + defaultUpperBoundWindow)
  /-- Its part is in range, and not above the last commit timestamp. -/
  range : ∀ x ∈ p, 0 ≤ x ∧ x < 2^45 ∧ x.toNat * 2^18 ≤ s.last
  /-- What the oracles keep. -/
  oracles : ∀ i, OracleKeeps (s.leader = some i) p (s.oracles i)

variable {M : Merge} {s t : BoundLog ν} {a : BoundAction ν} {p : Option ℤ} {i : ν}

/-- One of the oracles changes, and keeps what it has to. -/
theorem BoundInv.setOracle (h : BoundInv s p) {o : BoundOracle}
    (ho : OracleKeeps (s.leader = some i) p o) : BoundInv (s.setOracle i o) p where
  versions := h.versions
  entry := h.entry
  range := h.range
  oracles := by
    intro j
    by_cases hj : j = i
    · subst hj
      simpa [BoundLog.setOracle] using ho
    · simpa [BoundLog.setOracle, Function.update_of_ne hj] using h.oracles j

omit [DecidableEq ν] in
/-- What it means for a command to be applied. -/
theorem apply_eq_some {env : Env} {c : Command} (h : s.apply M env c = some t) :
    s.last < c.commitTs ∧ ∃ store, Fsm.apply M s.store env c = .ok store ∧
      t = { s with store, last := c.commitTs } := by
  unfold BoundLog.apply at h
  split_ifs at h with hlt
  cases hc : Fsm.apply M s.store env c with
  | error e => simp [hc] at h
  | ok store =>
    rw [hc] at h
    exact ⟨hlt, store, rfl, (Option.some.inj h).symm⟩

omit [DecidableEq ν] in
/-- No version is above the commit timestamp of a command that was just applied. -/
theorem versions_apply {store : Store} {env : Env} {c : Command} (h : ∀ x ∈ s.store, x.ts ≤ s.last)
    (hlt : s.last < c.commitTs) (hc : Fsm.apply M s.store env c = .ok store) :
    ∀ x ∈ store, x.ts ≤ c.commitTs := by
  intro x hx
  rcases Fsm.mem_apply hc hx with ⟨hts, -⟩ | hx
  · exact le_of_eq hts
  · exact le_trans (h x hx) (le_of_lt hlt)

omit [DecidableEq ν] in
/-- A command of a client that leaves the key alone. -/
theorem BoundInv.client (h : BoundInv s p) {env : Env} {c : Command} (hc : ¬c.Touches persistentKey)
    (ht : s.apply M env c = some t) : BoundInv t p := by
  obtain ⟨hlt, store, hstore, rfl⟩ := apply_eq_some ht
  refine ⟨versions_apply h.versions hlt hstore, ?_, ?_, h.oracles⟩
  · -- Between the two commit timestamps there is no version of the key.
    have hvisible : Versions.visible store persistentKey c.commitTs =
        Versions.visible s.store persistentKey s.last := by
      rw [Fsm.visible_apply_of_not_touches hstore hc]
      exact Versions.visible_eq_of_gap (le_of_lt hlt) fun x hx _ _ => h.versions x hx
    show (Versions.newest store persistentKey c.commitTs).map Version.val = _
    rw [Versions.newest_congr hvisible]
    exact h.entry
  · intro x hx
    obtain ⟨h0, h45, hle⟩ := h.range x hx
    exact ⟨h0, h45, le_trans hle (le_of_lt hlt)⟩

/-- A command that sets the bound, alone or in a transaction. -/
def SetsBound (c : Command) (upperBound : ℤ) : Prop :=
  c.body = .single (setBound upperBound) ∨ c.body = .transaction [setBound upperBound]

/-- It installs the bound at its commit timestamp. -/
theorem apply_setsBound {env : Env} {c : Command} {upperBound : ℤ} (h : SetsBound c upperBound)
    (db : Store) :
    Fsm.apply M db env c = .ok (Versions.install db c.commitTs
      [(persistentKey, boundEntry upperBound)]) := by
  have hkey : BTxn.checkKey persistentKey = .ok () := by decide
  have hset : ∀ txn : BTxn, Fsm.applySub M env txn (setBound upperBound) =
      .ok (txn.withWrite persistentKey (boundEntry upperBound)) := by
    intro txn
    show txn.modify persistentKey (boundEntry upperBound) = _
    rw [BTxn.modify_eq, hkey]
    rfl
  rw [Fsm.apply_eq_newTransactionAt]
  unfold Store.newTransactionAt
  dsimp only
  rcases h with h | h
  · have hperform : Fsm.perform M env (BTxn.newTransactionAt db c.readTs) (.single (setBound upperBound)) =
        Fsm.applySub M env (BTxn.newTransactionAt db c.readTs) (setBound upperBound) := rfl
    rw [h, hperform, hset]
    rfl
  · have hperform : Fsm.perform M env (BTxn.newTransactionAt db c.readTs)
        (.transaction [setBound upperBound]) =
        (Fsm.applySub M env (BTxn.newTransactionAt db c.readTs) (setBound upperBound)).bind .ok := rfl
    rw [h, hperform, hset]
    rfl

/-- A bound that is not below the last one is applied, on an oracle that leads then. -/
theorem BoundInv.applyBound (h : BoundInv s p) {env : Env} {c : Command} {q : ℤ} {o : BoundOracle}
    (hset : SetsBound c (q + defaultUpperBoundWindow)) (hq : 0 ≤ q ∧ q < 2^45)
    (hts : q.toNat * 2^18 ≤ c.commitTs) (ho : OracleKeeps True (some q) o)
    (hothers : ∀ j, j ≠ i → OracleKeeps False (some q) (s.oracles j))
    (ht : ({ s.setOracle i o with leader := some i } : BoundLog ν).apply M env c = some t) :
    BoundInv t (some q) := by
  obtain ⟨hlt, store, hstore, rfl⟩ := apply_eq_some ht
  have hlt : s.last < c.commitTs := hlt
  refine ⟨versions_apply (s := s) h.versions hlt hstore, ?_, ?_, ?_⟩
  · have hstore : Fsm.apply M s.store env c = .ok store := hstore
    rw [apply_setsBound hset] at hstore
    obtain rfl := Except.ok.inj hstore
    show (Versions.newest _ persistentKey c.commitTs).map Version.val = _
    rw [Versions.newest_install (le_refl _)
      (fun x hx _ _ => le_trans (h.versions x hx) (le_of_lt hlt)) (v := boundEntry _)
      (by rw [Versions.latest_cons, if_pos rfl])]
    rfl
  · rintro x ⟨⟩
    exact ⟨hq.1, hq.2, hts⟩
  · intro j
    by_cases hj : j = i
    · subst hj
      simpa [BoundLog.setOracle] using ho
    · have hne : ¬i = j := fun heq => hj heq.symm
      simpa [BoundLog.setOracle, Function.update_of_ne hj, hne] using hothers j hj

omit [DecidableEq ν] in
/-- A bound is not below the last one, where it is made at a timestamp that is applied later. -/
theorem BoundInv.le_of_compose_lt (h : BoundInv s p) {ts : TimeStamp} (hts : InRange ts)
    (hlt : s.last < ts.compose) : ∀ x ∈ p, x ≤ ts.physical := by
  intro x hx
  obtain ⟨h0, -, hle⟩ := h.range x hx
  have hupper := (TimeStamp.compose_bounds hts.1 hts.2.1 hts.2.2).2
  have hp := hts.1
  have hmul : x.toNat * 2^18 < (ts.physical.toNat + 1) * 2^18 := by omega
  have hlt := Nat.lt_of_mul_lt_mul_right hmul
  omega

/-- `StartServing` has read the bound. -/
theorem BoundInv.load (h : BoundInv s p) {now : ℤ} {found : Option ℤ}
    (hr : 0 ≤ now ∧ now < 2^45 ∧ ∀ x ∈ found, x + 1 < 2^45) (ht : s.step M (.load i now found) = some t) :
    BoundInv t p := by
  obtain rfl := Option.some.inj ht
  obtain ⟨h0, h45, hfound⟩ := hr
  refine ⟨h.versions, h.entry, h.range, ?_⟩
  intro j
  by_cases hj : j = i
  · subst hj
    have hnot : ¬(if s.leader = some j then none else s.leader) = some j := by
      split_ifs with hleader
      · simp
      · exact hleader
    have hkeeps : OracleKeeps False p
        { s.oracles j with clock := loaded (s.oracles j).clock now found, role := .loaded } := by
      refine ⟨?_, ?_, fun hf => hf.elim, fun _ _ hb => hb.elim⟩
      · cases found with
        | none => exact ⟨h0, h45, Nat.zero_le _⟩
        | some x =>
          have hx := hfound x rfl
          show InRange (TimeStamp.reset (if now ≤ x then x + 1 else now))
          split_ifs with hle
          · exact ⟨by simp only [TimeStamp.reset]; omega, hx, Nat.zero_le _⟩
          · exact ⟨h0, h45, Nat.zero_le _⟩
      · intro _
        cases found <;> rfl
    simpa [BoundLog.setOracle, hnot] using hkeeps
  · have hkeeps := h.oracles j
    have hiff : (if s.leader = some i then none else s.leader) = some j ↔ s.leader = some j := by
      split_ifs with hleader
      · rw [hleader]
        simp [Ne.symm hj]
      · rfl
    simpa [BoundLog.setOracle, Function.update_of_ne hj, hiff] using hkeeps

/-- The first bound of a term is applied, while no `UpdateWindow` runs. -/
theorem BoundInv.persist (h : BoundInv s p) {env : Env} (hidle : ∀ j, (s.oracles j).update = .idle)
    (ht : s.persist M i env = some t) : ∃ q, BoundInv t (some q) ∧ ∀ x ∈ p, x ≤ q := by
  unfold BoundLog.persist at ht
  dsimp only at ht
  split_ifs at ht with hloaded
  have hkeeps := h.oracles i
  have hzero := hkeeps.loaded hloaded
  obtain ⟨h0, h45, -⟩ := hkeeps.range
  set current := (s.oracles i).clock.current.incr with hcurrent
  have hrange : InRange current := ⟨h0, h45, by simp [hcurrent, TimeStamp.incr, hzero]⟩
  refine ⟨current.physical, h.applyBound (.inl rfl) ⟨h0, h45⟩ ?_ ?_ ?_ ht, ?_⟩
  · exact (TimeStamp.compose_bounds hrange.1 hrange.2.1 hrange.2.2).1
  · refine ⟨hrange, fun hrole => ?_, ?_, fun upperBound hu _ => ?_⟩
    · cases hrole
    · rintro - x ⟨⟩
      exact le_refl _
    · have hu : (s.oracles i).update = .decided upperBound := hu
      rw [hidle i] at hu
      cases hu
  · intro j _
    refine ⟨(h.oracles j).range, (h.oracles j).loaded, fun hf => hf.elim, fun upperBound hu => ?_⟩
    rw [hidle j] at hu
    cases hu
  · exact h.le_of_compose_lt hrange (apply_eq_some ht).1

/-- `persistUpperboundOnStartup` saves the bound. -/
theorem BoundInv.persisted (h : BoundInv s p) (ht : s.step M (.persisted i) = some t) :
    BoundInv t p := by
  have hkeeps := h.oracles i
  simp only [BoundLog.step] at ht
  split at ht
  · next upperBound hrole =>
    obtain rfl := Option.some.inj ht
    refine h.setOracle ⟨hkeeps.range, (fun hr => nomatch hr), hkeeps.current, fun b hu _ => ?_⟩
    exact hkeeps.window b hu (by rw [hrole]; trivial)
  · cases ht

/-- The first critical section of `UpdateWindow`, on the last node. -/
theorem BoundInv.readWindow (h : BoundInv s p) (hleads : s.leader = some i)
    (ht : s.readWindow i = some t) : BoundInv t p := by
  have hkeeps := h.oracles i
  unfold BoundLog.readWindow at ht
  dsimp only at ht
  split_ifs at ht
  cases hb : (s.oracles i).clock.nextUpperBound with
  | none =>
    rw [hb] at ht
    obtain rfl := Option.some.inj ht
    exact h
  | some upperBound =>
    rw [hb] at ht
    obtain rfl := Option.some.inj ht
    refine h.setOracle ⟨hkeeps.range, hkeeps.loaded, hkeeps.current, ?_⟩
    rintro b ⟨⟩ -
    unfold Clock.nextUpperBound at hb
    dsimp only at hb
    split_ifs at hb
    obtain rfl := Option.some.inj hb
    exact ⟨hleads, _, rfl, hkeeps.range.1, le_refl _, hkeeps.current hleads⟩

/-- What it means for the transaction of `UpdateWindow` to get its commit timestamp. -/
theorem allocateWindow_eq_some {o o' : BoundOracle} {readings : List ℤ} {upperBound : ℤ}
    (h : allocateWindow o readings = some (upperBound, o')) :
    o.update = .decided upperBound ∧ ∃ clock, o.clock.allocate readings = some clock ∧
      o' = { o with clock, update := .proposed upperBound } := by
  unfold allocateWindow at h
  split at h
  · next upperBound' hu =>
    obtain ⟨clock, hc, heq⟩ := Option.map_eq_some_iff.mp h
    obtain ⟨rfl, rfl⟩ := Prod.mk.inj heq
    exact ⟨hu, clock, hc, rfl⟩
  · cases h

/-- An oracle whose `UpdateWindow` has not decided on a bound. -/
theorem OracleKeeps.withUpdate {leads : Prop} {o : BoundOracle} {u : Update}
    (h : OracleKeeps leads p o) (hu : ∀ upperBound, u ≠ .decided upperBound) :
    OracleKeeps leads p { o with update := u } :=
  ⟨h.range, h.loaded, h.current, fun upperBound hu' => absurd hu' (hu upperBound)⟩

/-- The command of `UpdateWindow` is applied. -/
theorem BoundInv.commitWindow (h : BoundInv s p) {env : Env} {readTs : ℕ} {readings : List ℤ}
    (ha : Allocates (s.oracles i) readings)
    (ht : s.step M (.commitWindow i env readTs readings) = some t) :
    ∃ q, BoundInv t (some q) ∧ ∀ x ∈ p, x ≤ q := by
  obtain ⟨⟨upperBound, o⟩, hx, ht⟩ := Option.bind_eq_some_iff.mp ht
  obtain ⟨hu, clock, hc, rfl⟩ := allocateWindow_eq_some hx
  have hkeeps := h.oracles i
  have hbegun : Begun (s.oracles i).role := by
    rw [ha.1]
    trivial
  obtain ⟨hleads, q, rfl, h0, hq, hall⟩ := hkeeps.window upperBound hu hbegun
  obtain ⟨hrange, hle⟩ := allocate_inRange hkeeps.range ha.2.1 ha.2.2 hc
  refine ⟨q, h.applyBound (i := i) (.inr rfl) ⟨h0, lt_of_le_of_lt hq hkeeps.range.2.1⟩ ?_ ?_ ?_
    (by rw [← hleads]; exact ht), hall⟩
  · have hlower := (TimeStamp.compose_bounds hrange.1 hrange.2.1 hrange.2.2).1
    have hmono : q.toNat * 2^18 ≤ clock.current.physical.toNat * 2^18 :=
      Nat.mul_le_mul_right _ (Int.toNat_le_toNat (le_trans hq hle))
    exact le_trans hmono hlower
  · refine ⟨hrange, (hkeeps.allocate ha hc).loaded, ?_, fun _ hb => nomatch hb⟩
    rintro - x ⟨⟩
    exact le_trans hq hle
  · intro j hj
    have hnot : ¬s.leader = some j := by
      rw [hleads]
      simp [Ne.symm hj]
    exact (h.oracles j).of_not_leads hnot id

/-- One step keeps the bound or raises it. -/
theorem BoundInv.step (h : BoundInv s p) (ha : s.Reserved a) (ht : s.step M a = some t) :
    ∃ p', BoundInv t p' ∧ ∀ x ∈ p, ∃ y ∈ p', x ≤ y := by
  -- Most steps leave the bound as it is.
  have same : BoundInv t p → ∃ p', BoundInv t p' ∧ ∀ x ∈ p, ∃ y ∈ p', x ≤ y :=
    fun h' => ⟨p, h', fun x hx => ⟨x, hx, le_refl x⟩⟩
  have raised : (∃ q, BoundInv t (some q) ∧ ∀ x ∈ p, x ≤ q) →
      ∃ p', BoundInv t p' ∧ ∀ x ∈ p, ∃ y ∈ p', x ≤ y := by
    rintro ⟨q, h', hq⟩
    exact ⟨some q, h', fun x hx => ⟨q, rfl, hq x hx⟩⟩
  cases a with
  | client env c => exact same (h.client ha ht)
  | load i now found => exact same (h.load ha ht)
  | persist i env => exact raised (h.persist ha ht)
  | persisted i => exact same (h.persisted ht)
  | allocate i readings =>
    obtain ⟨clock, hc, rfl⟩ := Option.map_eq_some_iff.mp ht
    exact same (h.setOracle ((h.oracles i).allocate ha hc))
  | readWindow i => exact same (h.readWindow ha ht)
  | commitWindow i env readTs readings => exact raised (h.commitWindow ha ht)
  | loseWindow i readings =>
    obtain ⟨⟨upperBound, o⟩, hx, rfl⟩ := Option.map_eq_some_iff.mp ht
    obtain ⟨-, clock, hc, rfl⟩ := allocateWindow_eq_some hx
    exact same (h.setOracle (((h.oracles i).allocate ha hc).withUpdate (by simp)))
  | saveWindow i =>
    have hkeeps := h.oracles i
    simp only [BoundLog.step] at ht
    split at ht
    · obtain rfl := Option.some.inj ht
      refine same (h.setOracle ⟨hkeeps.range, hkeeps.loaded, hkeeps.current, ?_⟩)
      exact fun _ hu => nomatch hu
    · cases ht
  | updateFailed i =>
    obtain rfl := Option.some.inj ht
    exact same (h.setOracle ((h.oracles i).withUpdate (by simp)))

/-- A whole run keeps the bound or raises it. -/
theorem exists_boundInv (h : BoundInv s p) (ht : Reaches (step M) Reserved s t) :
    ∃ p', BoundInv t p' ∧ ∀ x ∈ p, ∃ y ∈ p', x ≤ y := by
  refine ht.invariant (I := fun t => ∃ p', BoundInv t p' ∧ ∀ x ∈ p, ∃ y ∈ p', x ≤ y) ?_ ?_
  · exact ⟨p, h, fun x hx => ⟨x, hx, le_refl x⟩⟩
  · rintro t a u ⟨p', h', hle⟩ hc hstep
    obtain ⟨p'', h'', hle'⟩ := h'.step hc hstep
    refine ⟨p'', h'', fun x hx => ?_⟩
    obtain ⟨y, hy, hxy⟩ := hle x hx
    obtain ⟨z, hz, hyz⟩ := hle' y hy
    exact ⟨z, hz, le_trans hxy hyz⟩

omit [DecidableEq ν] in
/-- The bound that is visible is the one that is stored, at any time. -/
theorem BoundInv.lastTimestamp_eq (h : BoundInv s p) (now : ℤ) :
    s.lastTimestamp now = p.map fun x => (x + defaultUpperBoundWindow).toNat := by
  unfold BoundLog.lastTimestamp
  rw [lookup_newTransactionAt, h.entry]
  cases p with
  | none => rfl
  | some x =>
    obtain ⟨h0, h45, -⟩ := h.range x rfl
    show bytesToUint64 (uint64ToBytes _) = _
    rw [bytesToUint64_uint64ToBytes]
    unfold defaultUpperBoundWindow
    simp only [Option.map_some, Option.some.injEq]
    omega

/-- The log before its first command, with oracles that have not started. -/
structure Starts (s : BoundLog ν) : Prop where
  /-- The store is empty. -/
  store : s.store = []
  /-- No oracle has started. -/
  oracles : ∀ i, s.oracles i = ⟨⟨⟨0, 0⟩, ⟨0, 0⟩⟩, .follower, .idle⟩
  /-- There is no startup bound. -/
  leader : s.leader = none

omit [DecidableEq ν] in
/-- There is no bound then. -/
theorem Starts.boundInv (h : Starts s) : BoundInv s none where
  versions := by simp [h.store]
  entry := by
    rw [h.store]
    rfl
  range := by simp
  oracles := by
    intro i
    rw [h.oracles i]
    exact ⟨⟨le_refl _, by norm_num, Nat.zero_le _⟩, (fun hr => nomatch hr), by simp, by simp⟩

/-- In every run in which the clients leave `persistentKey` alone, startup bounds are applied while no
`UpdateWindow` runs, `UpdateWindow` runs on the node that has started last, and the clocks do not step back in
`allocate`: a bound that is visible stays visible from then on, at any time, and does not decrease. -/
theorem bound_grows {u : BoundLog ν} {v : ℕ} {now now' : ℤ} (h₀ : Starts s)
    (ht : Reaches (step M) Reserved s t) (hu : Reaches (step M) Reserved t u)
    (hv : t.lastTimestamp now = some v) : ∃ v', u.lastTimestamp now' = some v' ∧ v ≤ v' := by
  obtain ⟨p, hp, -⟩ := exists_boundInv h₀.boundInv ht
  obtain ⟨p', hp', hle⟩ := exists_boundInv hp hu
  rw [hp.lastTimestamp_eq] at hv
  obtain ⟨x, hx, rfl⟩ := Option.map_eq_some_iff.mp hv
  obtain ⟨y, hy, hxy⟩ := hle x hx
  refine ⟨(y + defaultUpperBoundWindow).toNat, ?_, ?_⟩
  · rw [hp'.lastTimestamp_eq, hy]
    rfl
  · exact Int.toNat_le_toNat (by omega)

/-- The empty log of a node. -/
def emptyLog : BoundLog Unit := ⟨[], 0, fun _ => ⟨⟨⟨0, 0⟩, ⟨0, 0⟩⟩, .follower, .idle⟩, none⟩

/-- It is at the start. -/
theorem starts_emptyLog : Starts emptyLog := ⟨rfl, fun _ => rfl, rfl⟩

/-- The node starts at millisecond 1000. -/
def startAt1000 : List (BoundAction Unit) :=
  [.load () 1000 none, .persist () someEnv, .persisted ()]

/-- The log after this. -/
def afterStartAt1000 : BoundLog Unit :=
  final (guarded (step rejectDeltas) Reserved) emptyLog startAt1000 (by decide +kernel)

/-- A client sets its key in millisecond 1500, and the window is updated. -/
def updateAt1500 : List (BoundAction Unit) :=
  [.allocate () [1500], .client someEnv ⟨262144001, 393216001, .single (.set [107] [1] none)⟩,
    .readWindow (), .commitWindow () someEnv 393216001 [1600], .saveWindow ()]

/-- The log after this. -/
def afterUpdateAt1500 : BoundLog Unit :=
  final (guarded (step rejectDeltas) Reserved) afterStartAt1000 updateAt1500 (by decide +kernel)

/-- The bound is 3000 at first, and 3500 after the update. -/
theorem bound_grows_update :
    afterStartAt1000.lastTimestamp 0 = some 3000 ∧ afterUpdateAt1500.lastTimestamp 0 = some 3500 ∧
      ∃ v', afterUpdateAt1500.lastTimestamp 0 = some v' ∧ 3000 ≤ v' :=
  have hv : afterStartAt1000.lastTimestamp 0 = some 3000 := by decide +kernel
  ⟨hv, by decide +kernel,
    bound_grows starts_emptyLog (Reaches.final _) (Reaches.final _) hv⟩

/-- The node starts once more, at millisecond 5000, while an `UpdateWindow` of its first term runs, and the
command of that one is applied then. -/
def staleWindow : List (BoundAction Unit) :=
  List.flatten [startAt1000, [.allocate () [1500], .readWindow ()],
    [.load () 5000 (some 3000), .persist () someEnv, .persisted ()]]

/-- A client that deletes all keys removes the bound, and an `UpdateWindow` that commits in a later term
than the one in which it has read the clock lowers it. -/
theorem bound_not_grows :
    ((run (step rejectDeltas) emptyLog startAt1000).map fun s => s.lastTimestamp 0) =
        some (some 3000) ∧
      ((run (step rejectDeltas) emptyLog (startAt1000 ++
        [.client someEnv ⟨262144001, 262144002, .single (.deleteByPrefix [])⟩])).map fun s =>
          s.lastTimestamp 0) = some none ∧
      ((run (step rejectDeltas) emptyLog staleWindow).map fun s => s.lastTimestamp 0) =
        some (some 7000) ∧
      ((run (step rejectDeltas) emptyLog (staleWindow ++
        [.commitWindow () someEnv 1310720001 [5001]])).map fun s => s.lastTimestamp 0) =
        some (some 3500) := by
  decide +kernel

end BoundLog

end Omashu
