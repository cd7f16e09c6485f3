import Omashu.Leader.System

/-!
# The pruned conflict check is the full one

`newCommitTs` checks a transaction against the records that `cleanupCommittedTransactions` has left.
The cleanup removes the records at or below the bound of the pending reads. `readers` is a set, so a
`Done` of that watermark is not issued for every transaction of a read timestamp, and `Begin` is
issued outside the lock. What holds while the oracle serves (`ReadsCounted`) is that the count of a read
timestamp is at least the number of calls that hold a pending read of it, and so the bound never passes
such a call: throughout a term every record above its read timestamp is still there (`OracleInv`).

A `Discard` after a successful commit does not disturb the counts. The commit has taken the timestamp
from the readers, and later calls of `ReadTs` get a greater one (`ReadsCounted.released`).
-/

namespace Omashu

open Lib

/-- The call has begun a pending read and has neither committed nor discarded it. -/
def Call.holds (c : Call) : Bool :=
  match c.phase with
  | .begun => true
  | .running => !c.txn.discarded
  | .leaving (.failed _) => !c.txn.discarded
  | _ => false

/-- The call has its commit timestamp, and may still run `Discard`. -/
def Call.Released (c : Call) : Prop := c.phase = .stamped ∨ c.phase = .leaving .committed

/-- A transaction with its read timestamp that is neither committed nor discarded. -/
def Call.InFlight (c : Call) : Prop := c.phase = .recorded ∨ c.holds = true

instance (c : Call) : Decidable c.InFlight := inferInstanceAs (Decidable (_ ∨ _))

/-- The call that may give its pending read back in a step. -/
def Action.givesBack {ι : Type*} : Action ι → Option ι
  | .waitErr i | .discard i | .commit i _ => some i
  | _ => none

namespace Leader

variable {ι : Type*}

/-- The leader at the start of a term whose first timestamp is `start`. The oracle may have records
and readers left from earlier terms, the log may have entries that are not applied yet. -/
structure TermStart (start : ℕ) (s : Leader ι) : Prop where
  /-- No call has begun. -/
  idle : ∀ i, (s.calls i).phase = .idle
  /-- The current timestamp is the first of the term. -/
  current : s.tso.currentReadTs = start
  /-- Nothing is pending in the watermark of reads. -/
  readMark : s.tso.readMark = WaterMark.setDoneUntil start
  /-- Nothing is pending in the watermark of commits. -/
  txnMark : s.tso.txnMark = WaterMark.setDoneUntil start
  /-- The records are from before the term. -/
  committedTxns : ∀ c ∈ s.tso.committedTxns, c.ts ≤ start
  /-- The log is from before the term. -/
  log : ∀ e ∈ s.log, e.id = none ∧ e.command.commitTs ≤ start
  /-- No more is applied than the log has. -/
  applied : s.applied ≤ s.log.length
  /-- No commit timestamp has been handed out. -/
  history : s.history = []

/-- A leader that has just started to serve, with nothing left from earlier terms but its store. -/
def serving (clock : Clock) (store : Store) : Leader ι where
  tso := {
    toClock := clock
    txnMark := WaterMark.setDoneUntil clock.current.compose
    readMark := WaterMark.setDoneUntil clock.current.compose
    readers := ∅
    lastCleanupTs := 0
    committedTxns := [] }
  writeChLock := none
  calls := fun _ => ⟨.single, .idle, Txn.beginTxn 0 true, []⟩
  log := []
  applied := 0
  store := store
  exited := false
  loopStopped := false
  history := []

/-- Such a leader is at the start of a term. -/
theorem termStart_serving (clock : Clock) (store : Store) :
    TermStart clock.current.compose (serving clock store : Leader ι) where
  idle _ := rfl
  current := rfl
  readMark := rfl
  txnMark := rfl
  committedTxns := by simp [serving]
  log := by simp [serving]
  applied := le_refl _
  history := rfl

/-- `allocate` returns a greater timestamp than before. -/
def AllocatesForward (s : Leader ι) : Action ι → Prop
  | .commit _ readings => s.tso.toClock.Advances readings
  | _ => True

instance (s : Leader ι) : (a : Action ι) → Decidable (s.AllocatesForward a)
  | .commit _ readings => inferInstanceAs (Decidable (s.tso.toClock.Advances readings))
  | .beginTxn .. | .markRead _ | .waitOk _ | .waitErr _ | .read .. | .write .. | .fail ..
  | .discard _ | .doneCommit _ | .propose _ | .ack _ | .timeout _ | .apply _ | .saveBound _ =>
    inferInstanceAs (Decidable True)

variable [Fintype ι]

/-- How many calls hold a pending read of a timestamp. -/
def holders (s : Leader ι) (r : ℕ) : ℕ :=
  (Finset.univ.filter fun i => (s.calls i).holds = true ∧ (s.calls i).txn.readTs = r).card

/-- What the watermark of reads keeps while the oracle serves. -/
structure ReadsCounted (s : Leader ι) : Prop where
  /-- The watermark counts every call that holds a pending read. -/
  held : ∀ r, (s.holders r : ℤ) ≤ s.tso.readMark.count r
  /-- The timestamp of a call that has committed is not among the readers, and will not be again. -/
  released : ∀ i, (s.calls i).Released →
    (s.calls i).txn.readTs ∉ s.tso.readers ∧ (s.calls i).txn.readTs < s.tso.currentReadTs
  /-- The read timestamp of a transaction in flight is not above the current one. -/
  inFlight : ∀ i, (s.calls i).InFlight → (s.calls i).txn.readTs ≤ s.tso.currentReadTs

/-- What the oracle keeps throughout a term. -/
structure OracleInv (start : ℕ) (s : Leader ι) : Prop extends ReadsCounted s where
  /-- The records above the bound of the pending reads are all there. -/
  kept : ∀ h ∈ s.history, s.tso.readMark.doneUntil < h.ts →
    ⟨h.ts, h.conflictKeys⟩ ∈ s.tso.committedTxns
  /-- A record is from before the term or from its history. -/
  known : ∀ c ∈ s.tso.committedTxns, c.ts ≤ start ∨ ∃ h ∈ s.history, c = ⟨h.ts, h.conflictKeys⟩
  /-- Read timestamps are from this term. -/
  readTs_mem : ∀ i, (s.calls i).phase ≠ .idle →
    start ≤ (s.calls i).txn.readTs ∧ (s.calls i).txn.readTs ≤ s.tso.currentReadTs
  /-- The clock is not below the start of the term. -/
  start_le : start ≤ s.tso.currentReadTs

variable {start : ℕ} {M : Merge} {s t : Leader ι}

/-- Without a transaction in flight, and with nothing pending, the pending reads are counted. -/
theorem readsCounted_of_quiet {u : ℕ} (hflight : ∀ i, ¬(s.calls i).InFlight)
    (hrel : ∀ i, ¬(s.calls i).Released) (hmark : s.tso.readMark = WaterMark.setDoneUntil u) :
    s.ReadsCounted where
  held r := by
    have hcount : s.tso.readMark.count r = 0 := by
      rw [hmark]
      rfl
    have hnone : s.holders r = 0 := by
      unfold holders
      rw [Finset.card_eq_zero, Finset.filter_eq_empty_iff]
      exact fun i _ hi => hflight i (.inr hi.1)
    rw [hcount, hnone]
    rfl
  released i hi := absurd hi (hrel i)
  inFlight i hi := absurd hi (hflight i)

/-- At the start of a term the invariant holds. -/
theorem TermStart.oracleInv (h : TermStart start s) : OracleInv start s := by
  have hquiet : s.ReadsCounted := by
    refine readsCounted_of_quiet (fun i hi => ?_) (fun i hi => ?_) h.readMark
    · simp [Call.InFlight, Call.holds, h.idle i] at hi
    · simp [Call.Released, h.idle i] at hi
  exact {
    toReadsCounted := hquiet
    kept := by simp [h.history]
    known := fun c hc => .inl (h.committedTxns c hc)
    readTs_mem := fun i hi => absurd (h.idle i) hi
    start_le := le_of_eq h.current.symm }

/-! ## Counting the holders -/

/-- The holders of a timestamp after one call is replaced. -/
theorem holders_setCall [DecidableEq ι] (s : Leader ι) (i : ι) (c : Call) (r : ℕ) :
    (s.setCall i c).holders r +
        (if (s.calls i).holds = true ∧ (s.calls i).txn.readTs = r then 1 else 0) =
      s.holders r + (if c.holds = true ∧ c.txn.readTs = r then 1 else 0) :=
  card_filter_update s.calls i c fun c => c.holds = true ∧ c.txn.readTs = r

/-- The holders after a call begins or ends to hold its pending read. -/
theorem holders_of_readTs [DecidableEq ι] {i : ι} {c : Call} {d : ℤ}
    (hc : c.txn.readTs = (s.calls i).txn.readTs)
    (hd : (if c.holds = true then (1 : ℤ) else 0) = (if (s.calls i).holds = true then (1 : ℤ) else 0) + d)
    (r : ℕ) : ((s.setCall i c).holders r : ℤ) =
      s.holders r + if r = (s.calls i).txn.readTs then d else 0 := by
  have hset := holders_setCall s i c r
  rw [hc] at hset
  by_cases hr : (s.calls i).txn.readTs = r
  · simp only [hr, and_true, if_true] at hset ⊢
    split_ifs at hd hset with h1 h2 <;> omega
  · simp only [hr, Ne.symm hr, and_false, if_false] at hset ⊢
    omega

/-- A call that holds a pending read is counted. -/
theorem holders_pos {i : ι} (h : (s.calls i).holds = true) :
    0 < s.holders (s.calls i).txn.readTs := by
  apply Finset.card_pos.mpr
  exact ⟨i, by simp [h]⟩

/-- The bound of the pending reads never passes a call that holds one. -/
theorem ReadsCounted.doneUntil_le (hI : s.ReadsCounted) {i : ι} (h : (s.calls i).holds = true) :
    s.tso.readMark.doneUntil ≤ (s.calls i).txn.readTs := by
  apply WaterMark.doneUntil_le_of_count_pos
  have hheld := hI.held (s.calls i).txn.readTs
  have hpos := holders_pos h
  omega

/-- A mark keeps counting the holders, where it changes the count as their number changes. -/
theorem ReadsCounted.held_mark (hI : s.ReadsCounted) {r : ℕ} {d : ℤ} {m : WaterMark}
    (hm : s.tso.readMark.mark r d = some m)
    (hh : ∀ r', (t.holders r' : ℤ) ≤ s.holders r' + if r' = r then d else 0) (r' : ℕ) :
    (t.holders r' : ℤ) ≤ m.count r' := by
  have hheld := hI.held r'
  have hle := hh r'
  rw [WaterMark.count_mark hm (by omega)]
  omega

/-! ## Steps that leave the pending reads as they are -/

/-- The call reads at the same timestamp, and holds and may release no more than before. -/
structure Weaker (c' c : Call) : Prop where
  /-- The read timestamp stays. -/
  readTs : c'.txn.readTs = c.txn.readTs
  /-- A call that has begun had begun. -/
  idle : c'.phase ≠ .idle → c.phase ≠ .idle
  /-- A call that holds a pending read held it. -/
  holds : c'.holds = true → c.holds = true
  /-- A call that has committed had committed. -/
  released : c'.Released → c.Released

/-- The call is weaker, and has called `readMark.Begin` if it had before. -/
structure Milder (c' c : Call) : Prop extends Weaker c' c where
  /-- A call before `readMark.Begin` was there before. -/
  recorded : c'.phase = .recorded → c.phase = .recorded

/-- A call that stays as it is. -/
theorem Milder.refl (c : Call) : Milder c c := ⟨⟨rfl, id, id, id⟩, id⟩

/-- A transaction in flight was in flight. -/
theorem Milder.inFlight {c' c : Call} (h : Milder c' c) (hc : c'.InFlight) : c.InFlight :=
  hc.imp h.recorded h.holds

omit [Fintype ι] in
/-- Replacing one call by a milder one. -/
theorem milder_setCall [DecidableEq ι] {i : ι} {c : Call} (h : Milder c (s.calls i)) (j : ι) :
    Milder ((s.setCall i c).calls j) (s.calls j) :=
  rel_setCall Milder.refl h j

/-- A step keeps the pending reads counted if it leaves the current timestamp, the watermark and the
readers as they are and makes every call milder. -/
theorem ReadsCounted.of_milder (hI : s.ReadsCounted) (hw : ∀ j, Milder (t.calls j) (s.calls j))
    (hcur : t.tso.current = s.tso.current) (hmark : t.tso.readMark = s.tso.readMark)
    (hreaders : t.tso.readers = s.tso.readers) : t.ReadsCounted := by
  have hts : t.tso.currentReadTs = s.tso.currentReadTs := by
    unfold Tso.currentReadTs
    rw [hcur]
  have hcount : ∀ r, t.holders r ≤ s.holders r := by
    intro r
    apply Finset.card_le_card
    intro j hj
    simp only [Finset.mem_filter, Finset.mem_univ, true_and] at hj ⊢
    exact ⟨(hw j).holds hj.1, (hw j).readTs ▸ hj.2⟩
  constructor
  · intro r
    rw [hmark]
    exact le_trans (by exact_mod_cast hcount r) (hI.held r)
  · intro j hj
    rw [(hw j).readTs, hreaders, hts]
    exact hI.released j ((hw j).released hj)
  · intro j hj
    rw [(hw j).readTs, hts]
    exact hI.inFlight j ((hw j).inFlight hj)

/-! ## Steps that change them -/

variable [DecidableEq ι] {i : ι}

/-- The calls that have committed, after one call is replaced. The readers may get the current
timestamp, which is above what those calls read at. -/
theorem ReadsCounted.released_setCall (hI : s.ReadsCounted) {c : Call} {readers : Finset ℕ} {cur : ℕ}
    (hreaders : ∀ r ∈ readers, r < s.tso.currentReadTs → r ∈ s.tso.readers)
    (hcur : s.tso.currentReadTs ≤ cur)
    (hc : c.Released → c.txn.readTs ∉ readers ∧ c.txn.readTs < cur) :
    ∀ j, ((s.setCall i c).calls j).Released →
      ((s.setCall i c).calls j).txn.readTs ∉ readers ∧ ((s.setCall i c).calls j).txn.readTs < cur := by
  apply (Function.forall_update_iff s.calls
    fun _ c => c.Released → c.txn.readTs ∉ readers ∧ c.txn.readTs < cur).mpr
  refine ⟨hc, fun j _ hj => ?_⟩
  obtain ⟨hmem, hlt⟩ := hI.released j hj
  exact ⟨fun hr => hmem (hreaders _ hr hlt), lt_of_lt_of_le hlt hcur⟩

/-- The transactions in flight after one call is replaced. -/
theorem ReadsCounted.inFlight_setCall (hI : s.ReadsCounted) {c : Call} {cur : ℕ}
    (hcur : s.tso.currentReadTs ≤ cur) (hc : c.InFlight → c.txn.readTs ≤ cur) :
    ∀ j, ((s.setCall i c).calls j).InFlight → ((s.setCall i c).calls j).txn.readTs ≤ cur := by
  apply (Function.forall_update_iff s.calls fun _ c => c.InFlight → c.txn.readTs ≤ cur).mpr
  exact ⟨hc, fun j _ hj => (hI.inFlight j hj).trans hcur⟩

/-- A call gets its read timestamp. -/
theorem ReadsCounted.beginTxn (hI : s.ReadsCounted) (kind : Kind) :
    ReadsCounted { s.setCall i ⟨kind, .recorded, Txn.beginTxn s.tso.currentReadTs true, []⟩ with
      tso := { s.tso with readers := insert s.tso.currentReadTs s.tso.readers } } := by
  constructor
  · intro r
    have hcount := holders_setCall s i ⟨kind, .recorded, Txn.beginTxn s.tso.currentReadTs true, []⟩ r
    simp only [Bool.false_eq_true, false_and, if_false, Call.holds] at hcount
    have hheld := hI.held r
    show ((Leader.holders (s.setCall i _) r : ℕ) : ℤ) ≤ s.tso.readMark.count r
    omega
  · refine hI.released_setCall (fun r hr hlt => ?_) le_rfl fun hrel => by simp [Call.Released] at hrel
    exact (Finset.mem_insert.mp hr).resolve_left (ne_of_lt hlt)
  · exact hI.inFlight_setCall le_rfl fun _ => le_rfl

/-- The pending reads are marked as a call begins or ends to hold one. The readers do not grow, and
the call reads at the same timestamp. -/
theorem ReadsCounted.of_mark (hI : s.ReadsCounted) {d : ℤ} {m : WaterMark} {c : Call}
    {readers : Finset ℕ} (hm : s.tso.readMark.mark (s.calls i).txn.readTs d = some m)
    (hc : c.txn.readTs = (s.calls i).txn.readTs) (hflight : (s.calls i).InFlight)
    (hrel : ¬c.Released) (hreaders : readers ⊆ s.tso.readers)
    (hd : (if c.holds = true then (1 : ℤ) else 0) =
      (if (s.calls i).holds = true then (1 : ℤ) else 0) + d) :
    ReadsCounted { s.setCall i c with tso := { s.tso with readMark := m, readers := readers } } := by
  constructor
  · intro r
    show ((Leader.holders (s.setCall i c) r : ℕ) : ℤ) ≤ m.count r
    exact hI.held_mark hm (fun r' => le_of_eq (holders_of_readTs hc hd r')) r
  · exact hI.released_setCall (fun r hr _ => hreaders hr) le_rfl fun h => absurd h hrel
  · exact hI.inFlight_setCall le_rfl fun _ => hc ▸ hI.inFlight i hflight

/-- A transaction gets its commit timestamp, and its read is done. -/
theorem ReadsCounted.stamp (hI : s.ReadsCounted) {readings : List ℤ} {ts : ℕ} {tso : Tso}
    (hf : s.tso.toClock.Advances readings) (hrun : (s.calls i).phase = .running)
    (hd : (s.calls i).txn.discarded = false)
    (hts : s.tso.newCommitTs (s.calls i).txn readings = .ok ts tso) :
    ReadsCounted { s.setCall i { s.calls i with
        phase := .stamped
        txn := { (s.calls i).txn with commitTs := ts } } with
      tso := tso
      writeChLock := some i
      history := s.history ++ [(s.calls i).txn.stamp i ts] } := by
  obtain ⟨-, tso₁, hdone, hclock, -, -, hmark, hreaders, -⟩ := Tso.newCommitTs_ok hts
  obtain ⟨hout, hsub, -, -⟩ := Tso.doneRead_spec hdone
  rw [← hreaders] at hout hsub
  have hlt : s.tso.currentReadTs < tso.currentReadTs := hf _ hclock
  have hholds : (s.calls i).holds = true := by simp [Call.holds, hrun, hd]
  constructor
  · intro r
    have hcount := holders_of_readTs (s := s) (i := i) (d := -1) (c := { s.calls i with
      phase := .stamped
      txn := { (s.calls i).txn with commitTs := ts } }) rfl (by simp [Call.holds, hrun, hd])
    -- One holder less, against one mark less or none.
    show ((Leader.holders (s.setCall i _) r : ℕ) : ℤ) ≤ tso.readMark.count r
    rw [hmark]
    obtain ⟨-, m, hm, rfl⟩ | ⟨-, rfl⟩ := Tso.doneRead_cases hdone
    · exact hI.held_mark hm (fun r' => le_of_eq (hcount r')) r
    · have hheld := hI.held r
      rw [hcount r]
      split_ifs <;> omega
  · exact hI.released_setCall (fun r hr _ => hsub hr) hlt.le
      fun _ => ⟨hout, lt_of_le_of_lt (hI.inFlight i (.inr hholds)) hlt⟩
  · exact hI.inFlight_setCall hlt.le fun hc => by simp [Call.InFlight, Call.holds] at hc

omit [Fintype ι] [DecidableEq ι] in
/-- After `Discard` a transaction is not in flight, and has nothing to release. -/
theorem discarded_milder {c : Call} {p : Phase} (h : phaseAfterDiscard c = some p) :
    Milder { c with phase := p, txn := { c.txn with discarded := true } } c ∧
      ({ c with phase := p, txn := { c.txn with discarded := true } } : Call).holds = false ∧
      ¬({ c with phase := p, txn := { c.txn with discarded := true } } : Call).Released := by
  -- The phases that `Discard` leads to, and where it starts.
  have hphases : c.phase ≠ .idle ∧ p ≠ .recorded ∧ p ≠ .begun ∧ p ≠ .stamped ∧
      ∀ o, p ≠ .leaving o := by
    obtain ⟨hp, rfl⟩ | ⟨hp, rfl⟩ | ⟨e, hp, rfl⟩ := phaseAfterDiscard_cases h
    · simp [hp]
    · split_ifs <;> simp [hp]
    · simp [hp]
  obtain ⟨hidle, hrec, hbegun, hstamped, hleaving⟩ := hphases
  have hholds : ({ c with phase := p, txn := { c.txn with discarded := true } } : Call).holds = false := by
    unfold Call.holds
    split <;> simp_all
  have hrel : ¬({ c with phase := p, txn := { c.txn with discarded := true } } : Call).Released := by
    rintro (hp | hp)
    · exact hstamped hp
    · exact hleaving _ hp
  refine ⟨⟨⟨rfl, fun _ => hidle, fun hc => ?_, fun hc => absurd hc hrel⟩, fun hc => absurd hc hrec⟩,
    hholds, hrel⟩
  rw [hholds] at hc
  exact absurd hc (by simp)

omit [DecidableEq ι] in
/-- A `Discard` that takes its timestamp from the readers is one of a call that holds a pending read: a
call that has committed is not among them. -/
theorem ReadsCounted.holds_of_discard (hI : s.ReadsCounted) {p : Phase}
    (hp : phaseAfterDiscard (s.calls i) = some p) (hd : (s.calls i).txn.discarded = false)
    (hr : (s.calls i).txn.readTs ∈ s.tso.readers) : (s.calls i).holds = true := by
  obtain ⟨hphase, -⟩ | ⟨hphase, -⟩ | ⟨e, hphase, -⟩ := phaseAfterDiscard_cases hp
  · simp [Call.holds, hphase, hd]
  · exact absurd hr (hI.released i (.inr hphase)).1
  · simp [Call.holds, hphase, hd]

/-- A transaction is discarded. -/
theorem ReadsCounted.discard (hI : s.ReadsCounted) {p : Phase} {tso : Tso}
    (hp : phaseAfterDiscard (s.calls i) = some p) (ht : s.discardRead i = some tso) :
    ReadsCounted { s.setCall i { s.calls i with
      phase := p
      txn := { (s.calls i).txn with discarded := true } } with tso := tso } := by
  obtain ⟨hmild, hholds, hrel⟩ := discarded_milder hp
  unfold discardRead at ht
  split_ifs at ht with hd
  · obtain rfl := Option.some.inj ht
    exact hI.of_milder (milder_setCall hmild) rfl rfl rfl
  · obtain ⟨hr, m, hm, rfl⟩ | ⟨-, rfl⟩ := Tso.doneRead_cases ht
    · have hholds' := hI.holds_of_discard hp (by simpa using hd) hr
      exact hI.of_mark hm rfl (.inr hholds') hrel (Finset.erase_subset _ _) (by simp [hholds, hholds'])
    · exact hI.of_milder (milder_setCall hmild) rfl rfl rfl

/-- Every step whose allocation moves forward keeps the pending reads counted. -/
theorem ReadsCounted.step {a : Action ι} (hI : s.ReadsCounted) (hf : s.AllocatesForward a)
    (h : s.step M a = some t) : t.ReadsCounted := by
  -- A call that moves on from a phase in which it holds a pending read.
  have hmild : ∀ (j : ι) (c : Call), c.txn.readTs = (s.calls j).txn.readTs →
      (s.calls j).phase ≠ .idle → (c.holds = true → (s.calls j).holds = true) →
      (c.Released → (s.calls j).Released) → c.phase ≠ .recorded → ∀ k,
      Milder ((s.setCall j c).calls k) (s.calls k) := by
    intro j c hr hidle hh hrel hrec
    exact milder_setCall ⟨⟨hr, fun _ => hidle, hh, hrel⟩, fun hc => absurd hc hrec⟩
  cases effect_of_step h with
  | beginTxn j kind _ => exact hI.beginTxn kind
  | markRead j m hp hm =>
    exact hI.of_mark hm rfl (.inl hp) (by simp [Call.Released]) (Finset.Subset.refl _)
      (by simp [Call.holds, hp])
  | waitErr j m hp hm =>
    exact hI.of_mark hm rfl (.inr (by simp [Call.holds, hp])) (by simp [Call.Released])
      (Finset.Subset.refl _) (by simp [Call.holds, hp])
  | read j q env hp =>
    have hg := Txn.read_grows (s.calls j).txn s.store env q
    exact hI.of_milder (hmild j _ hg.readTs (by simp [hp]) (by simp [Call.holds, hp, hg.discarded])
      (by simp [Call.Released, hp]) (by simp [hp])) rfl rfl rfl
  | write j op env hp hk =>
    have hg := Txn.write_grows (s.calls j).txn s.store env op
    exact hI.of_milder (hmild j _ hg.readTs (by simp [hp]) (by simp [Call.holds, hp, hg.discarded])
      (by simp [Call.Released, hp]) (by simp [hp])) rfl rfl rfl
  | writeErr j op env e hp hk =>
    have hg := Txn.write_grows (s.calls j).txn s.store env op
    exact hI.of_milder (hmild j _ hg.readTs (by simp [hp]) (by simp [Call.holds, hp, hg.discarded])
      (by simp [Call.Released]) (by simp)) rfl rfl rfl
  | discard j p tso hp ht => exact hI.discard hp ht
  | stamp j readings ts tso hp hk hd hl hts => exact hI.stamp hf hp hd hts
  | waitOk j hp _ | failed _ j _ hp | doneCommit j _ hp _ | propose j _ hp _ | unencodable j _ _ hp _ _
  | finish _ j _ hp =>
    exact hI.of_milder (hmild j _ rfl (by simp [hp]) (by simp [Call.holds, hp])
      (by simp [Call.Released, hp]) (by simp)) rfl rfl rfl
  | apply | stop | saveBound | exit => exact hI.of_milder (fun _ => Milder.refl _) rfl rfl rfl

/-! ## Records and read timestamps -/

/-- What a step does to the pending reads: a call marks its own, or gives it back. -/
theorem ReadsCounted.readMark_step {a : Action ι} (hI : s.ReadsCounted) (h : s.step M a = some t) :
    t.tso.readMark = s.tso.readMark ∨
      (∃ i, s.tso.readMark.beginMark (s.calls i).txn.readTs = some t.tso.readMark) ∨
      ∃ i, a.givesBack = some i ∧ (s.calls i).holds = true ∧ (t.calls i).holds = false ∧
        s.tso.readMark.doneMark (s.calls i).txn.readTs = some t.tso.readMark := by
  cases effect_of_step h with
  | markRead i m hp hm => exact .inr (.inl ⟨i, hm⟩)
  | waitErr i m hp hm =>
    exact .inr (.inr ⟨i, rfl, by simp [Call.holds, hp], by simp [setPhase, setCall, Call.holds], hm⟩)
  | discard i p tso hp ht =>
    unfold discardRead at ht
    split_ifs at ht with hd
    · obtain rfl := Option.some.inj ht
      exact .inl rfl
    · obtain ⟨hr, m, hm, rfl⟩ | ⟨-, rfl⟩ := Tso.doneRead_cases ht
      · refine .inr (.inr ⟨i, rfl, hI.holds_of_discard hp (by simpa using hd) hr, ?_, hm⟩)
        simpa [setCall] using (discarded_milder hp).2.1
      · exact .inl rfl
  | stamp i readings ts tso hp hk hd hl hts =>
    obtain ⟨-, tso₁, hdone, -, -, -, hmark, -, -⟩ := Tso.newCommitTs_ok hts
    obtain ⟨-, m, hm, rfl⟩ | ⟨-, rfl⟩ := Tso.doneRead_cases hdone
    · refine .inr (.inr ⟨i, rfl, by simp [Call.holds, hp, hd], by simp [setCall, Call.holds], ?_⟩)
      rw [hm]
      exact congrArg some hmark.symm
    · exact .inl hmark
  | _ => exact .inl rfl

/-- The bound of the pending reads does not go back. -/
theorem ReadsCounted.doneUntil_step {a : Action ι} (hI : s.ReadsCounted) (h : s.step M a = some t) :
    s.tso.readMark.doneUntil ≤ t.tso.readMark.doneUntil := by
  rcases hI.readMark_step h with heq | ⟨i, hm⟩ | ⟨i, -, -, -, hm⟩
  · rw [heq]
  · exact WaterMark.doneUntil_le_mark hm
  · exact WaterMark.doneUntil_le_mark hm

omit [Fintype ι] in
/-- The records change with the history only. -/
theorem committedTxns_step {a : Action ι} (h : s.step M a = some t) (hh : t.history = s.history) :
    t.tso.committedTxns = s.tso.committedTxns := by
  cases effect_of_step h with
  | stamp j readings ts tso hp hk hd hl hts => simp at hh
  | discard j p tso hp ht =>
    unfold discardRead at ht
    split_ifs at ht
    · obtain rfl := Option.some.inj ht
      rfl
    · exact (Tso.doneRead_spec ht).2.2.2
  | _ => rfl

omit [Fintype ι] in
/-- The clock does not go back. -/
theorem current_step {a : Action ι} (hf : s.AllocatesForward a) (h : s.step M a = some t) :
    s.tso.currentReadTs ≤ t.tso.currentReadTs := by
  cases effect_of_step h with
  | stamp j readings ts tso hp hk hd hl hts =>
    obtain ⟨-, -, -, hclock, -⟩ := Tso.newCommitTs_ok hts
    exact le_of_lt (hf _ hclock)
  | discard j p tso hp ht =>
    unfold discardRead at ht
    split_ifs at ht
    · obtain rfl := Option.some.inj ht
      exact le_refl _
    · obtain ⟨-, m, -, rfl⟩ | ⟨-, rfl⟩ := Tso.doneRead_cases ht
      · exact le_refl _
      · exact le_refl _
  | _ => exact le_refl _

/-- Every step whose allocation moves forward keeps the invariant. -/
theorem OracleInv.step {a : Action ι} (hI : OracleInv start s) (hf : s.AllocatesForward a)
    (h : s.step M a = some t) : OracleInv start t := by
  have hcounted := hI.toReadsCounted.step hf h
  have hcur := current_step hf h
  have hbound := hI.toReadsCounted.doneUntil_step h
  -- The records of the history that are above the bound, and where the records are from.
  have hrecords : (∀ x ∈ t.history, t.tso.readMark.doneUntil < x.ts →
      ⟨x.ts, x.conflictKeys⟩ ∈ t.tso.committedTxns) ∧
      ∀ c ∈ t.tso.committedTxns, c.ts ≤ start ∨ ∃ x ∈ t.history, c = ⟨x.ts, x.conflictKeys⟩ := by
    rcases history_step h with hsame | ⟨j, readings, ts, tso, -, -, -, hts, htso, -, -, -, -, hhist, -⟩
    · rw [committedTxns_step h hsame, hsame]
      exact ⟨fun x hx hlt => hI.kept x hx (lt_of_le_of_lt hbound hlt), hI.known⟩
    · rw [htso, hhist]
      constructor
      · intro x hx hbelow
        rcases List.mem_append.mp hx with hx | hx
        · exact Tso.mem_newCommitTs_of_lt hts (hI.kept x hx) hbelow
        · rw [List.mem_singleton.mp hx]
          exact Tso.stamp_mem_newCommitTs hts
      · intro c hc
        rcases Tso.mem_of_mem_newCommitTs hts hc with hold | heq
        · rcases hI.known c hold with hle | ⟨x, hx, heq⟩
          · exact .inl hle
          · exact .inr ⟨x, List.mem_append_left _ hx, heq⟩
        · exact .inr ⟨_, List.mem_append_right _ List.mem_cons_self, heq⟩
  refine ⟨hcounted, hrecords.1, hrecords.2, ?_, hI.start_le.trans hcur⟩
  intro i hi
  by_cases hidle : (s.calls i).phase = .idle
  · rw [(begins_step h hidle hi).2]
    exact ⟨hI.start_le, hcur⟩
  · obtain ⟨hge, hle⟩ := hI.readTs_mem i hidle
    rw [(readTs_step h hidle).2]
    exact ⟨hge, hle.trans hcur⟩

/-- The invariant holds throughout a term. -/
theorem oracleInv_of_reaches (h₀ : TermStart start s)
    (h : Reaches (step M) AllocatesForward s t) : OracleInv start t :=
  h.invariant h₀.oracleInv fun _ _ _ hI hf hs => hI.step hf hs

omit [DecidableEq ι] in
/-- For a transaction in flight, the records that are left decide as the whole history does. -/
theorem OracleInv.hasConflict_iff (hI : OracleInv start s) (hrun : (s.calls i).phase = .running)
    (hd : (s.calls i).txn.discarded = false) :
    s.tso.hasConflict (s.calls i).txn = true ↔
      ∃ h ∈ s.history, (s.calls i).txn.readTs < h.ts ∧
        ∃ key ∈ (s.calls i).txn.reads, key ∈ h.conflictKeys := by
  have hle := hI.toReadsCounted.doneUntil_le (i := i) (by simp [Call.holds, hrun, hd])
  rw [Tso.hasConflict_iff]
  constructor
  · rintro ⟨c, hc, hlt, hkey⟩
    rcases hI.known c hc with hbefore | ⟨h, hh, rfl⟩
    · have hstart := (hI.readTs_mem i (by simp [hrun])).1
      omega
    · exact ⟨h, hh, hlt, hkey⟩
  · rintro ⟨h, hh, hlt, hkey⟩
    exact ⟨_, hI.kept h hh (lt_of_le_of_lt hle hlt), hlt, hkey⟩

/-- In one term with increasing timestamps, `newCommitTs` reports a conflict exactly if some earlier
successful `newCommitTs` of the term got a timestamp above the transaction's read timestamp and wrote
one of its read keys. -/
theorem newCommitTs_conflict_iff_history (h₀ : TermStart start s)
    (h : Reaches (step M) AllocatesForward s t) (hrun : (t.calls i).phase = .running)
    (hd : (t.calls i).txn.discarded = false) (readings : List ℤ) :
    t.tso.newCommitTs (t.calls i).txn readings = .conflict ↔
      ∃ h ∈ t.history, (t.calls i).txn.readTs < h.ts ∧
        ∃ key ∈ (t.calls i).txn.reads, key ∈ h.conflictKeys := by
  rw [Tso.newCommitTs_eq_conflict_iff]
  exact (oracleInv_of_reaches h₀ h).hasConflict_iff hrun hd

/-- The clock of a leader that started to serve at millisecond 1000. -/
def clockAt1000 : Clock := ⟨⟨1000, 1⟩, ⟨3000, 0⟩⟩

/-- A store with a value at one key. -/
def oneKey : Store := [⟨[1], 5, .value [7] 0⟩]

/-- A call that goes up to its body. -/
def beginCall {ι : Type*} (i : ι) (kind : Kind) : List (Action ι) :=
  [.beginTxn i kind, .markRead i, .waitOk i]

/-- Two calls overlap. The first reads a key, and the second writes it and commits. -/
def overlap : List (Action Two) :=
  List.flatten
    [beginCall .first .transaction, beginCall .second .transaction,
      [.read .first (.get [1]) someEnv, .write .second (.set [1] [8] none) someEnv,
        .commit .second [1001]]]

/-- The leader after the overlapping calls. -/
def overlapped : Leader Two :=
  final (guarded (step rejectDeltas) AllocatesForward) (serving clockAt1000 oneKey) overlap
    (by decide +kernel)

/-- The first of the overlapping calls has a conflict. -/
theorem newCommitTs_conflict_overlapped :
    overlapped.tso.newCommitTs (overlapped.calls .first).txn [1002] = .conflict := by
  have hreach : Reaches (step rejectDeltas) AllocatesForward (serving clockAt1000 oneKey)
      overlapped := Reaches.final _
  apply (newCommitTs_conflict_iff_history (termStart_serving clockAt1000 oneKey) hreach
    (by decide) (by decide) [1002]).mpr
  decide

end Leader

end Omashu
