import Omashu.Leader.Marks

/-!
# The registrations of pending reads

`ReadTs` registers a transaction in two places. Its timestamp is put among the `readers` of the oracle, and
`readMark.Begin` counts it. `doneRead`, which `newCommitTs` and `Discard` call, gives both back: it takes the
timestamp from the readers and issues the `Done`, if the timestamp is there.

Neither place is given back in every run (`registrations_left`). `readers` is a set, so transactions with the
same read timestamp are one reader: the first that ends takes the timestamp away, and the others issue no
`Done`. Their timestamp stays pending, and the bound does not get past it. And when `WaitForMark` fails, the
error path of `ReadTs` issues the `Done` and leaves the timestamp among the readers.

`registrations_given_back` says that there is nothing else. Without a failed wait the readers are transactions
in flight (`ReadersHeld`), whatever timestamps they share. And while no transaction begins at the read
timestamp of one that has not ended, the count of a timestamp is the number of calls that hold it, which is one
at most (`Registered`), whether or not a wait fails.
-/

namespace Omashu

open Lib

/-- The call may still give a pending read back: it is in flight, or has committed and not run `Discard`. -/
def Call.Open (c : Call) : Prop := c.InFlight ∨ c.Released

/-- The call has called `readMark.Begin`. -/
def Call.Marked (c : Call) : Prop := c.phase ≠ .idle ∧ c.phase ≠ .recorded

/-- A transaction is not discarded before its body runs. -/
def Call.Fresh (c : Call) : Prop := c.phase = .recorded ∨ c.phase = .begun → c.txn.discarded = false

/-- The action may register a pending read or give it back. -/
def Action.registers {ι : Type*} : Action ι → Bool
  | .beginTxn .. | .markRead _ | .waitErr _ | .discard _ | .commit .. => true
  | _ => false

instance (c : Call) : Decidable c.Open := inferInstanceAs (Decidable (_ ∨ _ ∨ _))

namespace Leader

section Counts

variable {ι : Type*} (r : ℕ) (s : Leader ι)

/-- The calls of `readMark.Begin` at a timestamp in a step. -/
def readBegins : Action ι → ℕ
  | .markRead i => (s.markCalls (.markRead i)).count ⟨.read, r⟩
  | _ => 0

/-- The calls of `readMark.Done` at a timestamp in a step. -/
def readDones : Action ι → ℕ
  | .markRead _ => 0
  | a => (s.markCalls a).count ⟨.read, r⟩

end Counts

variable {ι : Type*}

/-- The read timestamps that `ReadTs` has issued. -/
def issued (s : Leader ι) : Set ℕ := {r | ∃ i, (s.calls i).phase ≠ .idle ∧ (s.calls i).txn.readTs = r}

/-- No transaction begins at the read timestamp of one that may still give its pending read back. -/
def ReadsApart (s : Leader ι) : Action ι → Prop
  | .beginTxn _ _ => ∀ i, (s.calls i).Open → (s.calls i).txn.readTs ≠ s.tso.currentReadTs
  | _ => True

instance [Fintype ι] (s : Leader ι) : (a : Action ι) → Decidable (s.ReadsApart a)
  | .beginTxn _ _ => inferInstanceAs (Decidable (∀ _, _))
  | .markRead _ | .waitOk _ | .waitErr _ | .read .. | .write .. | .fail .. | .discard _ | .commit ..
  | .doneCommit _ | .propose _ | .ack _ | .timeout _ | .apply _ | .saveBound _ => isTrue trivial

/-- The timestamps that the watermark of reads has been given in a term. -/
def MarkedAt (start : ℕ) (s : Leader ι) (r : ℕ) : Prop :=
  r = start ∨ ∃ i, (s.calls i).Marked ∧ (s.calls i).txn.readTs = r

/-- The readers beyond `old` are transactions in flight. -/
structure ReadersHeld (old : Finset ℕ) (s : Leader ι) : Prop where
  /-- The transactions are fresh. -/
  fresh : ∀ i, (s.calls i).Fresh
  /-- A reader is in flight. -/
  held : ∀ r ∈ s.tso.readers, r ∈ old ∨ ∃ i, (s.calls i).InFlight ∧ (s.calls i).txn.readTs = r

/-- What the registrations keep while no two open transactions have the same read timestamp. -/
structure Registered [Fintype ι] (start : ℕ) (s : Leader ι) : Prop where
  /-- The transactions are fresh. -/
  fresh : ∀ i, (s.calls i).Fresh
  /-- Open transactions have different read timestamps. -/
  apart : ∀ i j, (s.calls i).Open → (s.calls j).Open →
    (s.calls i).txn.readTs = (s.calls j).txn.readTs → i = j
  /-- A transaction in flight is among the readers. -/
  inFlight : ∀ i, (s.calls i).InFlight → (s.calls i).txn.readTs ∈ s.tso.readers
  /-- A transaction that has committed is not. -/
  released : ∀ i, (s.calls i).Released → (s.calls i).txn.readTs ∉ s.tso.readers
  /-- The watermark counts the calls that hold a pending read. -/
  count : ∀ r, s.tso.readMark.count r = s.holders r
  /-- Its bound has moved through the timestamps it was given. -/
  tracks : s.tso.readMark.Tracks (s.MarkedAt start)
  /-- They are not below the start of the term. -/
  start_le : ∀ r, s.MarkedAt start r → start ≤ r

variable {start : ℕ} {M : Merge} {s t : Leader ι} {old : Finset ℕ}

/-! ## What a step does to the registrations -/

/-- The call reads at the same timestamp and is registered as before. -/
structure Steady (c' c : Call) : Prop where
  /-- The read timestamp stays. -/
  readTs : c'.txn.readTs = c.txn.readTs
  /-- A transaction stays fresh. -/
  fresh : c.Fresh → c'.Fresh
  /-- It holds a pending read if it did. -/
  holds : c'.holds = c.holds
  /-- It has begun if it had. -/
  idle : c'.phase = .idle ↔ c.phase = .idle
  /-- It is before `readMark.Begin` if it was. -/
  recorded : c'.phase = .recorded ↔ c.phase = .recorded
  /-- A call that has committed had committed. -/
  released : c'.Released → c.Released

/-- A call that stays as it is. -/
theorem Steady.refl (c : Call) : Steady c c := ⟨rfl, id, rfl, Iff.rfl, Iff.rfl, id⟩

/-- The transaction is in flight if it was. -/
theorem Steady.inFlight_iff {c' c : Call} (h : Steady c' c) : c'.InFlight ↔ c.InFlight := by
  unfold Call.InFlight
  rw [h.recorded, h.holds]

/-- The call has called `readMark.Begin` if it had. -/
theorem Steady.marked_iff {c' c : Call} (h : Steady c' c) : c'.Marked ↔ c.Marked := by
  unfold Call.Marked
  rw [Ne, Ne, h.idle, h.recorded]

/-- An open call was open. -/
theorem Steady.open {c' c : Call} (h : Steady c' c) (hc : c'.Open) : c.Open :=
  hc.imp h.inFlight_iff.mp h.released

/-- A call that moves on where it has nothing to give back, or holds on to its pending read. -/
theorem steady_of_past {c' c : Call} (hts : c'.txn.readTs = c.txn.readTs) (hholds : c'.holds = c.holds)
    (hc : c.Marked) (hc' : c'.Marked) (hbegun : c'.phase ≠ .begun) (hrel : c'.Released → c.Released) :
    Steady c' c where
  readTs := hts
  fresh _ h := absurd h (by simp [hc'.2, hbegun])
  holds := hholds
  idle := iff_of_false hc'.1 hc.1
  recorded := iff_of_false hc'.2 hc.2
  released := hrel

/-- `Discard` is called past `ReadTs`. -/
theorem phaseAfterDiscard_past {c : Call} {p : Phase} (h : phaseAfterDiscard c = some p) :
    c.Marked ∧ p ≠ .idle ∧ p ≠ .recorded ∧ p ≠ .begun ∧
      (c.txn.discarded = false → c.holds = true ∨ c.Released) ∧
      (c.txn.discarded = true → c.holds = false) := by
  obtain ⟨hp, rfl⟩ | ⟨hp, rfl⟩ | ⟨e, hp, rfl⟩ := phaseAfterDiscard_cases h
  · simp +contextual [Call.Marked, Call.holds, hp]
  · refine ⟨by simp [Call.Marked, hp], ?_, ?_, ?_, fun _ => .inr (.inr hp), fun _ => by simp [Call.holds, hp]⟩
    all_goals split_ifs <;> simp
  · simp +contextual [Call.Marked, Call.holds, hp]

variable [DecidableEq ι] {i : ι}

/-- The calls after one of them is replaced. -/
theorem calls_of_setCall {c : Call} (h : t.calls = (s.setCall i c).calls) :
    t.calls i = c ∧ ∀ j, j ≠ i → t.calls j = s.calls j := by
  rw [h]
  exact ⟨Function.update_self .., fun j hj => Function.update_of_ne hj _ _⟩

/-- What a step does to the registrations, with its calls of the watermark of reads. -/
inductive ReadStep (s t : Leader ι) : Action ι → Prop
  /-- Nothing is registered or given back. -/
  | quiet (a : Action ι) (hmark : t.tso.readMark = s.tso.readMark) (hreaders : t.tso.readers = s.tso.readers)
      (hsteady : ∀ j, Steady (t.calls j) (s.calls j))
      (hnone : t.exited = true ∨ ∀ r, ⟨.read, r⟩ ∉ s.markCalls a) : ReadStep s t a
  /-- A transaction becomes a reader. -/
  | begins (i : ι) (kind : Kind) (hp : (s.calls i).phase = .idle)
      (ht : t = { s.setCall i ⟨kind, .recorded, Txn.beginTxn s.tso.currentReadTs true, []⟩ with
        tso := { s.tso with readers := insert s.tso.currentReadTs s.tso.readers } }) :
      ReadStep s t (.beginTxn i kind)
  /-- `readMark.Begin`. -/
  | marks (i : ι) (m : WaterMark) (hp : (s.calls i).phase = .recorded)
      (hm : s.tso.readMark.beginMark (s.calls i).txn.readTs = some m)
      (ht : t = { s.setPhase i .begun with tso := { s.tso with readMark := m } }) :
      ReadStep s t (.markRead i)
  /-- The error path of `ReadTs`. -/
  | fails (i : ι) (m : WaterMark) (hp : (s.calls i).phase = .begun)
      (hm : s.tso.readMark.doneMark (s.calls i).txn.readTs = some m)
      (ht : t = { s.setPhase i (.returned (some .ctxDone)) with tso := { s.tso with readMark := m } }) :
      ReadStep s t (.waitErr i)
  /-- `doneRead`. -/
  | ends (a : Action ι) (i : ι) (c : Call) (tso : Tso) (ha : ∀ j, a ≠ .markRead j)
      (hcalls : t.calls = (s.setCall i c).calls)
      (hdone : s.tso.doneRead (s.calls i).txn.readTs = some tso)
      (hmark : t.tso.readMark = tso.readMark) (hreaders : t.tso.readers = tso.readers)
      (hfrom : (s.calls i).holds = true ∨ (s.calls i).Released) (hts : c.txn.readTs = (s.calls i).txn.readTs)
      (hmarked : c.Marked) (hholds : c.holds = false)
      (hcount : ∀ r, (s.markCalls a).count ⟨.read, r⟩ =
        (s.tso.doneReadCalls (s.calls i).txn.readTs).count ⟨.read, r⟩) : ReadStep s t a

/-- `Discard`. -/
theorem readStep_of_discard (h : s.discard i = some t) : ReadStep s t (.discard i) := by
  unfold discard at h
  split at h
  next => cases h
  next p _ hp ht =>
    obtain rfl := Option.some.inj h
    exact .quiet _ rfl rfl (fun _ => Steady.refl _) (.inl rfl)
  next p tso hp ht =>
    obtain rfl := Option.some.inj h
    obtain ⟨hpast, hidle, hrec, hbegun, hopen, hclosed⟩ := phaseAfterDiscard_past hp
    obtain ⟨-, hholds, hrel⟩ := discarded_milder hp
    have hmarked : ({ s.calls i with
        phase := p
        txn := { (s.calls i).txn with discarded := true } } : Call).Marked := ⟨hidle, hrec⟩
    unfold discardRead at ht
    split_ifs at ht with hd
    · obtain rfl := Option.some.inj ht
      refine .quiet _ rfl rfl (rel_setCall Steady.refl ?_) (.inr fun r => by simp [markCalls, hd])
      exact steady_of_past rfl (hholds.trans (hclosed hd).symm) hpast hmarked hbegun
        fun hc => absurd hc hrel
    · have hd : (s.calls i).txn.discarded = false := by simpa using hd
      exact .ends _ i _ tso (by simp) rfl ht rfl rfl (hopen hd) rfl hmarked hholds
        fun r => by simp [markCalls, hp, hd]

/-- `Commit`. -/
theorem readStep_of_commit {readings : List ℤ} (h : s.commit i readings = some t) :
    ReadStep s t (.commit i readings) := by
  obtain ⟨ha, hp, e, rfl⟩ | ⟨ha, ⟨-, rfl⟩ | ⟨ts, tso, hres, rfl⟩⟩ := commit_cases h
  · refine .quiet _ rfl rfl (rel_setCall Steady.refl ?_) (.inr fun r => by simp [markCalls, ha])
    exact steady_of_past rfl (by simp [Call.holds, hp]) (by simp [Call.Marked, hp]) (by simp [Call.Marked])
      (by simp) (by simp [Call.Released])
  · exact .quiet _ rfl rfl (fun _ => Steady.refl _) (.inl rfl)
  · obtain ⟨-, tso₁, hdone, -, -, -, hmark, hreaders, -⟩ := Tso.newCommitTs_ok hres
    have hholds : (s.calls i).holds = true := by simp [Call.holds, ha.1, ha.2.2.1]
    refine .ends _ i _ tso₁ (by simp) rfl hdone hmark hreaders (.inl hholds) rfl (by simp [Call.Marked]) rfl
      fun r => ?_
    -- The other call of `newCommitTs` is one of `txnMark`.
    rw [markCalls, if_pos ha, Tso.newCommitTsCalls, List.count_append]
    simp [List.count_eq_zero]

/-- The other steps of a call. -/
theorem readStep_of_effect {a : Action ι} (hfresh : ∀ i, (s.calls i).Fresh) (ha : a.registers = false)
    (h : Effect M s a t) : ReadStep s t a := by
  have hnone : ∀ r, ⟨.read, r⟩ ∉ s.markCalls a := by
    intro r
    cases a with
    | doneCommit i =>
      rw [markCalls]
      split_ifs <;> simp
    | beginTxn _ _ | markRead _ | waitErr _ | discard _ | commit _ _ => cases ha
    | _ => exact List.not_mem_nil
  -- A step past `ReadTs` in which a call keeps what it holds.
  have hmoves : ∀ (i : ι) (c : Call), t.tso.readMark = s.tso.readMark → t.tso.readers = s.tso.readers →
      t.calls = (s.setCall i c).calls → c.txn.readTs = (s.calls i).txn.readTs →
      c.holds = (s.calls i).holds → (s.calls i).Marked → c.Marked → c.phase ≠ .begun →
      (c.Released → (s.calls i).Released) → ReadStep s t a := by
    intro i c hmark hreaders hcalls hts hholds hpast hmarked hbegun hrel
    refine .quiet a hmark hreaders ?_ (.inr hnone)
    rw [hcalls]
    exact rel_setCall Steady.refl (steady_of_past hts hholds hpast hmarked hbegun hrel)
  cases h with
  | beginTxn _ _ _ | markRead _ _ _ _ | waitErr _ _ _ _ | discard _ _ _ _ _ | stamp _ _ _ _ _ _ _ _ _ => cases ha
  | waitOk i hp hw =>
    have hd := hfresh i (.inr hp)
    exact hmoves i _ rfl rfl rfl rfl (by simp [Call.holds, hp, hd]) (by simp [Call.Marked, hp])
      (by simp [Call.Marked]) (by simp) (by simp [Call.Released])
  | read i q env hp =>
    have hg := Txn.read_grows (s.calls i).txn s.store env q
    exact hmoves i _ rfl rfl rfl hg.readTs (by simp [Call.holds, hp, hg.discarded]) (by simp [Call.Marked, hp])
      (by simp [Call.Marked, hp]) (by simp [hp]) (by simp [Call.Released])
  | write i op env hp hk =>
    have hg := Txn.write_grows (s.calls i).txn s.store env op
    exact hmoves i _ rfl rfl rfl hg.readTs (by simp [Call.holds, hp, hg.discarded]) (by simp [Call.Marked, hp])
      (by simp [Call.Marked, hp]) (by simp [hp]) (by simp [Call.Released])
  | writeErr i op env e hp hk =>
    have hg := Txn.write_grows (s.calls i).txn s.store env op
    exact hmoves i _ rfl rfl rfl hg.readTs (by simp [Call.holds, hp, hg.discarded]) (by simp [Call.Marked, hp])
      (by simp [Call.Marked]) (by simp) (by simp [Call.Released])
  | failed _ i _ hp | doneCommit i _ hp _ | propose i _ hp _ | unencodable i _ _ hp _ _ | finish _ i _ hp =>
    exact hmoves i _ rfl rfl rfl rfl (by simp [Call.holds, hp]) (by simp [Call.Marked, hp])
      (by simp [Call.Marked]) (by simp) (by simp [Call.Released, hp])
  | apply | stop | saveBound => exact .quiet _ rfl rfl (fun _ => Steady.refl _) (.inr hnone)
  | exit => exact .quiet _ rfl rfl (fun _ => Steady.refl _) (.inl rfl)

/-- Every step does one of these. -/
theorem readStep_of_step {a : Action ι} (hfresh : ∀ i, (s.calls i).Fresh) (h : s.step M a = some t) :
    ReadStep s t a := by
  have heffect := effect_of_step h
  unfold step at h
  split_ifs at h
  cases a with
  | beginTxn i kind =>
    simp only [beginTxn] at h
    split_ifs at h with hp
    exact .begins i kind hp (Option.some.inj h).symm
  | markRead i =>
    simp only [markRead] at h
    split_ifs at h with hp
    split at h
    next =>
      obtain rfl := Option.some.inj h
      exact .quiet _ rfl rfl (fun _ => Steady.refl _) (.inl rfl)
    next m hm => exact .marks i m hp hm (Option.some.inj h).symm
  | waitErr i =>
    simp only [waitErr] at h
    split_ifs at h with hp
    split at h
    next =>
      obtain rfl := Option.some.inj h
      exact .quiet _ rfl rfl (fun _ => Steady.refl _) (.inl rfl)
    next m hm => exact .fails i m hp hm (Option.some.inj h).symm
  | discard i => exact readStep_of_discard h
  | commit i readings => exact readStep_of_commit h
  | _ => exact readStep_of_effect hfresh rfl heffect

/-- A step keeps the transactions fresh. -/
theorem ReadStep.fresh {a : Action ι} (hfresh : ∀ i, (s.calls i).Fresh) (h : ReadStep s t a) :
    ∀ i, (t.calls i).Fresh := by
  have hset : ∀ (i : ι) (c : Call), c.Fresh → ∀ j, ((s.setCall i c).calls j).Fresh := by
    intro i c hc
    exact (Function.forall_update_iff s.calls fun _ c => c.Fresh).mpr ⟨hc, fun j _ => hfresh j⟩
  cases h with
  | quiet _ hmark hreaders hsteady hnone => exact fun j => (hsteady j).fresh (hfresh j)
  | begins i kind hp ht =>
    subst ht
    exact hset i _ fun _ => rfl
  | marks i m hp hm ht =>
    subst ht
    exact hset i _ fun _ => hfresh i (.inl hp)
  | fails i m hp hm ht =>
    subst ht
    exact hset i _ (by simp [Call.Fresh])
  | ends _ i c tso ha hcalls hdone hmark hreaders hfrom hts hmarked hholds hcount =>
    rw [hcalls]
    refine hset i c fun hp => ?_
    rcases hp with hp | hp
    · exact absurd hp hmarked.2
    · simp [Call.holds, hp] at hholds

/-! ## The readers -/

omit [DecidableEq ι] in
/-- The readers do not grow, and the transactions in flight among them stay in flight. -/
theorem ReadersHeld.of_stays (hI : s.ReadersHeld old) (hfresh : ∀ i, (t.calls i).Fresh)
    (hsub : t.tso.readers ⊆ s.tso.readers)
    (hstays : ∀ j, (s.calls j).InFlight → (s.calls j).txn.readTs ∈ t.tso.readers →
      (t.calls j).InFlight ∧ (t.calls j).txn.readTs = (s.calls j).txn.readTs) : t.ReadersHeld old := by
  refine ⟨hfresh, fun r hr => ?_⟩
  obtain hold | ⟨j, hj, rfl⟩ := hI.held r (hsub hr)
  · exact .inl hold
  · obtain ⟨hflight, hts⟩ := hstays j hj hr
    exact .inr ⟨j, hflight, hts⟩

/-- A step other than a failed wait keeps the readers in flight. -/
theorem ReadersHeld.step {a : Action ι} (hI : s.ReadersHeld old) (ha : ∀ i, a ≠ .waitErr i)
    (h : s.step M a = some t) : t.ReadersHeld old := by
  have hstep := readStep_of_step hI.fresh h
  have hfresh := hstep.fresh hI.fresh
  cases hstep with
  | quiet _ hmark hreaders hsteady hnone =>
    refine hI.of_stays hfresh (hreaders ▸ Finset.Subset.refl _) fun j hj _ => ?_
    exact ⟨(hsteady j).inFlight_iff.mpr hj, (hsteady j).readTs⟩
  | begins i kind hp ht =>
    subst ht
    refine ⟨hfresh, fun r hr => ?_⟩
    rcases Finset.mem_insert.mp hr with rfl | hr
    · exact .inr ⟨i, by simp [setCall, Call.InFlight], by simp [setCall, Txn.beginTxn]⟩
    · obtain hold | ⟨j, hj, hts⟩ := hI.held r hr
      · exact .inl hold
      · have hji : j ≠ i := by
          rintro rfl
          simp [Call.InFlight, Call.holds, hp] at hj
        exact .inr ⟨j, by simpa [setCall, Function.update_of_ne hji] using ⟨hj, hts⟩⟩
  | marks i m hp hm ht =>
    subst ht
    refine hI.of_stays hfresh (Finset.Subset.refl _) fun j hj _ => ?_
    by_cases hji : j = i
    · subst hji
      simp [setPhase, setCall, Call.InFlight, Call.holds]
    · simpa [setPhase, setCall, Function.update_of_ne hji] using hj
  | fails i m hp hm ht => exact absurd rfl (ha i)
  | ends _ i c tso ha hcalls hdone hmark hreaders hfrom hts hmarked hholds hcount =>
    -- The timestamp of the call is no reader's any more.
    obtain ⟨hout, hsub, -, -⟩ := Tso.doneRead_spec hdone
    rw [← hreaders] at hout hsub
    refine hI.of_stays hfresh hsub fun j hj hmem => ?_
    have hji : j ≠ i := by
      rintro rfl
      exact hout hmem
    rw [hcalls]
    simpa [setCall, Function.update_of_ne hji] using hj

/-! ## The counts -/

/-- The timestamps given to the watermark after one call is replaced. -/
theorem markedAt_setCall {c : Call} (hcalls : t.calls = (s.setCall i c).calls)
    (hts : c.txn.readTs = (s.calls i).txn.readTs) (hmarked : c.Marked) (r : ℕ) :
    t.MarkedAt start r ↔ s.MarkedAt start r ∨ r = (s.calls i).txn.readTs := by
  obtain ⟨hself, hother⟩ := calls_of_setCall hcalls
  constructor
  · rintro (rfl | ⟨j, hj, rfl⟩)
    · exact .inl (.inl rfl)
    · by_cases hji : j = i
      · subst hji
        exact .inr (by rw [hself, hts])
      · rw [hother j hji] at hj ⊢
        exact .inl (.inr ⟨j, hj, rfl⟩)
  · rintro ((rfl | ⟨j, hj, rfl⟩) | rfl)
    · exact .inl rfl
    · by_cases hji : j = i
      · subst hji
        exact .inr ⟨j, by rwa [hself], by rw [hself, hts]⟩
      · exact .inr ⟨j, by rwa [hother j hji], by rw [hother j hji]⟩
    · exact .inr ⟨i, by rwa [hself], by rw [hself, hts]⟩

variable [Fintype ι]

omit [DecidableEq ι] in
/-- The watermark and the readers stay, and the calls are registered as before. -/
theorem Registered.of_steady (hI : s.Registered start) (hsteady : ∀ j, Steady (t.calls j) (s.calls j))
    (hmark : t.tso.readMark = s.tso.readMark) (hreaders : t.tso.readers = s.tso.readers) :
    t.Registered start := by
  have hholders : ∀ r, t.holders r = s.holders r := by
    intro r
    unfold holders
    congr 1
    apply Finset.filter_congr
    intro j _
    rw [(hsteady j).holds, (hsteady j).readTs]
  have hmarked : t.MarkedAt start = s.MarkedAt start := by
    funext r
    unfold MarkedAt
    simp only [(hsteady _).marked_iff, (hsteady _).readTs]
  refine ⟨fun j => (hsteady j).fresh (hI.fresh j), ?_, ?_, ?_, ?_, ?_, ?_⟩
  · intro j k hj hk
    rw [(hsteady j).readTs, (hsteady k).readTs]
    exact hI.apart j k ((hsteady j).open hj) ((hsteady k).open hk)
  · intro j hj
    rw [(hsteady j).readTs, hreaders]
    exact hI.inFlight j ((hsteady j).inFlight_iff.mp hj)
  · intro j hj
    rw [(hsteady j).readTs, hreaders]
    exact hI.released j ((hsteady j).released hj)
  · intro r
    rw [hmark, hholders, hI.count]
  · rw [hmark, hmarked]
    exact hI.tracks
  · rw [hmarked]
    exact hI.start_le

/-- A mark of the read timestamp of an open call. Its timestamp may be taken from the readers, where the call
is not in flight any more. -/
theorem Registered.of_mark (hI : s.Registered start) {d : ℤ} {c : Call} (hfresh : ∀ i, (t.calls i).Fresh)
    (hcalls : t.calls = (s.setCall i c).calls)
    (hm : s.tso.readMark.mark (s.calls i).txn.readTs d = some t.tso.readMark)
    (hts : c.txn.readTs = (s.calls i).txn.readTs) (hopen : (s.calls i).Open) (hmarked : c.Marked)
    (hd : (if c.holds = true then (1 : ℤ) else 0) = (if (s.calls i).holds = true then (1 : ℤ) else 0) + d)
    (hsub : t.tso.readers ⊆ s.tso.readers)
    (hkeep : ∀ r ∈ s.tso.readers, r ≠ (s.calls i).txn.readTs → r ∈ t.tso.readers)
    (hin : c.InFlight → (s.calls i).txn.readTs ∈ t.tso.readers)
    (hout : c.Released → (s.calls i).txn.readTs ∉ t.tso.readers) : t.Registered start := by
  obtain ⟨hself, hother⟩ := calls_of_setCall hcalls
  have hopens : ∀ j, (t.calls j).Open → (s.calls j).Open ∧ (t.calls j).txn.readTs = (s.calls j).txn.readTs := by
    intro j hj
    by_cases hji : j = i
    · subst hji
      exact ⟨hopen, by rw [hself, hts]⟩
    · rw [hother j hji] at hj ⊢
      exact ⟨hj, rfl⟩
  have hE : t.MarkedAt start = fun r => s.MarkedAt start r ∨ r = (s.calls i).txn.readTs :=
    funext fun r => propext (markedAt_setCall hcalls hts hmarked r)
  have hholders : ∀ r, (t.holders r : ℤ) = s.holders r + if r = (s.calls i).txn.readTs then d else 0 := by
    intro r
    have hset : t.holders r = (s.setCall i c).holders r := by
      unfold holders
      rw [hcalls]
    rw [hset]
    exact holders_of_readTs hts hd r
  refine ⟨hfresh, ?_, ?_, ?_, ?_, ?_, ?_⟩
  · intro j k hj hk
    rw [(hopens j hj).2, (hopens k hk).2]
    exact hI.apart j k (hopens j hj).1 (hopens k hk).1
  · intro j hj
    by_cases hji : j = i
    · subst hji
      rw [hself] at hj ⊢
      exact hts ▸ hin hj
    · rw [hother j hji] at hj ⊢
      exact hkeep _ (hI.inFlight j hj) fun heq => hji (hI.apart j i (.inl hj) hopen heq)
  · intro j hj
    by_cases hji : j = i
    · subst hji
      rw [hself] at hj ⊢
      exact hts ▸ hout hj
    · rw [hother j hji] at hj ⊢
      exact fun hmem => hI.released j hj (hsub hmem)
  · intro r
    have hheld := hholders r
    rw [WaterMark.count_mark hm (by rw [hI.count]; omega), hI.count]
    omega
  · rw [hE]
    exact hI.tracks.mark hm
  · rw [hE]
    rintro r (hr | rfl)
    · exact hI.start_le r hr
    · -- The mark is not below the bound, which is not below the start.
      have hbound : s.tso.readMark.doneUntil ≤ (s.calls i).txn.readTs := by
        by_contra hlt
        rw [WaterMark.mark_eq_none_iff.mpr (not_le.mp hlt)] at hm
        cases hm
      exact (hI.start_le _ hI.tracks.doneUntil).trans hbound

/-- A transaction becomes a reader at a timestamp that no open one has. -/
theorem Registered.beginTxn (hI : s.Registered start) {kind : Kind} (hp : (s.calls i).phase = .idle)
    (hapart : ∀ j, (s.calls j).Open → (s.calls j).txn.readTs ≠ s.tso.currentReadTs)
    (ht : t = { s.setCall i ⟨kind, .recorded, Txn.beginTxn s.tso.currentReadTs true, []⟩ with
      tso := { s.tso with readers := insert s.tso.currentReadTs s.tso.readers } })
    (hfresh : ∀ i, (t.calls i).Fresh) : t.Registered start := by
  obtain ⟨hself, hother⟩ : t.calls i = ⟨kind, .recorded, Txn.beginTxn s.tso.currentReadTs true, []⟩ ∧
      ∀ j, j ≠ i → t.calls j = s.calls j := calls_of_setCall (by rw [ht])
  have hreaders : t.tso.readers = insert s.tso.currentReadTs s.tso.readers := by rw [ht]
  have hnew : (t.calls i).txn.readTs = s.tso.currentReadTs := by rw [hself]; rfl
  have hE : t.MarkedAt start = s.MarkedAt start := by
    funext r
    unfold MarkedAt
    congr 1
    apply propext
    apply exists_congr
    intro j
    by_cases hji : j = i
    · subst hji
      simp [hself, Call.Marked, hp]
    · rw [hother j hji]
  have hmark : t.tso.readMark = s.tso.readMark := by rw [ht]
  refine ⟨hfresh, ?_, ?_, ?_, ?_, ?_, ?_⟩
  · intro j k hj hk heq
    by_cases hji : j = i <;> by_cases hki : k = i
    · rw [hji, hki]
    · rw [hother k hki] at hk heq
      rw [hji, hnew] at heq
      exact absurd heq.symm (hapart k hk)
    · rw [hother j hji] at hj heq
      rw [hki, hnew] at heq
      exact absurd heq (hapart j hj)
    · rw [hother j hji] at hj heq
      rw [hother k hki] at hk heq
      exact hI.apart j k hj hk heq
  · intro j hj
    rw [hreaders]
    by_cases hji : j = i
    · rw [hji, hnew]
      exact Finset.mem_insert_self _ _
    · rw [hother j hji] at hj ⊢
      exact Finset.mem_insert_of_mem (hI.inFlight j hj)
  · intro j hj
    by_cases hji : j = i
    · rw [hji, hself] at hj
      simp [Call.Released] at hj
    · rw [hother j hji] at hj ⊢
      rw [hreaders, Finset.mem_insert, not_or]
      exact ⟨hapart j (.inr hj), hI.released j hj⟩
  · intro r
    have hcount := holders_setCall s i ⟨kind, .recorded, Txn.beginTxn s.tso.currentReadTs true, []⟩ r
    simp only [Call.holds, hp, Bool.false_eq_true, false_and, if_false, add_zero] at hcount
    rw [hmark, hI.count, ← hcount, ht]
    rfl
  · rw [hmark, hE]
    exact hI.tracks
  · rw [hE]
    exact hI.start_le

/-- `doneRead` is called for a call that holds its pending read, whose timestamp is then among the readers, or
for one that has committed, whose timestamp is not. -/
theorem Registered.doneRead (hI : s.Registered start) {c : Call} {tso : Tso} (hfresh : ∀ i, (t.calls i).Fresh)
    (hcalls : t.calls = (s.setCall i c).calls) (hdone : s.tso.doneRead (s.calls i).txn.readTs = some tso)
    (hmark : t.tso.readMark = tso.readMark) (hreaders : t.tso.readers = tso.readers)
    (hfrom : (s.calls i).holds = true ∨ (s.calls i).Released) (hts : c.txn.readTs = (s.calls i).txn.readTs)
    (hmarked : c.Marked) (hholds : c.holds = false) : t.Registered start := by
  have hflight : ¬c.InFlight := by simp [Call.InFlight, hmarked.2, hholds]
  rcases hfrom with hheld | hcommitted
  · obtain ⟨-, m, hm, rfl⟩ | ⟨hr, -⟩ := Tso.doneRead_cases hdone
    · have hm : s.tso.readMark.mark (s.calls i).txn.readTs (-1) = some t.tso.readMark := by
        rw [hmark]
        exact hm
      refine hI.of_mark hfresh hcalls hm hts (.inl (.inr hheld)) hmarked (by simp [hheld, hholds]) ?_ ?_
        (fun h => absurd h hflight) fun _ => ?_
      · rw [hreaders]
        exact Finset.erase_subset _ _
      · intro r hr hne
        rw [hreaders]
        exact Finset.mem_erase.mpr ⟨hne, hr⟩
      · rw [hreaders]
        exact Finset.notMem_erase _ _
    · exact absurd (hI.inFlight i (.inr hheld)) hr
  · have hr := hI.released i hcommitted
    obtain ⟨hmem, -⟩ | ⟨-, rfl⟩ := Tso.doneRead_cases hdone
    · exact absurd hmem hr
    · have hidle : (s.calls i).Marked ∧ (s.calls i).holds = false := by
        rcases hcommitted with hp | hp <;> simp [Call.Marked, Call.holds, hp]
      have hbegun : c.phase ≠ .begun := fun hp => by simp [Call.holds, hp] at hholds
      refine hI.of_steady ?_ hmark hreaders
      rw [hcalls]
      exact rel_setCall Steady.refl (steady_of_past hts (hholds.trans hidle.2.symm) hidle.1 hmarked hbegun
        fun _ => hcommitted)

/-- A step keeps the registrations. -/
theorem Registered.step {a : Action ι} (hI : s.Registered start) (hapart : s.ReadsApart a)
    (h : s.step M a = some t) : t.Registered start := by
  have hstep := readStep_of_step hI.fresh h
  have hfresh := hstep.fresh hI.fresh
  cases hstep with
  | quiet _ hmark hreaders hsteady hnone => exact hI.of_steady hsteady hmark hreaders
  | begins i kind hp ht => exact hI.beginTxn hp hapart ht hfresh
  | marks i m hp hm ht =>
    subst ht
    have hflight : (s.calls i).InFlight := .inl hp
    exact hI.of_mark hfresh rfl hm rfl (.inl hflight) (by simp [Call.Marked]) (by simp [Call.holds, hp])
      (Finset.Subset.refl _) (fun r hr _ => hr) (fun _ => hI.inFlight i hflight) (by simp [Call.Released])
  | fails i m hp hm ht =>
    subst ht
    have hflight : (s.calls i).InFlight := .inr (by simp [Call.holds, hp])
    exact hI.of_mark hfresh rfl hm rfl (.inl hflight) (by simp [Call.Marked]) (by simp [Call.holds, hp])
      (Finset.Subset.refl _) (fun r hr _ => hr) (by simp [Call.InFlight, Call.holds]) (by simp [Call.Released])
  | ends _ i c tso ha hcalls hdone hmark hreaders hfrom hts hmarked hholds hcount =>
    exact hI.doneRead hfresh hcalls hdone hmark hreaders hfrom hts hmarked hholds

/-! ## The calls of `Begin` and `Done` along a run -/

omit [DecidableEq ι] [Fintype ι] in
/-- One call of the watermark of reads. -/
theorem count_readCall (r j : ℕ) : [(⟨.read, j⟩ : MarkCall)].count ⟨.read, r⟩ = if r = j then 1 else 0 := by
  by_cases hr : r = j
  · simp [hr]
  · rw [if_neg hr, List.count_eq_zero]
    simpa using hr

omit [DecidableEq ι] [Fintype ι] in
/-- A step without a call of the watermark of reads. -/
theorem readCalls_eq_zero {a : Action ι} {r : ℕ} (h : ⟨.read, r⟩ ∉ s.markCalls a) :
    s.readBegins r a = 0 ∧ s.readDones r a = 0 := by
  have hcount : (s.markCalls a).count ⟨.read, r⟩ = 0 := List.count_eq_zero.mpr h
  cases a with
  | markRead i => exact ⟨hcount, rfl⟩
  | _ => exact ⟨rfl, hcount⟩

omit [DecidableEq ι] in
/-- The calls of the watermark of reads are made for a transaction in flight. -/
theorem Registered.inFlight_of_mem_markCalls (hI : s.Registered start) {a : Action ι} {r : ℕ}
    (h : ⟨.read, r⟩ ∈ s.markCalls a) : ∃ i, (s.calls i).InFlight := by
  cases a with
  | markRead i =>
    rw [markCalls] at h
    split_ifs at h with hp
    · exact ⟨i, .inl hp⟩
    · cases h
  | waitErr i =>
    rw [markCalls] at h
    split_ifs at h with hp
    · exact ⟨i, .inr (by simp [Call.holds, hp])⟩
    · cases h
  | discard i =>
    rw [markCalls] at h
    split_ifs at h with hp
    · obtain ⟨p, hphase⟩ := Option.isSome_iff_exists.mp hp.1
      obtain ⟨-, -, -, -, hfrom, -⟩ := phaseAfterDiscard_past hphase
      rcases hfrom hp.2 with hheld | hcommitted
      · exact ⟨i, .inr hheld⟩
      · simp [Tso.doneReadCalls, hI.released i hcommitted] at h
    · cases h
  | commit i readings =>
    rw [markCalls] at h
    split_ifs at h with ha
    · exact ⟨i, .inr (by simp [Call.holds, ha.1, ha.2.2.1])⟩
    · cases h
  | doneCommit i =>
    rw [markCalls] at h
    split_ifs at h with hp
    · simp at h
    · cases h
  | _ => cases h

/-- A step changes the count of a timestamp by its calls of `Begin` and `Done`, unless the process terminates
while a transaction is in flight. -/
theorem Registered.count_step {a : Action ι} (hI : s.Registered start) (h : s.step M a = some t)
    (hexit : t.exited = true → ∀ i, ¬(t.calls i).InFlight) (r : ℕ) :
    t.tso.readMark.count r + s.readDones r a = s.tso.readMark.count r + s.readBegins r a := by
  -- A mark of a call that is counted.
  have hmarks : ∀ (j : ℕ) (d : ℤ), s.tso.readMark.mark j d = some t.tso.readMark →
      0 ≤ s.tso.readMark.count j + d →
      t.tso.readMark.count r = s.tso.readMark.count r + if r = j then d else 0 := by
    intro j d hm hpos
    refine WaterMark.count_mark hm ?_
    split_ifs with hr
    · rwa [hr]
    · rw [hI.count]
      omega
  have hheld : ∀ j, (s.calls j).holds = true → 0 < s.tso.readMark.count (s.calls j).txn.readTs := by
    intro j hj
    rw [hI.count]
    exact_mod_cast holders_pos hj
  cases readStep_of_step hI.fresh h with
  | quiet _ hmark hreaders hsteady hnone =>
    have hnone : ⟨.read, r⟩ ∉ s.markCalls a := by
      rcases hnone with hexited | hnone
      · intro hmem
        obtain ⟨j, hj⟩ := hI.inFlight_of_mem_markCalls hmem
        exact hexit hexited j ((hsteady j).inFlight_iff.mpr hj)
      · exact hnone r
    obtain ⟨hbegins, hdones⟩ := readCalls_eq_zero hnone
    rw [hmark, hbegins, hdones]
  | begins i kind hp ht =>
    subst ht
    rfl
  | marks i m hp hm ht =>
    have hread : t.tso.readMark = m := by rw [ht]
    have hpos : 0 ≤ s.tso.readMark.count (s.calls i).txn.readTs + 1 := by
      rw [hI.count]
      omega
    rw [hmarks _ 1 (hread ▸ hm) hpos]
    have hcalls : s.markCalls (.markRead i) = [⟨.read, (s.calls i).txn.readTs⟩] := if_pos hp
    simp only [readDones, readBegins, hcalls, count_readCall]
    split_ifs <;> simp
  | fails i m hp hm ht =>
    have hread : t.tso.readMark = m := by rw [ht]
    have hpos := hheld i (by simp [Call.holds, hp])
    rw [hmarks _ (-1) (hread ▸ hm) (by omega)]
    have hcalls : s.markCalls (.waitErr i) = [⟨.read, (s.calls i).txn.readTs⟩] := if_pos hp
    simp only [readDones, readBegins, hcalls, count_readCall]
    split_ifs <;> simp
  | ends _ i c tso ha hcalls hdone hmark hreaders hfrom hts hmarked hholds hcount =>
    have hbegins : s.readBegins r a = 0 := by
      cases a with
      | markRead j => exact absurd rfl (ha j)
      | _ => rfl
    have hdones : s.readDones r a = (s.tso.doneReadCalls (s.calls i).txn.readTs).count ⟨.read, r⟩ := by
      rw [← hcount r]
      cases a with
      | markRead j => exact absurd rfl (ha j)
      | _ => rfl
    rw [hbegins, hdones, hmark, Tso.doneReadCalls]
    obtain ⟨hr, m, hm, rfl⟩ | ⟨hr, rfl⟩ := Tso.doneRead_cases hdone
    · have hpos := hheld i (hfrom.resolve_right fun hc => hI.released i hc hr)
      have hm : s.tso.readMark.mark (s.calls i).txn.readTs (-1) = some t.tso.readMark := by
        rw [hmark]
        exact hm
      rw [← hmark, if_pos hr, hmarks _ (-1) hm (by omega), count_readCall]
      split_ifs <;> simp
    · rw [if_neg hr]
      rfl

/-- A run keeps the registrations, and changes the count of a timestamp by its calls of `Begin` and `Done`. -/
theorem registered_of_run {as : List (Action ι)} (hI : s.Registered start)
    (h : run (step M) s as = some t) (hapart : Along (step M) ReadsApart s as) (hdone : ∀ i, ¬(t.calls i).InFlight) :
    t.Registered start ∧ ∀ r, t.tso.readMark.count r + tally (step M) (readDones r) s as =
      s.tso.readMark.count r + tally (step M) (readBegins r) s as := by
  induction as generalizing s with
  | nil =>
    obtain rfl : s = t := by simpa [Lib.run] using h
    exact ⟨hI, fun r => rfl⟩
  | cons a as ih =>
    obtain ⟨u, hu, hrun⟩ := Option.bind_eq_some_iff.mp h
    obtain ⟨hfirst, hrest⟩ := (along_cons_iff hu).mp hapart
    obtain ⟨hend, hcount⟩ := ih (hI.step hfirst hu) hrun hrest
    refine ⟨hend, fun r => ?_⟩
    -- A process that has terminated makes no further step.
    have hexit : u.exited = true → ∀ i, ¬(u.calls i).InFlight := by
      intro hexited
      cases as with
      | nil =>
        obtain rfl : u = t := by simpa [Lib.run] using hrun
        exact hdone
      | cons b bs => simp [Lib.run, Leader.step, hexited] at hrun
    have hstep := hI.count_step hu hexit r
    have hrest := hcount r
    rw [tally_cons hu, tally_cons hu]
    push_cast
    omega

/-! ## The registrations at the end of a run -/

omit [DecidableEq ι] in
/-- At the start of a term. -/
theorem TermStart.registered (h : TermStart start s) : s.Registered start := by
  have hinv := h.oracleInv
  have hE : s.MarkedAt start = (· = start) := by
    funext r
    simp [MarkedAt, Call.Marked, h.idle]
  have hopen : ∀ i, ¬(s.calls i).Open := by simp [Call.Open, Call.InFlight, Call.holds, Call.Released, h.idle]
  have hcount : ∀ r, s.tso.readMark.count r = 0 := by
    intro r
    rw [h.readMark]
    rfl
  refine ⟨fun i => by simp [Call.Fresh, h.idle], fun i j hi => absurd hi (hopen i),
    fun i hi => absurd (.inl hi) (hopen i), fun i hi => absurd (.inr hi) (hopen i), fun r => ?_, ?_, ?_⟩
  · have hheld := hinv.held r
    rw [hcount] at hheld ⊢
    omega
  · rw [hE, h.readMark]
    exact WaterMark.tracks_setDoneUntil start
  · rw [hE]
    exact fun r hr => le_of_eq hr.symm

/-- Once every transaction is committed or discarded: without a failed wait no reader is left that was not there
before, and where no transaction began at the read timestamp of an open one, every `Begin` has its `Done` and
the bound is at the greatest read timestamp. -/
theorem registrations_given_back {as : List (Action ι)} (hs : TermStart start s)
    (hrun : run (step M) s as = some t) (hdone : ∀ i, ¬(t.calls i).InFlight) :
    ((∀ i, Action.waitErr i ∉ as) → t.tso.readers ⊆ s.tso.readers) ∧
      (Along (step M) ReadsApart s as →
        (∀ r, tally (step M) (readBegins r) s as = tally (step M) (readDones r) s as) ∧
          (t.issued.Nonempty → IsGreatest t.issued t.tso.readMark.doneUntil)) := by
  have hI := hs.registered
  constructor
  · intro hwait
    have hheld : t.ReadersHeld s.tso.readers := by
      refine run_invariant hrun ⟨hI.fresh, fun r hr => .inl hr⟩ fun u a v ha hu hv => hu.step ?_ hv
      rintro i rfl
      exact hwait i ha
    intro r hr
    obtain hold | ⟨i, hi, -⟩ := hheld.held r hr
    · exact hold
    · exact absurd hi (hdone i)
  · intro hapart
    obtain ⟨hend, hcount⟩ := registered_of_run hI hrun hapart hdone
    have hzero : ∀ r, t.tso.readMark.count r = 0 := by
      intro r
      rw [hend.count, holders, Finset.filter_eq_empty_iff.mpr fun i _ hi => hdone i (.inr hi.1)]
      rfl
    refine ⟨fun r => ?_, fun ⟨r₀, i₀, hi₀, hr₀⟩ => ?_⟩
    · have hbalance := hcount r
      have hstart : s.tso.readMark.count r = 0 := by
        rw [hs.readMark]
        rfl
      rw [hzero, hstart] at hbalance
      omega
    · -- Every timestamp that was issued was marked.
      have hmarked : ∀ i, (t.calls i).phase ≠ .idle → t.MarkedAt start (t.calls i).txn.readTs :=
        fun i hi => .inr ⟨i, ⟨hi, fun hrec => hdone i (.inl hrec)⟩, rfl⟩
      obtain ⟨hmem, hub⟩ := hend.tracks.isGreatest hzero
      refine ⟨?_, ?_⟩
      · rcases hmem with heq | ⟨i, hi, hts⟩
        · refine ⟨i₀, hi₀, le_antisymm (hub (hmarked i₀ hi₀)) ?_⟩
          rw [heq]
          exact hend.start_le _ (hmarked i₀ hi₀)
        · exact ⟨i, hi.1, hts⟩
      · rintro _ ⟨i, hi, rfl⟩
        exact hub (hmarked i hi)

/-- A call that goes up to its commit timestamp. -/
def stampCall {ι : Type*} (i : ι) (reading : ℤ) : List (Action ι) :=
  beginCall i .transaction ++ [.write i (.set [1] [8] none) someEnv, .commit i [reading]]

/-- A call whose body returns an error. -/
def dropCall {ι : Type*} (i : ι) : List (Action ι) := [.fail i .conflict, .discard i]

/-- The second transaction begins at the commit timestamp of the first. -/
def readsInTurn : List (Action Two) :=
  List.flatten [stampCall .first 1001, [.doneCommit .first], beginCall .second .transaction,
    [.discard .first], dropCall .second]

/-- The leader after both transactions have ended. -/
def afterReadsInTurn : Leader Two :=
  final (guarded (step rejectDeltas) ReadsApart) (serving clockAt1000 oneKey) readsInTurn (by decide +kernel)

/-- Nothing is left of the two transactions, and the bound is at the second read timestamp. -/
theorem registrations_given_back_in_turn :
    (∀ i, ¬(afterReadsInTurn.calls i).InFlight) ∧ afterReadsInTurn.tso.readers = ∅ ∧
      (∀ r, tally (step rejectDeltas) (readBegins r) (serving clockAt1000 oneKey) readsInTurn =
        tally (step rejectDeltas) (readDones r) (serving clockAt1000 oneKey) readsInTurn) ∧
      IsGreatest afterReadsInTurn.issued afterReadsInTurn.tso.readMark.doneUntil ∧
      afterReadsInTurn.tso.readMark.doneUntil = (TimeStamp.mk 1001 1).compose := by
  have hdone : ∀ i, ¬(afterReadsInTurn.calls i).InFlight := by decide +kernel
  obtain ⟨hrun, hapart⟩ : run (step rejectDeltas) (serving clockAt1000 oneKey) readsInTurn =
      some afterReadsInTurn ∧ Along (step rejectDeltas) ReadsApart (serving clockAt1000 oneKey) readsInTurn :=
    along_of_run_guarded (run_final _)
  obtain ⟨hreaders, hcounts⟩ := registrations_given_back (termStart_serving clockAt1000 oneKey) hrun hdone
  obtain ⟨hbalance, hbound⟩ := hcounts hapart
  have hwait : ∀ i, Action.waitErr i ∉ readsInTurn := by
    intro i
    simp [readsInTurn, stampCall, dropCall, beginCall]
  exact ⟨hdone, Finset.subset_empty.mp (hreaders hwait), hbalance,
    hbound ⟨_, .first, by decide +kernel, rfl⟩, by decide +kernel⟩

/-- Two transactions have the same read timestamp. One commits, and then the other is discarded. A third one
begins at the commit timestamp and is discarded. -/
def sharedReadTs : List (Action (Option Two)) :=
  List.flatten [beginCall (some .first) .transaction, stampCall none 1001, [.doneCommit none, .discard none],
    dropCall (some .first), beginCall (some .second) .transaction, dropCall (some .second)]

/-- The leader after them. -/
def afterSharedReadTs : Leader (Option Two) :=
  final (step rejectDeltas) (serving clockAt1000 oneKey) sharedReadTs (by decide +kernel)

/-- A transaction begins at a commit timestamp that is not done, and its wait fails. -/
def failedWait : List (Action Two) :=
  List.flatten [stampCall .first 1001, [.beginTxn .second .transaction, .markRead .second, .waitErr .second,
    .doneCommit .first, .discard .first]]

/-- The leader after it. -/
def afterFailedWait : Leader Two :=
  final (step rejectDeltas) (serving clockAt1000 oneKey) failedWait (by decide +kernel)

/-- Every transaction has ended. Where two of them had the same read timestamp, it was begun twice and done
once, and the bound is below the greatest read timestamp. Where the wait failed, there is a reader. -/
theorem registrations_left :
    (run (step rejectDeltas) (serving clockAt1000 oneKey) sharedReadTs = some afterSharedReadTs ∧
      (∀ i, ¬(afterSharedReadTs.calls i).InFlight) ∧
      tally (step rejectDeltas) (readBegins (TimeStamp.mk 1000 1).compose) (serving clockAt1000 oneKey)
        sharedReadTs = 2 ∧
      tally (step rejectDeltas) (readDones (TimeStamp.mk 1000 1).compose) (serving clockAt1000 oneKey)
        sharedReadTs = 1 ∧
      (TimeStamp.mk 1001 1).compose ∈ afterSharedReadTs.issued ∧
      afterSharedReadTs.tso.readMark.doneUntil = (TimeStamp.mk 1000 1).compose) ∧
    (run (step rejectDeltas) (serving clockAt1000 oneKey) failedWait = some afterFailedWait ∧
      (∀ i, ¬(afterFailedWait.calls i).InFlight) ∧
      afterFailedWait.tso.readers = {(TimeStamp.mk 1001 1).compose}) :=
  ⟨⟨run_final _, by decide +kernel, by decide +kernel, by decide +kernel,
      ⟨some .second, by decide +kernel, by decide +kernel⟩, by decide +kernel⟩,
    run_final _, by decide +kernel, by decide +kernel⟩

end Leader

end Omashu
