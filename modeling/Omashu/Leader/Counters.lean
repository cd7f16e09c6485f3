import Mathlib.Data.List.Sort
import Omashu.Store.Counter
import Omashu.Leader.Order
import Omashu.Leader.Snapshots

/-!
# Updates of a counter

`IncrBy` and `DecrBy` are performed by `FSM.Apply`, on the value that the store has at the command's
read timestamp. They register no read, so the conflict check does not hold two of them apart, and of
two calls that overlap the one that is applied second does not see the first.

No update is lost where the calls that update the counter do not overlap: each of them takes its read
timestamp at or above the commit timestamps of those that were stamped before it, and they propose
their commands in the order of their commit timestamps (`CounterSteps`). Then the entries of the log
that update the counter are in the order of the commit timestamps (`Queued`), each of them is applied
on top of the one before it, and the counter that the store holds is the result of the applied part of
the log (`Counted`).
-/

namespace Omashu

open Lib

/-- Some of the operations write the key. -/
abbrev WritesAt (k : Key) (cs : List SubCommand) : Prop := ∃ c ∈ cs, c.Touches k

instance (k : Key) : (c : SubCommand) → Decidable (c.CountsAt k)
  | .incrBy .. | .decrBy .. => inferInstanceAs (Decidable True)
  | .set key value ttl => inferInstanceAs (Decidable ¬(SubCommand.set key value ttl).Touches k)
  | .update key delta deltaType messageName ttl =>
    inferInstanceAs (Decidable ¬(SubCommand.update key delta deltaType messageName ttl).Touches k)
  | .delete key => inferInstanceAs (Decidable ¬(SubCommand.delete key).Touches k)
  | .deleteByPrefix pre => inferInstanceAs (Decidable ¬(SubCommand.deleteByPrefix pre).Touches k)
  | .unknown => inferInstanceAs (Decidable ¬SubCommand.unknown.Touches k)

/-- Operations that leave the key alone do not change its counter. -/
theorem storedAfter_of_not_writesAt {k : Key} {v : ℕ} {cs : List SubCommand} (h : ¬WritesAt k cs) :
    storedAfter k v cs = v := by
  induction cs with
  | nil => rfl
  | cons c cs ih =>
    have hc : c.onStored k v = v :=
      onStored_of_not_touches fun hc => h ⟨c, List.mem_cons_self, hc⟩
    have hcs : ¬WritesAt k cs := fun ⟨x, hx, hk⟩ => h ⟨x, List.mem_cons_of_mem _ hx, hk⟩
    show storedAfter k (c.onStored k v) cs = v
    rw [hc]
    exact ih hcs

/-- The counter after one list of operations and then another. -/
theorem storedAfter_append (k : Key) (v : ℕ) (cs cs' : List SubCommand) :
    storedAfter k v (cs ++ cs') = storedAfter k (storedAfter k v cs) cs' :=
  List.foldl_append

/-- Of several lists of operations, those that write the key decide its counter. -/
theorem storedAfter_flatMap_filter {α : Type*} (k : Key) (v : ℕ) (f : α → List SubCommand)
    (l : List α) : storedAfter k v ((l.filter fun a => WritesAt k (f a)).flatMap f) =
      storedAfter k v (l.flatMap f) := by
  induction l generalizing v with
  | nil => rfl
  | cons a l ih =>
    by_cases ha : WritesAt k (f a)
    · rw [List.filter_cons_of_pos (by simpa using ha), List.flatMap_cons, List.flatMap_cons,
        storedAfter_append, storedAfter_append, ih]
    · rw [List.filter_cons_of_neg (by simpa using ha), List.flatMap_cons, storedAfter_append,
        storedAfter_of_not_writesAt ha, ih]

namespace Leader

variable {ι : Type*}

/-- The calls write `k` only by increments and decrements. A call that updates the counter commits
only if those that were stamped before it are at or below its read timestamp, and proposes its command
only after theirs. Besides, the clock moves forward within its layout. -/
def CounterSteps (k : Key) (s : Leader ι) : Action ι → Prop
  | .write _ op _ => ∀ sub ∈ op.subCommand, sub.CountsAt k
  | .commit i readings => s.tso.toClock.Steady readings ∧
      (WritesAt k (s.calls i).txn.subCommands → ∀ h ∈ s.history, WritesAt k h.subCommands →
        h.ts ≤ (s.calls i).txn.readTs)
  | .propose i => WritesAt k (s.calls i).txn.subCommands → ∀ j, (s.calls j).Unproposed →
      WritesAt k (s.calls j).txn.subCommands → (s.calls i).txn.commitTs ≤ (s.calls j).txn.commitTs
  | _ => True

variable {s t : Leader ι} {start v₀ : ℕ} {M : Merge} {a : Action ι} {k : Key} {i : ι}

/-- Under the condition the clock moves forward. -/
theorem CounterSteps.allocatesForward (h : CounterSteps k s a) : s.AllocatesForward a := by
  cases a with
  | commit i readings => exact Clock.Steady.advances h.1
  | _ => trivial

/-- Under the condition the updates of the counter are proposed in turn. -/
theorem CounterSteps.proposesInTurn (h : CounterSteps k s a) : s.ProposesInTurn (WritesAt k) a := by
  cases a with
  | propose i => exact h
  | _ => trivial

/-! ## The order of the updates -/

/-- The updates of the counter are in the log in the order of their commit timestamps, and none of
them was read past. -/
structure Queued (k : Key) (s : Leader ι) : Prop where
  /-- The calls write the key only by increments and decrements. -/
  counts : ∀ i, (s.calls i).phase ≠ .idle → ∀ sub ∈ (s.calls i).txn.subCommands, sub.CountsAt k
  /-- So do the recorded transactions. -/
  counted : ∀ h ∈ s.history, ∀ sub ∈ h.subCommands, sub.CountsAt k
  /-- A recorded update reads at or above the updates before it. -/
  seen : ∀ h ∈ s.history, ∀ h' ∈ s.history, WritesAt k h.subCommands → WritesAt k h'.subCommands →
    h.ts < h'.ts → h.ts ≤ h'.readTs
  /-- An entry from before the term leaves the key alone. -/
  before : ∀ e ∈ s.log, e.id = none → ¬e.command.Touches k
  /-- The updates in the log are below those that are to be proposed. -/
  queue : ∀ e ∈ s.log, e.command.Touches k → ∀ i, (s.calls i).Unproposed →
    WritesAt k (s.calls i).txn.subCommands → e.command.commitTs < (s.calls i).txn.commitTs
  /-- The updates in the log are in order. -/
  sorted : s.log.Pairwise fun e e' =>
    e.command.Touches k → e'.command.Touches k → e.command.commitTs < e'.command.commitTs

/-- At the start of a term the log has no update of the counter. -/
theorem TermStart.queued (h : TermStart start s) (hlog : ∀ e ∈ s.log, ¬e.command.Touches k) :
    Queued k s where
  counts i hi := absurd (h.idle i) hi
  counted := by simp [h.history]
  seen := by simp [h.history]
  before e he _ := hlog e he
  queue e he hk := absurd hk (hlog e he)
  sorted := List.pairwise_of_forall_mem_list fun e he _ _ hk => absurd hk (hlog e he)

/-- An update in the log is recorded. -/
theorem Queued.carries (hQ : Queued k s) (hR : Recorded start s) {e : LogEntry ι} (he : e ∈ s.log)
    (hk : e.command.Touches k) : ∃ h ∈ s.history, Carries e h ∧ WritesAt k h.subCommands := by
  rcases hR.entries e he with ⟨hid, -⟩ | ⟨h, hh, hc⟩
  · exact absurd hk (hQ.before e he hid)
  · exact ⟨h, hh, hc, hc.subCommands ▸ hk⟩

variable [DecidableEq ι]

/-- The calls keep to increments and decrements of the counter. -/
theorem Queued.counts_step (hQ : Queued k s) (hs : CounterSteps k s a) (h : s.step M a = some t)
    (hi : (t.calls i).phase ≠ .idle) : ∀ sub ∈ (t.calls i).txn.subCommands, sub.CountsAt k := by
  have hstep := callStep_of_step h i
  generalize t.calls i = c at hstep hi ⊢
  cases hstep with
  | same => exact hQ.counts i hi
  | beginTxn _ kind hp => simp [Txn.beginTxn]
  | read _ q env hp =>
    rw [Txn.read_subCommands]
    exact hQ.counts i hi
  | write _ op env p hp hk hp' =>
    have hold := hQ.counts i (by simp [hp])
    obtain heq | ⟨sub, hsub, heq⟩ := Txn.write_subCommands (s.calls i).txn s.store env op
    · rw [heq]
      exact hold
    · rw [heq]
      intro sub' hsub'
      rcases List.mem_append.mp hsub' with hsub' | hsub'
      · exact hold sub' hsub'
      · rw [List.mem_singleton.mp hsub']
        exact hs sub hsub
  | stamp _ readings ts tso hp hk hts hh => exact hQ.counts i (by simp [hp])
  | move _ _ p d hn => exact hQ.counts i hn.ne_idle.1

/-- A recorded update keeps reading at or above the updates before it. -/
theorem Queued.history_step (hQ : Queued k s) (hR : Recorded start s) (hs : CounterSteps k s a)
    (h : s.step M a = some t) :
    (∀ x ∈ t.history, ∀ sub ∈ x.subCommands, sub.CountsAt k) ∧
      ∀ x ∈ t.history, ∀ y ∈ t.history, WritesAt k x.subCommands → WritesAt k y.subCommands →
        x.ts < y.ts → x.ts ≤ y.readTs := by
  obtain heq | ⟨j, readings, ts, tso, rfl, hp, -, hts, -, -, -, -, -, heq, -⟩ :=
    Leader.history_step h
  · rw [heq]
    exact ⟨hQ.counted, hQ.seen⟩
  · have hlt := Tso.lt_newCommitTs hs.allocatesForward hts
    rw [heq]
    constructor
    · intro x hx
      rcases List.mem_append.mp hx with hx | hx
      · exact hQ.counted x hx
      · obtain rfl := List.mem_singleton.mp hx
        exact hQ.counts j (by simp [hp])
    · intro x hx y hy hkx hky hxy
      rcases List.mem_append.mp hx with hx | hx
      · rcases List.mem_append.mp hy with hy | hy
        · exact hQ.seen x hx y hy hkx hky hxy
        · -- The condition says so of the call that commits.
          obtain rfl := List.mem_singleton.mp hy
          exact hs.2 hky x hx hkx
      · -- The new timestamp is above all others.
        obtain rfl := List.mem_singleton.mp hx
        rw [Txn.stamp_ts] at hxy
        rcases List.mem_append.mp hy with hy | hy
        · have hold := hR.ts_le y hy
          omega
        · obtain rfl := List.mem_singleton.mp hy
          exact absurd hxy (lt_irrefl _)

omit [DecidableEq ι] in
/-- The updates of the counter are in the log in the order of their timestamps. -/
theorem Queued.inTurn (hQ : Queued k s) : InTurn (WritesAt k) s where
  queue e he _ hk i hi hki := hQ.queue e he hk i hi hki
  sorted := hQ.sorted.imp fun h _ _ hk hk' => h hk hk'

/-- A step that meets the condition keeps the updates in order. -/
theorem Queued.step (hQ : Queued k s) (hR : Recorded start s) (hs : CounterSteps k s a)
    (h : s.step M a = some t) : Queued k t := by
  obtain ⟨hcounted, hseen⟩ := hQ.history_step hR hs h
  have hturn := hQ.inTurn.step hR hs.allocatesForward hs.proposesInTurn h
  -- An update in the log is of the term.
  have hbefore : ∀ e ∈ t.log, e.id = none → ¬e.command.Touches k := by
    intro e he hid
    obtain heq | ⟨j, cmd, -, -, -, heq, -⟩ := log_step h
    · exact hQ.before e (heq ▸ he) hid
    · rw [heq] at he
      rcases List.mem_append.mp he with he | he
      · exact hQ.before e he hid
      · obtain rfl := List.mem_singleton.mp he
        simp at hid
  have hterm : ∀ e ∈ t.log, e.command.Touches k → e.id.isSome = true := by
    intro e he hk
    by_contra hid
    exact hbefore e he (by simpa using hid) hk
  refine ⟨fun i hi => hQ.counts_step hs h hi, hcounted, hseen, hbefore, ?_, ?_⟩
  · exact fun e he hk i hi hki => hturn.queue e he (hterm e he hk) hk i hi hki
  · refine hturn.sorted.imp_of_mem ?_
    intro e e' he he' hlt hk hk'
    exact hlt (hterm e he hk) (hterm e' he' hk') hk hk'

/-! ## The value of the counter -/

omit [DecidableEq ι] in
/-- The store holds the counter that the applied part of the log makes of the initial one. -/
structure Counted (k : Key) (start v₀ : ℕ) (s : Leader ι) : Prop where
  /-- A version of the key is from before the term or from an applied update. -/
  versions : ∀ x ∈ s.store, x.key = k → x.ts ≤ start ∨
    ∃ e ∈ s.log.take s.applied, e.command.Touches k ∧ e.command.commitTs = x.ts
  /-- The newest one holds the counter. -/
  value : ∀ r, s.tso.currentReadTs ≤ r → CounterEntry
    (storedAfter k v₀ ((s.log.take s.applied).flatMap fun e => e.command.body.subCommands))
    ((Versions.newest s.store k r).map Version.val)

omit [DecidableEq ι] in
/-- At the start of a term the log has no update of the counter, and the store the initial one. -/
theorem TermStart.counted (h : TermStart start s) (hlog : ∀ e ∈ s.log, ¬e.command.Touches k)
    (hstore : ∀ x ∈ s.store, x.key = k → x.ts ≤ start)
    (hv : CounterEntry v₀ ((Versions.newest s.store k start).map Version.val)) :
    Counted k start v₀ s where
  versions x hx hk := .inl (hstore x hx hk)
  value r hr := by
    rw [h.current] at hr
    have hnone : ¬WritesAt k
        ((s.log.take s.applied).flatMap fun e => e.command.body.subCommands) := by
      rintro ⟨sub, hsub, hk⟩
      obtain ⟨e, he, hsub⟩ := List.mem_flatMap.mp hsub
      exact hlog e (List.mem_of_mem_take he) ⟨sub, hsub, hk⟩
    have hgap : Versions.visible s.store k r = Versions.visible s.store k start :=
      Versions.visible_eq_of_gap hr fun x hx hk _ => hstore x hx hk
    rw [storedAfter_of_not_writesAt hnone, Versions.newest_congr hgap]
    exact hv

omit [DecidableEq ι] in
/-- Every version of the key is at or below the read timestamp of the next update. -/
theorem Counted.le_readTs (hC : Counted k start v₀ s) (hR : Recorded start s) (hQ : Queued k s)
    {e : LogEntry ι} (he : s.log[s.applied]? = some e) (hk : e.command.Touches k) :
    ∀ x ∈ s.store, x.key = k → x.ts ≤ e.command.readTs := by
  obtain ⟨hlt, hget⟩ := List.getElem?_eq_some_iff.mp he
  obtain ⟨h, hh, hc, hkh⟩ := hQ.carries hR (List.mem_of_getElem? he) hk
  intro x hx hxk
  rw [hc.readTs]
  rcases hC.versions x hx hxk with hle | ⟨e', he', hk', hts⟩
  · exact le_trans hle (hR.readTs_lt h hh).1
  · -- The applied update stands before the next one, so its timestamp was seen.
    obtain ⟨h', hh', hc', hkh'⟩ := hQ.carries hR (List.mem_of_mem_take he') hk'
    have hsplit : s.log.take s.applied ++ s.log.drop s.applied = s.log :=
      List.take_append_drop _ _
    have hdrop : e ∈ s.log.drop s.applied := by
      rw [List.mem_iff_getElem?]
      exact ⟨0, by simpa using he⟩
    have hsorted := hQ.sorted
    rw [← hsplit, List.pairwise_append] at hsorted
    have hbefore := hsorted.2.2 e' he' e hdrop hk' hk
    rw [hc'.commitTs, hc.commitTs] at hbefore
    rw [← hts, hc'.commitTs]
    exact hQ.seen h' hh' h hh hkh' hkh hbefore

omit [DecidableEq ι] in
/-- The counter after the next entry of the log is applied. -/
theorem Counted.apply (hC : Counted k start v₀ s) (hR : Recorded start s) (hQ : Queued k s)
    {e : LogEntry ι} {env : Env} {store : Store} (he : s.log[s.applied]? = some e)
    (ha : Fsm.apply M s.store env e.command = .ok store) {r : ℕ} (hr : s.tso.currentReadTs ≤ r) :
    CounterEntry (storedAfter k
        (storedAfter k v₀ ((s.log.take s.applied).flatMap fun e => e.command.body.subCommands))
        e.command.body.subCommands)
      ((Versions.newest store k r).map Version.val) := by
  have hold := hC.value r hr
  by_cases hk : e.command.Touches k
  · obtain ⟨h, hh, hc, hkh⟩ := hQ.carries hR (List.mem_of_getElem? he) hk
    obtain ⟨-, hlt⟩ := hR.readTs_lt h hh
    have hle := hR.ts_le h hh
    have hread := hC.le_readTs hR hQ he hk
    have hreadle : e.command.readTs ≤ e.command.commitTs := by
      rw [hc.readTs, hc.commitTs]
      exact le_of_lt hlt
    have hcommit : e.command.commitTs ≤ r := by
      rw [hc.commitTs]
      exact le_trans hle hr
    -- The update reads past every version of the key, so it builds on the newest one.
    refine Fsm.apply_counter ha ?_ hread hreadle hcommit ?_
    · rw [hc.subCommands]
      exact hQ.counted h hh
    · have hgap : Versions.visible s.store k r = Versions.visible s.store k e.command.readTs :=
        Versions.visible_eq_of_gap (le_trans hreadle hcommit) fun x hx hxk _ => hread x hx hxk
      rw [← Versions.newest_congr hgap]
      exact hold
  · rw [storedAfter_of_not_writesAt hk,
      Versions.newest_congr (Fsm.visible_apply_of_not_touches ha hk)]
    exact hold

/-- A step that meets the condition keeps the counter. -/
theorem Counted.step (hC : Counted k start v₀ s) (hR : Recorded start s) (hQ : Queued k s)
    (hs : CounterSteps k s a) (h : s.step M a = some t) : Counted k start v₀ t := by
  have hcur := current_step hs.allocatesForward h
  obtain ⟨hstore, happlied⟩ | ⟨env, entry, -, hentry, ha, happlied, hlog, -, -⟩ := store_step h
  · have htake : t.log.take t.applied = s.log.take s.applied := by
      rw [happlied]
      obtain heq | ⟨j, cmd, -, -, -, heq, -⟩ := log_step h
      · rw [heq]
      · rw [heq, List.take_append_of_le_length hR.applied]
    constructor
    · rw [hstore, htake]
      exact hC.versions
    · rw [hstore, htake]
      exact fun r hr => hC.value r (le_trans hcur hr)
  · have htake : t.log.take t.applied = s.log.take s.applied ++ [entry] := by
      rw [happlied, hlog, List.take_add_one, hentry]
      rfl
    constructor
    · rw [htake]
      intro x hx hk
      rcases Fsm.mem_apply ha hx with ⟨hts, htouch⟩ | hx
      · exact .inr ⟨entry, List.mem_append_right _ List.mem_cons_self, hk ▸ htouch, hts.symm⟩
      · rcases hC.versions x hx hk with hle | ⟨e, he, hts⟩
        · exact .inl hle
        · exact .inr ⟨e, List.mem_append_left _ he, hts⟩
    · intro r hr
      rw [htake, List.flatMap_append, storedAfter_append, List.flatMap_singleton]
      exact hC.apply hR hQ hentry ha (le_trans hcur hr)

/-! ## No update is lost -/

variable [Fintype ι]

omit [DecidableEq ι] in
/-- What holds throughout a term whose steps meet the condition. -/
structure CounterInv (k : Key) (start v₀ : ℕ) (s : Leader ι) : Prop where
  /-- The oracle keeps its records. -/
  oracle : OracleInv start s
  /-- The history is the record of the calls and the log. -/
  recorded : Recorded start s
  /-- The updates are in order. -/
  queued : Queued k s
  /-- The store holds the counter. -/
  counted : Counted k start v₀ s

/-- The invariant holds in every state reached. -/
theorem CounterInv.of_reaches (hI : CounterInv k start v₀ s)
    (h : Reaches (step M) (CounterSteps k) s t) : CounterInv k start v₀ t := by
  apply h.invariant hI
  intro u a v hI hs hstep
  have hf := hs.allocatesForward
  exact ⟨hI.oracle.step hf hstep, hI.recorded.step hI.oracle hf hstep,
    hI.queued.step hI.recorded hs hstep, hI.counted.step hI.recorded hI.queued hs hstep⟩

omit [DecidableEq ι] [Fintype ι] in
/-- Once every recorded update is applied, the updates in the applied part of the log are those of the
history, in the same order. -/
theorem Queued.applied_eq (hQ : Queued k s) (hR : Recorded start s)
    (happlied : ∀ h ∈ s.history, WritesAt k h.subCommands → s.Applied h) :
    ((s.log.take s.applied).filter fun e => WritesAt k e.command.body.subCommands).map
        (fun e => (e.command.commitTs, e.command.body.subCommands)) =
      (s.history.filter fun h => WritesAt k h.subCommands).map fun h => (h.ts, h.subCommands) := by
  -- Both lists are strictly ordered by the timestamps, so it is enough that they have the same members.
  let before (p q : ℕ × List SubCommand) : Prop := p.1 < q.1
  have hirrefl : Std.Irrefl before := ⟨fun p => lt_irrefl p.1⟩
  have hantisymm : Std.Antisymm before := ⟨fun p q hpq hqp => absurd hqp (lt_asymm hpq)⟩
  have hlog : (((s.log.take s.applied).filter fun e => WritesAt k e.command.body.subCommands).map
      fun e => (e.command.commitTs, e.command.body.subCommands)).Pairwise before := by
    rw [List.pairwise_map, List.pairwise_filter]
    refine (hQ.sorted.sublist (List.take_sublist _ _)).imp ?_
    intro e e' hlt hk hk'
    exact hlt (of_decide_eq_true hk) (of_decide_eq_true hk')
  have hhistory : ((s.history.filter fun h => WritesAt k h.subCommands).map
      fun h => (h.ts, h.subCommands)).Pairwise before := by
    rw [List.pairwise_map]
    exact hR.ordered.sublist List.filter_sublist
  refine hlog.eq_of_mem_iff hhistory fun p => ?_
  simp only [List.mem_map, List.mem_filter, decide_eq_true_eq]
  constructor
  · rintro ⟨e, ⟨he, hk⟩, rfl⟩
    obtain ⟨h, hh, hc, hkh⟩ := hQ.carries hR (List.mem_of_mem_take he) hk
    exact ⟨h, ⟨hh, hkh⟩, by rw [hc.commitTs, hc.subCommands]⟩
  · rintro ⟨h, ⟨hh, hk⟩, rfl⟩
    obtain ⟨e, he, hid, hts⟩ := happlied h hh hk
    rcases hR.entries e (List.mem_of_mem_take he) with ⟨hnone, -⟩ | ⟨h', hh', hc⟩
    · rw [hnone] at hid
      simp at hid
    · -- The entry carries the record with the timestamp of `h`, which is `h`.
      obtain rfl : h' = h := hR.eq_of_ts_eq hh' hh (hc.commitTs.symm.trans hts)
      exact ⟨e, ⟨he, hc.subCommands ▸ hk⟩, by rw [hc.commitTs, hc.subCommands]⟩

omit [DecidableEq ι] [Fintype ι] in
/-- So the applied part of the log makes of the counter what the history does. -/
theorem Queued.storedAfter_eq (hQ : Queued k s) (hR : Recorded start s)
    (happlied : ∀ h ∈ s.history, WritesAt k h.subCommands → s.Applied h) :
    storedAfter k v₀ ((s.log.take s.applied).flatMap fun e => e.command.body.subCommands) =
      storedAfter k v₀ (s.history.flatMap Stamp.subCommands) := by
  have heq := congrArg (fun l => storedAfter k v₀ (l.flatMap Prod.snd)) (hQ.applied_eq hR happlied)
  simp only [List.flatMap_map] at heq
  rw [← storedAfter_flatMap_filter, ← storedAfter_flatMap_filter (f := Stamp.subCommands)]
  exact heq

/-- In a term whose steps meet the condition, once the updates of a counter are all applied, the store
holds the initial value with each of them performed in the order of the commit timestamps, if none
wraps around. -/
theorem counter_updates_kept (h₀ : TermStart start s)
    (hlog : ∀ e ∈ s.log, ¬e.command.Touches k) (hstore : ∀ x ∈ s.store, x.key = k → x.ts ≤ start)
    (hv : CounterEntry v₀ ((Versions.newest s.store k start).map Version.val))
    (h : Reaches (step M) (CounterSteps k) s t)
    (happlied : ∀ h ∈ t.history, WritesAt k h.subCommands → t.Applied h)
    (hwrap : NoWrap k v₀ (t.history.flatMap Stamp.subCommands)) :
    t.history.Pairwise (fun h h' => h.ts < h'.ts) ∧
      ∀ (now : ℤ) (r : ℕ), t.tso.currentReadTs ≤ r →
        t.store.counter now k r =
          some (counterAfter k v₀ (t.history.flatMap Stamp.subCommands)) := by
  have hinit : CounterInv k start v₀ s :=
    ⟨h₀.oracleInv, h₀.recorded, h₀.queued hlog, h₀.counted hlog hstore hv⟩
  have hI := hinit.of_reaches h
  refine ⟨hI.recorded.ordered, fun now r hr => counter_eq ?_ now⟩
  have hvalue := hI.counted.value r hr
  rw [hI.queued.storedAfter_eq hI.recorded happlied, storedAfter_eq hwrap] at hvalue
  exact hvalue

/-! ## Two runs -/

instance (k : Key) (s : Leader ι) : (a : Action ι) → Decidable (CounterSteps k s a)
  | .write _ op _ => inferInstanceAs (Decidable (∀ sub ∈ op.subCommand, sub.CountsAt k))
  | .commit _ _ => inferInstanceAs (Decidable (_ ∧ _))
  | .propose i => inferInstanceAs (Decidable (WritesAt k (s.calls i).txn.subCommands → _))
  | .beginTxn .. | .markRead _ | .waitOk _ | .waitErr _ | .read .. | .fail .. | .discard _
  | .doneCommit _ | .ack _ | .timeout _ | .apply _ | .saveBound _ => inferInstanceAs (Decidable True)

/-- A call, from its write to its return, with its command applied. -/
def finishCall (i : Two) (reading : ℤ) : List (Action Two) :=
  [.commit i [reading], .doneCommit i, .discard i, .propose i, .apply someEnv, .ack i]

/-- Two increments of a counter, one after the other. -/
def incrementsInTurn : List (Action Two) :=
  List.flatten
    [beginCall .first .single, [.write .first (.incrBy [2] 1) someEnv], finishCall .first 1001,
      beginCall .second .single, [.write .second (.incrBy [2] 1) someEnv], finishCall .second 1002]

/-- The leader after these calls. -/
def afterIncrementsInTurn : Leader Two :=
  final (guarded (step rejectDeltas) (CounterSteps [2])) (serving clockAt1000 oneKey)
    incrementsInTurn (by decide +kernel)

/-- Both increments are in the counter. -/
theorem counter_updates_kept_in_turn :
    afterIncrementsInTurn.store.counter 0 [2] afterIncrementsInTurn.tso.currentReadTs = some 2 := by
  have hreach : Reaches (step rejectDeltas) (CounterSteps [2]) (serving clockAt1000 oneKey)
      afterIncrementsInTurn := Reaches.final _
  have hstart := termStart_serving (ι := Two) clockAt1000 oneKey
  have hv : CounterEntry 0 ((Versions.newest (serving (ι := Two) clockAt1000 oneKey).store [2]
      clockAt1000.current.compose).map Version.val) := by
    show CounterEntry 0 none
    rfl
  have hkept := counter_updates_kept hstart (by decide) (by decide) hv hreach (by decide) (by decide)
  exact (hkept.2 0 _ (le_refl _)).trans (by decide)

/-- Two increments of a counter that read it at the same timestamp. -/
def overlappingIncrements : List (Action Two) :=
  List.flatten
    [beginCall .first .single, beginCall .second .single,
      [.write .first (.incrBy [2] 1) someEnv, .write .second (.incrBy [2] 1) someEnv],
      finishCall .first 1001, finishCall .second 1002]

/-- The leader after these calls. -/
def afterOverlappingIncrements : Leader Two :=
  final (guarded (step rejectDeltas) AllocatesForward) (serving clockAt1000 oneKey)
    overlappingIncrements (by decide +kernel)

/-- Both calls have returned without an error and their commands are applied, and the counter holds
one increment of the two. -/
theorem counter_update_lost :
    Reaches (step rejectDeltas) AllocatesForward (serving clockAt1000 oneKey)
        afterOverlappingIncrements ∧
      (∀ i, (afterOverlappingIncrements.calls i).phase = .returned none) ∧
      (∀ h ∈ afterOverlappingIncrements.history, afterOverlappingIncrements.Applied h) ∧
      counterAfter [2] 0 (afterOverlappingIncrements.history.flatMap Stamp.subCommands) = 2 ∧
      afterOverlappingIncrements.store.counter 0 [2]
        afterOverlappingIncrements.tso.currentReadTs = some 1 :=
  ⟨Reaches.final _, by decide, by decide, by decide, by decide⟩

end Leader

end Omashu
