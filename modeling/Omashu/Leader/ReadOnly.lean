import Omashu.Leader.Conflicts

/-!
# Transactions that only read

`Txn.Commit` returns a nil command and no error for a transaction without writes. `NewTransaction` does not
expect this: after `Commit` it reads `cmd.Id` for its log message, and `proposeTxnSubCommand` reads
`txnCmd.SubCommands`. So a transaction whose body only reads panics on the leader whenever its body returns
nil (`read_only_never_returns_nil`), whatever it reads and whatever else is going on.

The rest is as it should be. `Commit` leaves before it asks the oracle for a timestamp and the deferred
`Discard` gives the registration back, so that the steps of such a call add nothing to the log and leave the
clock, the committed transactions and the watermark of commits as they were.
-/

namespace Omashu

open Lib

/-- A read adds no written key. -/
theorem Txn.read_writes (txn : Txn) (db : Store) (env : Env) (q : Query) :
    (txn.read db env q).1.writes = txn.writes := by
  unfold Txn.read
  split
  · rfl
  · rfl

/-- The call is a transaction that has only read so far, or has panicked after its body. `WaitForMark` may have
failed before the body. -/
def Call.ReadOnly (c : Call) : Prop :=
  match c.phase with
  | .idle => True
  | .recorded | .begun | .running =>
    c.kind = .transaction ∧ c.txn.writes = [] ∧ c.txn.subCommands = [] ∧ c.txn.discarded = false
  | .leaving o => o = .failed .panicked
  | .returned e => e = some .panicked ∨ e = some .ctxDone
  | .stamped | .ready | .proposed => False

namespace Leader

variable {ι : Type*}

/-- The body of the call only reads and returns nil: it neither writes nor fails, and it does not call
`Discard`. -/
def BodyReads (i : ι) (s : Leader ι) : Action ι → Prop
  | .beginTxn j kind => j = i → kind = .transaction
  | .write j _ _ | .fail j _ => j ≠ i
  | .discard j => j = i → (s.calls i).phase ≠ .running
  | _ => True

instance [DecidableEq ι] (i : ι) (s : Leader ι) : (a : Action ι) → Decidable (s.BodyReads i a)
  | .beginTxn j kind => inferInstanceAs (Decidable (j = i → kind = .transaction))
  | .write j _ _ | .fail j _ => inferInstanceAs (Decidable (j ≠ i))
  | .discard j => inferInstanceAs (Decidable (j = i → _))
  | .markRead _ | .waitOk _ | .waitErr _ | .read .. | .commit .. | .doneCommit _ | .propose _ | .ack _
  | .timeout _ | .apply _ | .saveBound _ => inferInstanceAs (Decidable True)

/-- Nothing is proposed, and the clock, the committed transactions and the watermark of commits are as they
were. -/
structure Unmoved (s t : Leader ι) : Prop where
  /-- Nothing is proposed. -/
  log : t.log = s.log
  /-- `current` and `saved`. -/
  toClock : t.tso.toClock = s.tso.toClock
  committedTxns : t.tso.committedTxns = s.tso.committedTxns
  txnMark : t.tso.txnMark = s.tso.txnMark

variable [DecidableEq ι] {M : Merge} {s t : Leader ι} {i j : ι} {a : Action ι}

/-- `Commit` of a transaction that has only read. -/
theorem commit_readOnly {readings : List ℤ} (h : (s.calls i).ReadOnly)
    (ht : s.commit i readings = some t) : t = s.setPhase i (.leaving (.failed .panicked)) := by
  unfold commit at ht
  dsimp only at ht
  by_cases hphase : (s.calls i).phase = .running
  · unfold Call.ReadOnly at h
    rw [hphase] at h
    obtain ⟨hkind, hwrites, hsub, hopen⟩ := h
    rw [if_neg (by simp [hphase, hkind]), if_neg (by simp [hopen]), if_pos ⟨hwrites, hsub⟩] at ht
    exact (Option.some.inj ht).symm
  · rw [if_pos (.inl hphase)] at ht
    cases ht

/-- `Discard` of a transaction that has panicked. -/
theorem discard_readOnly (h : (s.calls i).ReadOnly) (hphase : (s.calls i).phase ≠ .running)
    (ht : s.discard i = some t) :
    t = s.terminate ∨ (t.calls i).phase = .returned (some .panicked) ∧ s.Unmoved t := by
  unfold discard at ht
  split at ht
  · cases ht
  · exact .inl (Option.some.inj ht).symm
  next p tso hp hdone =>
    obtain rfl := Option.some.inj ht
    unfold Call.ReadOnly at h
    have hreturned : p = .returned (some .panicked) := by
      obtain ⟨hrunning, -⟩ | ⟨hleaving, -⟩ | ⟨e, hleaving, rfl⟩ := phaseAfterDiscard_cases hp
      · exact absurd hrunning hphase
      · simp [hleaving] at h
      · simpa [hleaving] using h
    have htso : tso.toClock = s.tso.toClock ∧ tso.committedTxns = s.tso.committedTxns ∧
        tso.txnMark = s.tso.txnMark := by
      unfold discardRead at hdone
      split_ifs at hdone
      · obtain rfl := Option.some.inj hdone
        exact ⟨rfl, rfl, rfl⟩
      · obtain ⟨-, m, -, rfl⟩ | ⟨-, rfl⟩ := Tso.doneRead_cases hdone
        · exact ⟨rfl, rfl, rfl⟩
        · exact ⟨rfl, rfl, rfl⟩
    refine .inr ⟨?_, rfl, htso.1, htso.2.1, htso.2.2⟩
    simp [setCall, hreturned]

/-- A step of a call that has only read: it has only read, or it has panicked, and nothing has moved. -/
theorem readOnly_own_step (h : (s.calls i).ReadOnly) (hc : s.BodyReads i a) (hcaller : a.caller = some i)
    (ht : s.step M a = some t) : (t.calls i).ReadOnly ∧ s.Unmoved t := by
  have hset {c : Call} {u : Leader ι} (hu : u.calls = (s.setCall i c).calls) (hc : c.ReadOnly) :
      (u.calls i).ReadOnly := by
    have hself : u.calls i = c := by rw [hu]; exact Function.update_self i c s.calls
    rw [hself]
    exact hc
  have hexit : (s.terminate.calls i).ReadOnly ∧ s.Unmoved s.terminate := ⟨h, rfl, rfl, rfl, rfl⟩
  unfold step at ht
  split_ifs at ht
  cases a with
  | beginTxn j kind =>
    obtain rfl := Option.some.inj hcaller
    obtain rfl := hc rfl
    simp only [beginTxn] at ht
    split_ifs at ht
    obtain rfl := Option.some.inj ht
    exact ⟨hset rfl ⟨rfl, rfl, rfl, rfl⟩, rfl, rfl, rfl, rfl⟩
  | markRead j =>
    obtain rfl := Option.some.inj hcaller
    simp only [markRead] at ht
    split_ifs at ht with hphase
    unfold Call.ReadOnly at h
    rw [hphase] at h
    split at ht
    all_goals obtain rfl := Option.some.inj ht
    · exact hexit
    · exact ⟨hset rfl h, rfl, rfl, rfl, rfl⟩
  | waitOk j =>
    obtain rfl := Option.some.inj hcaller
    simp only [waitOk] at ht
    split_ifs at ht with hphase
    unfold Call.ReadOnly at h
    rw [hphase.1] at h
    obtain rfl := Option.some.inj ht
    exact ⟨hset rfl h, rfl, rfl, rfl, rfl⟩
  | waitErr j =>
    obtain rfl := Option.some.inj hcaller
    simp only [waitErr] at ht
    split_ifs at ht
    split at ht
    all_goals obtain rfl := Option.some.inj ht
    · exact hexit
    · exact ⟨hset rfl (.inr rfl), rfl, rfl, rfl, rfl⟩
  | read j q env =>
    obtain rfl := Option.some.inj hcaller
    simp only [read] at ht
    split_ifs at ht with hphase
    unfold Call.ReadOnly at h
    rw [hphase.1] at h
    obtain ⟨hkind, hwrites, hsub, hopen⟩ := h
    obtain rfl := Option.some.inj ht
    refine ⟨hset rfl ?_, rfl, rfl, rfl, rfl⟩
    unfold Call.ReadOnly
    dsimp only
    rw [hphase.1]
    exact ⟨hkind, (Txn.read_writes ..).trans hwrites, (Txn.read_subCommands ..).trans hsub,
      (Txn.read_grows ..).discarded.trans hopen⟩
  | write | fail => exact absurd (Option.some.inj hcaller) hc
  | discard j =>
    obtain rfl := Option.some.inj hcaller
    obtain rfl | ⟨hphase, hunmoved⟩ := discard_readOnly h (hc rfl) ht
    · exact hexit
    · refine ⟨?_, hunmoved⟩
      unfold Call.ReadOnly
      rw [hphase]
      exact .inl rfl
  | commit j readings =>
    obtain rfl := Option.some.inj hcaller
    obtain rfl := commit_readOnly h ht
    exact ⟨hset rfl rfl, rfl, rfl, rfl, rfl⟩
  | doneCommit j | ack j | timeout j =>
    obtain rfl := Option.some.inj hcaller
    simp only [doneCommit, finish] at ht
    split_ifs at ht with hphase
    simp [Call.ReadOnly, hphase] at h
  | propose j =>
    obtain rfl := Option.some.inj hcaller
    simp only [propose] at ht
    split at ht
    next hphase _ => simp [Call.ReadOnly, hphase] at h
    next hphase _ => simp [Call.ReadOnly, hphase] at h
    · cases ht
  | apply | saveBound => cases hcaller

/-- A transaction whose body only reads never returns nil: where its body has returned, `NewTransaction` panics.
This is so in every run, from every state in which the call has not begun. The steps of the call propose
nothing, and leave `current`, `committedTxns` and `txnMark` as they were. -/
theorem read_only_never_returns_nil (hidle : (s.calls i).phase = .idle)
    (h : Reaches (step M) (BodyReads i) s t) :
    (t.calls i).phase ≠ .returned none ∧
      (∀ readings u, t.step M (.commit i readings) = some u →
        (u.calls i).phase = .leaving (.failed .panicked)) ∧
      (∀ u, (t.calls i).phase = .leaving (.failed .panicked) → t.step M (.discard i) = some u →
        u.exited = true ∨ (u.calls i).phase = .returned (some .panicked)) ∧
      ∀ a u, a.caller = some i → t.BodyReads i a → t.step M a = some u → t.Unmoved u := by
  have hstart : (s.calls i).ReadOnly := by simp [Call.ReadOnly, hidle]
  have hread : (t.calls i).ReadOnly := by
    refine h.invariant (I := fun u => (u.calls i).ReadOnly) hstart fun u a v hu hc hv => ?_
    by_cases hcaller : a.caller = some i
    · exact (readOnly_own_step hu hc hcaller hv).1
    · rw [calls_of_caller_ne hv hcaller]
      exact hu
  have hrunning (a : Action ι) (u : Leader ι) (hu : t.step M a = some u) : t.exited = false := by
    by_contra hexited
    simp [step, hexited] at hu
  refine ⟨?_, ?_, ?_, fun a u hcaller hc hu => (readOnly_own_step hread hc hcaller hu).2⟩
  · intro hnil
    simp [Call.ReadOnly, hnil] at hread
  · intro readings u hu
    have hcommit : t.commit i readings = some u := by simpa [step, hrunning _ u hu] using hu
    rw [commit_readOnly hread hcommit]
    simp [setPhase, setCall]
  · intro u hphase hu
    have hdiscard : t.discard i = some u := by simpa [step, hrunning _ u hu] using hu
    obtain rfl | ⟨hreturned, -⟩ := discard_readOnly hread (by simp [hphase]) hdiscard
    · exact .inl rfl
    · exact .inr hreturned

/-- A transaction that gets one key, and returns nil. -/
def getOneKey : List (Action Unit) :=
  beginCall () .transaction ++ [.read () (.get [1]) someEnv, .commit () [1001], .discard ()]

/-- It panics. -/
theorem read_only_panics :
    (run (step rejectDeltas) (serving clockAt1000 oneKey) getOneKey).map (fun s => (s.calls ()).phase) =
      some (.returned (some .panicked)) := by
  decide +kernel

/-- The leader after this. -/
def afterGetOneKey : Leader Unit :=
  final (guarded (step rejectDeltas) (BodyReads ())) (serving clockAt1000 oneKey) getOneKey (by decide +kernel)

/-- It has not returned nil. -/
theorem read_only_never_returns_nil_get : (afterGetOneKey.calls ()).phase ≠ .returned none :=
  (read_only_never_returns_nil rfl (Reaches.final _)).1

end Leader

end Omashu
