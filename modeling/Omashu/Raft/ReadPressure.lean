import Omashu.Raft.ReadIndex

/-!
# The channel of the read states and the Ready loop

`respondToReadStates` sends on `readStatesNotifier` from the Ready loop, with no `select` around it. The channel has
room for two, and its only receivers are the calls in `WaitForReadState`. A call that gives up leaves the `ReadState`
of its request to the others, and where there are no others the loop waits: it applies no entries and sends no
messages.

Every `ReadState` that is on its way was requested by a call that waits for it or that has given up, since a call that
returns takes one. The loop waits with three of them at hand, two on the channel and the one to be sent. So the calls
that wait and those that have given up are at least three (`three_reads_of_blocked`), and one that waits lets the loop
go on. With none that waits, the loop goes on only after a later call has taken a `ReadState`
(`blocked_until_receive`).
-/

namespace Omashu

open Lib

/-- The call is in `WaitForReadState`. -/
def Reader.isWaiting : Reader → Bool
  | .waiting _ _ => true
  | .idle | .called _ _ | .returned _ _ => false

/-- `processReady` is at one of the two calls of `respondToReadStates`. -/
def ReadPhase.responds : ReadPhase → Bool
  | .first _ | .second _ => true
  | .idle | .apply _ => false

section Respond

variable (a : ℕ) (readStates : List ReadState)

/-- Of the `ReadState`s, the loop of `respondToReadStates` finds one and returns others. -/
theorem length_lastReached :
    (lastReached a readStates).1.toList.length + (lastReached a readStates).2.length ≤ readStates.length := by
  induction readStates with
  | nil => exact le_rfl
  | cons rs rest ih =>
    rw [lastReached]
    split
    next found pending heq =>
      rw [heq] at ih
      exact ih.trans (Nat.le_succ _)
    next heq =>
      split_ifs with hle
      · have hone : (some rs).toList.length + rest.length = (rs :: rest).length := by
          rw [Option.toList_some, List.length_singleton, List.length_cons, Nat.add_comm]
        exact hone.le
      · exact (Nat.zero_add _).le

/-- `respondToReadStates` sends one of the `ReadState`s and returns others. -/
theorem length_respondToReadStates :
    (respondToReadStates a readStates).1.toList.length + (respondToReadStates a readStates).2.length
      ≤ readStates.length := by
  unfold respondToReadStates
  split
  · exact Nat.zero_le _
  next last hlast =>
    split_ifs with hle
    · have hne : readStates ≠ [] := by
        rintro rfl
        cases hlast
      exact List.length_pos_iff.mpr hne
    · exact length_lastReached a readStates

end Respond

namespace ReadNode

variable {ι : Type} {s t : ReadNode ι} {a : ReadAction ι}

/-- The requests and the `ReadState`s that no call has taken. -/
def load (s : ReadNode ι) : ℕ :=
  s.outstanding.length + s.answered.length + s.phase.pending.length + s.notifier.length

/-- The number of calls in `WaitForReadState`. -/
def waiting [Fintype ι] (s : ReadNode ι) : ℕ := (Finset.univ.filter fun i => (s.readers i).isWaiting = true).card

/-- A call in `WaitForReadState` gives up. -/
def abandons (s : ReadNode ι) : ReadAction ι → ℕ
  | .abandon i => if (s.readers i).isWaiting = true then 1 else 0
  | _ => 0

/-- The Ready loop is in `respondToReadStates` and waits for room on the channel. -/
def Blocked (s : ReadNode ι) : Prop := s.phase.responds = true ∧ s.respond = none

instance : Decidable s.Blocked :=
  decidable_of_iff (s.phase.responds = true ∧ s.respond.isNone = true) (and_congr_right' Option.isNone_iff_eq_none)

/-! ## What a step does to the channel -/

/-- The send on the channel. -/
theorem send_eq_some {r : Option ReadState × List ReadState} {next : List ReadState → ReadPhase}
    (h : respond.send s r next = some t) :
    t = { s with notifier := s.notifier ++ r.1.toList, phase := next r.2 } ∧
      (r.1.isSome = true → s.notifier.length < 2) := by
  obtain ⟨found, pending⟩ := r
  cases found with
  | none =>
    obtain rfl := Option.some.inj h
    exact ⟨by simp, by simp⟩
  | some rs =>
    rw [respond.send] at h
    split_ifs at h with hroom
    obtain rfl := Option.some.inj h
    exact ⟨rfl, fun _ => hroom⟩

/-- `respondToReadStates` moves a `ReadState` from those that are pending to the channel, if there is room. What is
pending then are some of those that it returns: in the second place they are dropped. -/
theorem respond_eq_some (h : s.respond = some t) :
    ∃ phase : ReadPhase,
      t = { s with
        notifier := s.notifier ++ (respondToReadStates s.appliedIndex s.phase.pending).1.toList
        phase := phase } ∧
      phase.pending.length ≤ (respondToReadStates s.appliedIndex s.phase.pending).2.length ∧
      ((respondToReadStates s.appliedIndex s.phase.pending).1.isSome = true → s.notifier.length < 2) := by
  unfold respond at h
  split at h
  next readStates hphase =>
    obtain ⟨rfl, hroom⟩ := send_eq_some h
    rw [hphase]
    exact ⟨_, rfl, le_rfl, hroom⟩
  next pending hphase =>
    obtain ⟨rfl, hroom⟩ := send_eq_some h
    rw [hphase]
    exact ⟨_, rfl, Nat.zero_le _, hroom⟩
  · cases h
  · cases h

/-- The loop waits with a `ReadState` to send and a full channel. -/
theorem blocked_iff :
    s.Blocked ↔ s.phase.responds = true ∧
      (respondToReadStates s.appliedIndex s.phase.pending).1.isSome = true ∧ 2 ≤ s.notifier.length := by
  have hsend : ∀ (r : Option ReadState × List ReadState) (next : List ReadState → ReadPhase),
      respond.send s r next = none ↔ r.1.isSome = true ∧ 2 ≤ s.notifier.length := by
    rintro ⟨found, pending⟩ next
    cases found with
    | none => exact iff_of_false (Option.some_ne_none _) fun h => Bool.noConfusion h.1
    | some rs =>
      rw [respond.send]
      split_ifs with hroom
      · exact iff_of_false (fun h => h) fun h => absurd h.2 (not_le.mpr hroom)
      · exact iff_of_true rfl ⟨rfl, not_lt.mp hroom⟩
  refine and_congr_right fun hresponds => ?_
  rw [respond]
  cases hphase : s.phase with
  | first | second => exact hsend _ _
  | idle | apply => rw [hphase] at hresponds; cases hresponds

/-- The loop waits with three `ReadState`s at hand. -/
theorem Blocked.three_le_load (h : s.Blocked) : 3 ≤ s.load := by
  obtain ⟨-, hfound, hfull⟩ := blocked_iff.mp h
  obtain ⟨rs, hrs⟩ := Option.isSome_iff_exists.mp hfound
  have hpending : 0 < s.phase.pending.length := List.length_pos_of_mem (mem_respondToReadStates_fst hrs).1
  rw [load]
  omega

/-- A step that is not one of a call or of `respondToReadStates`: it takes no `ReadState` and makes no new one, and
while `respondToReadStates` is running it does not change what that looks at. -/
structure Silent (s t : ReadNode ι) : Prop where
  readers : t.readers = s.readers
  notifier : t.notifier = s.notifier
  load : t.load ≤ s.load
  phase : s.phase.responds = true → t.phase = s.phase ∧ t.appliedIndex = s.appliedIndex

variable [DecidableEq ι]

/-- A step begins or gives up a call, makes a request, takes a `ReadState`, runs `respondToReadStates`, or is silent. -/
theorem step_cases (h : s.step a = some t) :
    (∃ i c, t = s.setReader i c ∧ c.isWaiting = false ∧ (s.readers i).isWaiting.toNat ≤ s.abandons a) ∨
    (∃ i since commit, s.readers i = .called since commit ∧
      t = { s with
        requests := s.requests ++ [s.commit]
        outstanding := s.outstanding ++ [s.requests.length] }.setReader i (.waiting since commit)) ∨
    (∃ i since commit rs rest, a = .receive i ∧ s.readers i = .waiting since commit ∧ s.notifier = rs :: rest ∧
      t = { s with notifier := rest }.setReader i (.returned commit s.appliedIndex)) ∨
    s.respond = some t ∨
    s.Silent t := by
  cases a with
  | call i =>
    left
    rw [step, call] at h
    split at h <;> cases h
    next hi => exact ⟨i, _, rfl, rfl, by rw [hi]; exact le_rfl⟩
    next hi => exact ⟨i, _, rfl, rfl, by rw [hi]; exact le_rfl⟩
  | abandon i =>
    left
    rw [step, abandon] at h
    split at h <;> cases h
    next hi => exact ⟨i, _, rfl, rfl, by rw [hi]; exact Nat.zero_le _⟩
    next hi => exact ⟨i, _, rfl, rfl, by rw [abandons, hi]; exact le_rfl⟩
  | request i =>
    right; left
    rw [step, request] at h
    split at h <;> cases h
    next hi => exact ⟨i, _, _, hi, rfl⟩
  | receive i =>
    right; right; left
    rw [step, receive] at h
    split at h <;> cases h
    next hi hnotifier => exact ⟨i, _, _, _, _, rfl, hi, hnotifier, rfl⟩
  | respond => exact .inr (.inr (.inr (.inl h)))
  | commit n =>
    right; right; right; right
    rw [step] at h
    split_ifs at h
    cases h
    exact ⟨rfl, rfl, le_rfl, fun _ => ⟨rfl, rfl⟩⟩
  | answer k index =>
    right; right; right; right
    obtain ⟨n, hn, h⟩ := Option.bind_eq_some_iff.mp h
    obtain ⟨c, -, h⟩ := Option.bind_eq_some_iff.mp h
    split_ifs at h
    cases h
    -- The request is answered: one less is outstanding.
    have hk : k < s.outstanding.length := (List.getElem?_eq_some_iff.mp hn).1
    have herase : (s.outstanding.eraseIdx k).length + 1 = s.outstanding.length := List.length_eraseIdx_add_one hk
    refine ⟨rfl, rfl, ?_, fun _ => ⟨rfl, rfl⟩⟩
    simp only [ReadNode.load, List.length_append, List.length_singleton]
    omega
  | drop k =>
    right; right; right; right
    cases h
    have herase : (s.outstanding.eraseIdx k).length ≤ s.outstanding.length := List.length_eraseIdx_le _ _
    refine ⟨rfl, rfl, ?_, fun _ => ⟨rfl, rfl⟩⟩
    simp only [ReadNode.load]
    omega
  | ready n =>
    right; right; right; right
    rw [step] at h
    split_ifs at h with hidle
    cases h
    have hsplit : (s.answered.take n).length + (s.answered.drop n).length = s.answered.length := by
      rw [← List.length_append, List.take_append_drop]
    refine ⟨rfl, rfl, ?_, fun hresponds => by rw [hidle] at hresponds; cases hresponds⟩
    simp only [ReadNode.load, hidle, ReadPhase.pending, List.length_nil]
    omega
  | apply n =>
    right; right; right; right
    rw [step] at h
    split at h
    next pending hphase =>
      split_ifs at h
      cases h
      exact ⟨rfl, rfl, le_rfl, fun hresponds => by rw [hphase] at hresponds; cases hresponds⟩
    · cases h
  | applied =>
    right; right; right; right
    rw [step] at h
    split at h <;> cases h
    next pending hphase =>
      refine ⟨rfl, rfl, ?_, fun hresponds => by rw [hphase] at hresponds; cases hresponds⟩
      simp only [ReadNode.load, hphase, ReadPhase.pending]
      exact le_rfl

/-- The channel holds two at most. -/
theorem length_notifier_step (h : s.step a = some t) (hs : s.notifier.length ≤ 2) : t.notifier.length ≤ 2 := by
  obtain ⟨i, c, rfl, -⟩ | ⟨i, since, commit, -, rfl⟩ | ⟨i, since, commit, rs, rest, -, -, hnotifier, rfl⟩ | h | h :=
    step_cases h
  · exact hs
  · exact hs
  · have hlength : rest.length + 1 ≤ 2 := by rwa [hnotifier] at hs
    exact Nat.le_of_succ_le hlength
  · obtain ⟨phase, rfl, -, hroom⟩ := respond_eq_some h
    cases hfound : (respondToReadStates s.appliedIndex s.phase.pending).1 with
    | none => simpa [hfound] using hs
    | some rs =>
      have hlt : s.notifier.length < 2 := hroom (by rw [hfound]; rfl)
      simpa [hfound] using Nat.le_of_lt_succ hlt
  · rwa [h.notifier]

/-- Only a call that takes a `ReadState` lets the loop go on. -/
theorem Blocked.step (h : s.Blocked) (ha : ∀ i, a ≠ .receive i) (hs : s.step a = some t) :
    t.Blocked ∧ t.phase = s.phase ∧ t.appliedIndex = s.appliedIndex := by
  have hsame : t.phase = s.phase → t.appliedIndex = s.appliedIndex → t.notifier = s.notifier →
      t.Blocked ∧ t.phase = s.phase ∧ t.appliedIndex = s.appliedIndex := by
    intro hphase happlied hnotifier
    refine ⟨?_, hphase, happlied⟩
    rw [blocked_iff, hphase, happlied, hnotifier]
    exact blocked_iff.mp h
  obtain ⟨i, c, rfl, -⟩ | ⟨i, since, commit, -, rfl⟩ | ⟨i, since, commit, rs, rest, rfl, -⟩ | hrespond | hsilent :=
    step_cases hs
  · exact hsame rfl rfl rfl
  · exact hsame rfl rfl rfl
  · exact absurd rfl (ha i)
  · rw [h.2] at hrespond
    cases hrespond
  · obtain ⟨hphase, happlied⟩ := hsilent.phase h.1
    exact hsame hphase happlied hsilent.notifier

/-- A call that waits takes a `ReadState`, and the loop goes on. -/
theorem Blocked.receive {i : ι} (h : s.Blocked) (hs : s.notifier.length ≤ 2) (hi : (s.readers i).isWaiting = true) :
    ∃ u, s.step (.receive i) = some u ∧ u.respond.isSome = true := by
  obtain ⟨hresponds, -, hfull⟩ := blocked_iff.mp h
  obtain ⟨rs, rest, hnotifier⟩ := List.exists_cons_of_length_pos (by omega : 0 < s.notifier.length)
  obtain ⟨since, commit, hi⟩ : ∃ since commit, s.readers i = .waiting since commit := by
    cases hreader : s.readers i with
    | waiting since commit => exact ⟨since, commit, rfl⟩
    | idle | called | returned => rw [hreader] at hi; cases hi
  refine ⟨{ s with notifier := rest }.setReader i (.returned commit s.appliedIndex), ?_, ?_⟩
  · rw [ReadNode.step, ReadNode.receive, hi, hnotifier]
  · rw [Option.isSome_iff_ne_none]
    intro hnone
    have hstill : Blocked ({ s with notifier := rest }.setReader i (.returned commit s.appliedIndex)) :=
      ⟨hresponds, hnone⟩
    have hlength : 2 ≤ rest.length := (blocked_iff.mp hstill).2.2
    rw [hnotifier, List.length_cons] at hs
    omega

/-! ## The calls and the channel -/

section Count

variable [Fintype ι]

/-- A call changes. -/
theorem waiting_setReader (s : ReadNode ι) (i : ι) (c : Reader) :
    (s.setReader i c).waiting + (s.readers i).isWaiting.toNat = s.waiting + c.isWaiting.toNat := by
  have hcount := card_filter_update s.readers i c fun c => c.isWaiting = true
  have htoNat : ∀ b : Bool, b.toNat = if b = true then 1 else 0 := by decide
  rw [htoNat, htoNat]
  exact hcount

/-- What no call has taken exceeds the calls that wait by no more than before, except where one gives up. -/
theorem load_step (h : s.step a = some t) : (t.load : ℤ) - t.waiting ≤ s.load - s.waiting + s.abandons a := by
  obtain ⟨i, c, rfl, hc, hi⟩ | ⟨i, since, commit, hi, ht⟩ | ⟨i, since, commit, rs, rest, -, hi, hnotifier, ht⟩ |
    h | h := step_cases h
  · have hload : (s.setReader i c).load = s.load := rfl
    have hcount := waiting_setReader s i c
    rw [hc, Bool.toNat_false] at hcount
    omega
  · -- One more request, and one more call that waits.
    have hload : t.load = s.load + 1 := by
      simp only [ht, load, setReader, List.length_append, List.length_singleton]
      omega
    have hcount : t.waiting + (s.readers i).isWaiting.toNat = s.waiting + 1 := by
      rw [ht]
      exact waiting_setReader _ i (.waiting since commit)
    rw [hi] at hcount
    have hnot : (Reader.called since commit).isWaiting.toNat = 0 := rfl
    omega
  · -- One `ReadState` less, and one call less that waits.
    have hload : t.load + 1 = s.load := by
      simp only [ht, load, setReader, hnotifier, List.length_cons]
      omega
    have hcount : t.waiting + (s.readers i).isWaiting.toNat = s.waiting + 0 := by
      rw [ht]
      exact waiting_setReader _ i (.returned commit s.appliedIndex)
    rw [hi] at hcount
    have hwas : (Reader.waiting since commit).isWaiting.toNat = 1 := rfl
    omega
  · obtain ⟨phase, rfl, hpending, -⟩ := respond_eq_some h
    have hlength := length_respondToReadStates s.appliedIndex s.phase.pending
    have hwaiting : waiting { s with
        notifier := s.notifier ++ (respondToReadStates s.appliedIndex s.phase.pending).1.toList
        phase := phase } = s.waiting := rfl
    simp only [load, List.length_append, hwaiting]
    omega
  · have hwaiting : t.waiting = s.waiting := by rw [waiting, waiting, h.readers]
    have hload := h.load
    omega

end Count

/-- The loop waits for room on the channel only with three calls that wait or that have given up, and goes on when one
that waits has taken a `ReadState`. -/
theorem three_reads_of_blocked [Fintype ι] {commit appliedIndex : ℕ} {as : List (ReadAction ι)}
    (h : run step (quiet ι commit appliedIndex) as = some s) (hb : s.Blocked) :
    3 ≤ s.waiting + tally step abandons (quiet ι commit appliedIndex) as ∧
      ∀ i, (s.readers i).isWaiting = true → ∃ u, s.step (.receive i) = some u ∧ u.respond.isSome = true := by
  have hload := le_add_tally h fun _ _ _ => load_step
  have hquiet : ((quiet ι commit appliedIndex).load : ℤ) - (quiet ι commit appliedIndex).waiting = 0 := by
    simp [quiet, load, waiting, ReadPhase.pending, Reader.isWaiting]
  have hthree := hb.three_le_load
  have hlength : s.notifier.length ≤ 2 :=
    run_invariant (I := fun u : ReadNode ι => u.notifier.length ≤ 2) h (Nat.zero_le 2)
      fun _ _ _ _ hs hstep => length_notifier_step hstep hs
  exact ⟨by omega, fun i hi => hb.receive hlength hi⟩

/-- A read that is given up after its request, and its `ReadState` on the channel. -/
def giveUp (index : ℕ) : List (ReadAction Two) := [.call .first, .request .first, .abandon .first] ++ deliver index

/-- Two reads are given up, and a third one waits when the loop is to send the third `ReadState`. -/
theorem three_reads_of_blocked_waiting :
    ∃ s : ReadNode Two, s.Blocked ∧ s.waiting = 1 ∧
      ∃ u, s.step (.receive .first) = some u ∧ u.respond.isSome = true := by
  have hrun : run step (quiet Two 1 1)
      (giveUp 1 ++ giveUp 1 ++ [.call Two.first, .request .first, .answer 0 1, .ready 1]) = some _ :=
    run_final (by decide)
  have hblocked : Blocked (final step (quiet Two 1 1)
      (giveUp 1 ++ giveUp 1 ++ [.call Two.first, .request .first, .answer 0 1, .ready 1]) (by decide)) := by decide
  exact ⟨_, hblocked, by decide, (three_reads_of_blocked hrun hblocked).2 .first (by decide)⟩

/-- As long as no call takes a `ReadState` the loop stays where it is, and the node applies nothing. -/
theorem blocked_until_receive {as : List (ReadAction ι)} (h : run step s as = some t) (hb : s.Blocked)
    (hno : ∀ i, .receive i ∉ as) : t.Blocked ∧ t.phase = s.phase ∧ t.appliedIndex = s.appliedIndex := by
  induction as generalizing s with
  | nil =>
    obtain rfl := Option.some.inj h
    exact ⟨hb, rfl, rfl⟩
  | cons a as ih =>
    obtain ⟨u, hu, h⟩ := Option.bind_eq_some_iff.mp h
    have hne : ∀ i, a ≠ .receive i := fun i hi => hno i (hi ▸ List.mem_cons_self)
    obtain ⟨hblocked, hphase, happlied⟩ := hb.step hne hu
    obtain ⟨hblocked', hphase', happlied'⟩ := ih h hblocked fun i hi => hno i (List.mem_cons_of_mem _ hi)
    exact ⟨hblocked', hphase'.trans hphase, happlied'.trans happlied⟩

/-- Three reads that are given up. -/
def afterThree : ReadNode Two :=
  final step (quiet Two 1 1)
    (giveUp 1 ++ giveUp 1 ++ [.call .first, .request .first, .abandon .first, .answer 0 1, .ready 1]) (by decide)

/-- After three reads that are given up the node does not apply what the cluster commits. -/
theorem blocked_until_receive_given_up :
    ∃ t : ReadNode Two,
      run step afterThree [.commit 5, .call .second, .request .second, .abandon .second, .answer 0 5] = some t ∧
      t.Blocked ∧ t.commit = 5 ∧ t.appliedIndex = 1 := by
  have hrun : run step afterThree [.commit 5, .call .second, .request .second, .abandon .second, .answer 0 5] =
      some _ := run_final (by decide)
  obtain ⟨hblocked, -, happlied⟩ := blocked_until_receive hrun (by decide) (by simp)
  exact ⟨_, hrun, hblocked, by decide, happlied⟩

end ReadNode

end Omashu
