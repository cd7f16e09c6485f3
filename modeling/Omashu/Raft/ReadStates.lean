import Omashu.Raft.ReadIndex
import Mathlib.Data.List.Perm.Basic

/-!
# What becomes of the `ReadState`s of the Readys

`processReady` calls `respondToReadStates` on the `ReadState`s of its Ready before it applies the entries,
and on what that leaves pending after it has applied them. Each call forwards one `ReadState` at most, the
last one that the applied index has reached, and drops the ones before it. What the second call leaves is
dropped with the Ready, and a Ready that removes the node returns before the second call.

`ReadStateLoop` records over a sequence of Readys which `ReadState`s were received and which were forwarded.
`forwarded_once_iff` says for which sequences every `ReadState` that the applied index has reached has been
forwarded exactly once, and no other one, after each of the calls.
-/

namespace Omashu

open Lib

/-- What `processReady` reads of a Ready for its `ReadState`s and the applied index. -/
structure ReadStatesReady where
  readStates : List ReadState
  /-- The index of the snapshot, if it is not empty. -/
  snapshot : Option ℕ
  /-- The number of entries that `getEntriesToApply` leaves. They follow the applied index. -/
  entries : ℕ
  /-- The result of `applyEntries`: the last configuration change among the entries removes this node. -/
  selfRemove : Bool
  deriving DecidableEq

namespace ReadStatesReady

/-- `applySnapshotToFSM` and `applyEntries` on the applied index. A snapshot that is not newer is an
error. -/
def applyTo (rd : ReadStatesReady) (appliedIndex : ℕ) : Option ℕ :=
  match rd.snapshot with
  | none => some (appliedIndex + rd.entries)
  | some index => if index ≤ appliedIndex then none else some (index + rd.entries)

/-- A Ready that has only `ReadState`s and entries. -/
def plain (readStates : List ReadState) (entries : ℕ) : ReadStatesReady :=
  ⟨readStates, none, entries, false⟩

/-- The call returns after `applyEntries`, before the second `respondToReadStates`. -/
def Removed (rd : ReadStatesReady) : Prop := 0 < rd.entries ∧ rd.selfRemove = true

instance (rd : ReadStatesReady) : Decidable rd.Removed := inferInstanceAs (Decidable (_ ∧ _))

/-- The applied index does not go back. -/
theorem le_of_applyTo {rd : ReadStatesReady} {a a' : ℕ} (h : rd.applyTo a = some a') : a ≤ a' := by
  unfold applyTo at h
  split at h
  · obtain rfl := Option.some.inj h
    omega
  · split_ifs at h
    obtain rfl := Option.some.inj h
    omega

end ReadStatesReady

/-- The ready loop with what it has received and forwarded. -/
structure ReadStateLoop where
  appliedIndex : ℕ
  /-- The `ReadState`s of the Readys so far. -/
  received : List ReadState
  /-- The `ReadState`s that were put on `readStatesNotifier`. -/
  forwarded : List ReadState
  deriving DecidableEq

namespace ReadStateLoop

/-- The `ReadState`s that a call of `processReady` forwards, at the applied index before and after it has
applied the entries. -/
def forward (rd : ReadStatesReady) (a a' : ℕ) : List ReadState :=
  let first := respondToReadStates a rd.readStates
  if rd.Removed then first.1.toList
  else first.1.toList ++ (respondToReadStates a' first.2).1.toList

/-- A call of `processReady` that completes. The indices of the `ReadState`s of a Ready do not decrease. -/
def step (s : ReadStateLoop) (rd : ReadStatesReady) : Option ReadStateLoop :=
  if (rd.readStates.map ReadState.index).Pairwise (· ≤ ·) then
    (rd.applyTo s.appliedIndex).map fun a' =>
      { appliedIndex := a'
        received := s.received ++ rd.readStates
        forwarded := s.forwarded ++ forward rd s.appliedIndex a' }
  else none

/-- Every `ReadState` received that the applied index has reached was forwarded exactly once, and no
other one was. -/
def ForwardedOnce (s : ReadStateLoop) : Prop :=
  s.forwarded.Perm (s.received.filter fun rs => rs.index ≤ s.appliedIndex)

instance (s : ReadStateLoop) : Decidable s.ForwardedOnce := inferInstanceAs (Decidable (List.Perm _ _))

/-- The `ReadState`s whose index is reached between two applied indices. -/
def reachedBetween (a a' : ℕ) (readStates : List ReadState) : List ReadState :=
  readStates.filter fun rs => a < rs.index ∧ rs.index ≤ a'

/-- No `ReadState` of an earlier Ready is first reached by this one, and of its own at most one is reached
before the entries are applied and at most one by applying them, none if they remove the node. -/
def NoneDropped (s : ReadStateLoop) (rd : ReadStatesReady) : Prop :=
  ∀ a' ∈ rd.applyTo s.appliedIndex,
    reachedBetween s.appliedIndex a' s.received = [] ∧
      (rd.readStates.filter fun rs => rs.index ≤ s.appliedIndex).length ≤ 1 ∧
      (reachedBetween s.appliedIndex a' rd.readStates).length ≤ if rd.Removed then 0 else 1

instance (s : ReadStateLoop) (rd : ReadStatesReady) : Decidable (s.NoneDropped rd) :=
  inferInstanceAs (Decidable (∀ a' ∈ rd.applyTo s.appliedIndex, _))

section Respond

variable {a a' : ℕ} {readStates : List ReadState}

/-- Where the indices do not decrease, the loop of `respondToReadStates` finds the last `ReadState` that is
reached and leaves those that are not. -/
theorem lastReached_eq (h : (readStates.map ReadState.index).Pairwise (· ≤ ·)) :
    lastReached a readStates =
      ((readStates.filter fun rs => rs.index ≤ a).getLast?,
        readStates.filter fun rs => a < rs.index) := by
  induction readStates with
  | nil => rfl
  | cons rs rest ih =>
    rw [List.map_cons, List.pairwise_cons] at h
    obtain ⟨hle, hrest⟩ := h
    have hle' : ∀ r ∈ rest, rs.index ≤ r.index := fun r hr => hle _ (List.mem_map_of_mem hr)
    unfold lastReached
    rw [ih hrest]
    by_cases hreached : rs.index ≤ a
    · have hnot : ¬a < rs.index := not_lt.mpr hreached
      cases hlast : (rest.filter fun r => r.index ≤ a).getLast? with
      | some found => simp [hreached, hnot, List.getLast?_cons, hlast]
      | none =>
        -- None of the rest is reached.
        have hnone := List.getLast?_eq_none_iff.mp hlast
        have habove : ∀ r ∈ rest, a < r.index := by simpa using List.filter_eq_nil_iff.mp hnone
        have hall : rest.filter (fun r => a < r.index) = rest := by
          simpa [List.filter_eq_self] using habove
        simp [hreached, hnot, hnone, hall]
    · -- Before one that is not reached there is no need to look.
      have hlt := not_le.mp hreached
      have habove : ∀ r ∈ rest, a < r.index := fun r hr => lt_of_lt_of_le hlt (hle' r hr)
      have hnone : rest.filter (fun r => r.index ≤ a) = [] := by
        simpa [List.filter_eq_nil_iff] using habove
      have hall : rest.filter (fun r => a < r.index) = rest := by
        simpa [List.filter_eq_self] using habove
      simp [hreached, hlt, hnone, hall]

/-- Where the indices do not decrease, `respondToReadStates` forwards the last `ReadState` that is reached
and returns those that are not. -/
theorem respondToReadStates_eq (h : (readStates.map ReadState.index).Pairwise (· ≤ ·)) :
    respondToReadStates a readStates =
      ((readStates.filter fun rs => rs.index ≤ a).getLast?,
        readStates.filter fun rs => a < rs.index) := by
  unfold respondToReadStates
  cases hlast : readStates.getLast? with
  | none => simp [List.getLast?_eq_none_iff.mp hlast]
  | some last =>
    dsimp only
    split_ifs with hreached
    · -- With the last one all are reached.
      have hall : ∀ rs ∈ readStates, rs.index ≤ a := by
        obtain ⟨front, rfl⟩ := List.getLast?_eq_some_iff.mp hlast
        rw [List.map_append, List.pairwise_append] at h
        intro rs hrs
        rcases List.mem_append.mp hrs with hrs | hrs
        · exact le_trans (h.2.2 _ (List.mem_map_of_mem hrs) _ (by simp)) hreached
        · rw [List.mem_singleton.mp hrs]
          exact hreached
      have hfilter : readStates.filter (fun rs => rs.index ≤ a) = readStates := by
        simpa [List.filter_eq_self] using hall
      have hnone : readStates.filter (fun rs => a < rs.index) = [] := by
        simpa [List.filter_eq_nil_iff] using hall
      rw [hfilter, hnone, hlast]
    · exact lastReached_eq h

/-- What is left by two calls, the second one on what the first one returned, is what one call leaves at the
larger applied index. -/
theorem respondToReadStates_snd_comp (h : (readStates.map ReadState.index).Pairwise (· ≤ ·)) (ha : a ≤ a') :
    (respondToReadStates a' (respondToReadStates a readStates).2).2 = (respondToReadStates a' readStates).2 := by
  have hpending : ((readStates.filter fun rs => a < rs.index).map ReadState.index).Pairwise (· ≤ ·) :=
    h.sublist (List.filter_sublist.map _)
  rw [respondToReadStates_eq h]
  dsimp only
  rw [respondToReadStates_eq hpending, respondToReadStates_eq h]
  dsimp only
  rw [List.filter_filter]
  refine List.filter_congr fun rs _ => ?_
  have himp : a' < rs.index → a < rs.index := lt_of_le_of_lt ha
  simpa using himp

/-- `respondToReadStates` parts the `ReadState`s at the applied index: it forwards none but the last one that
is reached, and returns those that are not reached, in their order. Calling it again on these leaves what one
call at the later applied index leaves. -/
theorem respondToReadStates_parts (h : (readStates.map ReadState.index).Pairwise (· ≤ ·)) :
    (respondToReadStates a readStates).1 = (readStates.filter fun rs => rs.index ≤ a).getLast? ∧
      (respondToReadStates a readStates).2 = (readStates.filter fun rs => a < rs.index) ∧
      ∀ a' ≥ a, (respondToReadStates a' (respondToReadStates a readStates).2).2 =
        (respondToReadStates a' readStates).2 := by
  have heq := respondToReadStates_eq (a := a) h
  refine ⟨?_, ?_, fun a' ha => respondToReadStates_snd_comp h ha⟩
  · rw [heq]
  · rw [heq]

/-- Of the indices one, three, three and five the last three is forwarded at four, and five is left. -/
theorem respondToReadStates_parts_four :
    (respondToReadStates 4 [⟨0, 1⟩, ⟨1, 3⟩, ⟨2, 3⟩, ⟨3, 5⟩]).2 = [⟨3, 5⟩] :=
  (respondToReadStates_parts (by decide)).2.1

/-- A call forwards the last `ReadState` that is reached before the entries are applied and, unless they
remove the node, the last one that is reached by applying them. -/
theorem forward_eq {rd : ReadStatesReady}
    (h : (rd.readStates.map ReadState.index).Pairwise (· ≤ ·)) :
    forward rd a a' = (rd.readStates.filter fun rs => rs.index ≤ a).getLast?.toList ++
      if rd.Removed then [] else (reachedBetween a a' rd.readStates).getLast?.toList := by
  have hpending : ((rd.readStates.filter fun rs => a < rs.index).map ReadState.index).Pairwise
      (· ≤ ·) := h.sublist (List.filter_sublist.map _)
  have hbetween : (rd.readStates.filter fun rs => a < rs.index).filter (fun rs => rs.index ≤ a') =
      reachedBetween a a' rd.readStates := by
    rw [List.filter_filter, reachedBetween]
    congr 1
    funext rs
    simp [and_comm]
  unfold forward
  rw [respondToReadStates_eq h]
  dsimp only
  rw [respondToReadStates_eq hpending, hbetween]
  split_ifs <;> simp

end Respond

/-- The last of a list, where there is at most one, is the list. -/
theorem toList_getLast?_eq {α : Type*} {l : List α} (h : l.length ≤ 1) : l.getLast?.toList = l := by
  match l, h with
  | [], _ => rfl
  | [x], _ => rfl

/-- The last of a list is at most one. -/
theorem length_toList_getLast? {α : Type*} (l : List α) :
    l.getLast?.toList.length = min l.length 1 := by
  cases l with
  | nil => rfl
  | cons x l => simp [List.getLast?_cons]

/-- What is reached at the later of two applied indices was reached at the earlier one, or is reached
between them. -/
theorem filter_reached_perm {a a' : ℕ} (h : a ≤ a') (readStates : List ReadState) :
    (readStates.filter fun rs => rs.index ≤ a').Perm
      ((readStates.filter fun rs => rs.index ≤ a) ++ reachedBetween a a' readStates) := by
  have hperm := List.filter_append_perm (fun rs : ReadState => decide (rs.index ≤ a))
    (readStates.filter fun rs => rs.index ≤ a')
  rw [List.filter_filter, List.filter_filter] at hperm
  refine hperm.symm.trans (List.Perm.of_eq ?_)
  unfold reachedBetween
  congr 2
  · funext rs
    simp
    omega
  · funext rs
    simp only [← decide_not, not_le, Bool.decide_and]

variable {s t : ReadStateLoop} {rd : ReadStatesReady}

/-- One call: where every `ReadState` that is reached was forwarded once before it, this is so after it
exactly if the call drops none. -/
theorem forwardedOnce_step_iff (hs : s.ForwardedOnce) (h : s.step rd = some t) :
    t.ForwardedOnce ↔ s.NoneDropped rd := by
  unfold step at h
  split_ifs at h with hsorted
  obtain ⟨a', ha', rfl⟩ := Option.map_eq_some_iff.mp h
  have hle := ReadStatesReady.le_of_applyTo ha'
  set a := s.appliedIndex with ha
  -- What must have been forwarded, in the parts in which the call treats it.
  have hparts : ((s.received ++ rd.readStates).filter fun rs => rs.index ≤ a').Perm
      (s.forwarded ++ (reachedBetween a a' s.received ++
        ((rd.readStates.filter fun rs => rs.index ≤ a) ++ reachedBetween a a' rd.readStates))) := by
    rw [List.filter_append, ← List.append_assoc]
    refine List.Perm.append ?_ (filter_reached_perm hle _)
    exact (filter_reached_perm hle _).trans (hs.symm.append_right _)
  have hnone : s.NoneDropped rd ↔ reachedBetween a a' s.received = [] ∧
      (rd.readStates.filter fun rs => rs.index ≤ a).length ≤ 1 ∧
      (reachedBetween a a' rd.readStates).length ≤ if rd.Removed then 0 else 1 := by
    unfold NoneDropped
    rw [← ha, ha']
    simp
  unfold ForwardedOnce
  dsimp only
  rw [hnone, forward_eq hsorted]
  constructor
  · -- The call forwards at most one of each part, so the lengths leave no room for more.
    intro hperm
    have hlen := (List.perm_append_left_iff _).mp (hperm.trans hparts) |>.length_eq
    simp only [List.length_append, length_toList_getLast?] at hlen
    rw [← List.length_eq_zero_iff]
    split_ifs at hlen ⊢ with hremoved
    · simp only [List.length_nil] at hlen
      omega
    · simp only [length_toList_getLast?] at hlen
      omega
  · rintro ⟨hearlier, hfirst, hsecond⟩
    refine List.Perm.trans (List.Perm.of_eq ?_) hparts.symm
    rw [hearlier, List.nil_append, toList_getLast?_eq hfirst]
    split_ifs at hsecond ⊢ with hremoved
    · rw [List.length_eq_zero_iff.mp (Nat.le_zero.mp hsecond)]
    · rw [toList_getLast?_eq hsecond]

/-- The loop before its first Ready, at any applied index. -/
def start (appliedIndex : ℕ) : ReadStateLoop := ⟨appliedIndex, [], []⟩

/-- After every call of a sequence of completed calls of `processReady`, each `ReadState` received so far
whose index is at most the applied index has been forwarded exactly once and no other one has been
forwarded, exactly if none of the calls drops one: none reaches a `ReadState` that an earlier Ready has
left, none has two of its own that are reached in the same one of its two places, and none that removes
the node reaches one of its own. -/
theorem forwarded_once_iff {appliedIndex : ℕ} {readys : List ReadStatesReady}
    (h : run step (start appliedIndex) readys = some t) :
    (∀ u, Passes step (start appliedIndex) readys u → u.ForwardedOnce) ↔
      Along step NoneDropped (start appliedIndex) readys := by
  rw [← forall_passes_iff_along (I := ForwardedOnce) (B := fun u => ¬u.ForwardedOnce) ?_ ?_ ?_ ?_ h]
  · simp only [not_not]
  · intro s rd t hs hnone hstep
    exact (forwardedOnce_step_iff hs hstep).mpr hnone
  · intro s rd t hs hdrop hstep hforwarded
    exact hdrop ((forwardedOnce_step_iff hs hstep).mp hforwarded)
  · intro s hs hnot
    exact hnot hs
  · exact List.Perm.nil

/-- One Ready with a `ReadState` that is reached at once and one that its entries reach, and one without
any. -/
theorem forwarded_once_iff_two_readys :
    ∃ t, run step (start 7) [.plain [⟨0, 7⟩, ⟨1, 8⟩] 1, .plain [] 3] = some t ∧
      ∀ u, Passes step (start 7) [.plain [⟨0, 7⟩, ⟨1, 8⟩] 1, .plain [] 3] u → u.ForwardedOnce :=
  ⟨_, rfl, (forwarded_once_iff rfl).mpr (by decide)⟩

/-- Two reads are confirmed in one Ready at an index that is applied: only the second one is forwarded. A
third one is confirmed at an index that the next Ready applies, and is not forwarded at all. -/
theorem read_states_dropped :
    run step (start 7) [.plain [⟨0, 7⟩, ⟨1, 7⟩] 0] = some ⟨7, [⟨0, 7⟩, ⟨1, 7⟩], [⟨1, 7⟩]⟩ ∧
      ¬(⟨7, [⟨0, 7⟩, ⟨1, 7⟩], [⟨1, 7⟩]⟩ : ReadStateLoop).ForwardedOnce ∧
      run step (start 7) [.plain [⟨2, 8⟩] 0, .plain [] 1] = some ⟨8, [⟨2, 8⟩], []⟩ ∧
      ¬(⟨8, [⟨2, 8⟩], []⟩ : ReadStateLoop).ForwardedOnce := by
  decide

end ReadStateLoop

end Omashu
