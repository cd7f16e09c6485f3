import Omashu.Lib.Run
import Mathlib.Data.List.Infix

/-!
# Linearizable point reads

`Get`, `Exists` and `GetWithTxn` call `waitForReadState` before they read from Badger. It asks Raft for a
read index and then waits for a `ReadState` on the channel `readStatesNotifier`. Raft answers a request by
a `ReadState` in a later Ready, whose index is not below the commit index at the time of the request.
`processReady` calls `respondToReadStates` before and after it applies the entries, which puts the last
`ReadState` that the applied index has reached on the channel. What is still pending then is dropped.

The channel is shared by all calls, and a call takes what is at its head. A call that has timed out or was
cancelled leaves its `ReadState` behind, and one that starts later takes it: `read_behind_commit` is such a
run, in which the applied index is below the commit index at the start of the call. Where every call takes
a `ReadState` whose request was made after the call started, its own or that of another one, the applied
index has reached the commit index at its start (`read_not_behind_commit`).

A request is known by its number. The model records with it the commit index of the cluster at the time of
the request, which is what the index of its `ReadState` is compared to.
-/

namespace Omashu

open Lib

/-- `raft.ReadState`. -/
structure ReadState where
  /-- The number of the request that it answers. -/
  request : ℕ
  /-- The confirmed index. -/
  index : ℕ
  deriving DecidableEq

/-- The loop of `respondToReadStates` from the end of the slice: the last one that the applied index has
reached, and those after it. -/
def lastReached (appliedIndex : ℕ) : List ReadState → Option ReadState × List ReadState
  | [] => (none, [])
  | rs :: rest =>
    match lastReached appliedIndex rest with
    | (some found, pending) => (some found, pending)
    | (none, _) => if rs.index ≤ appliedIndex then (some rs, rest) else (none, rs :: rest)

/-- `respondToReadStates`: what it puts on the channel, and what it returns. -/
def respondToReadStates (appliedIndex : ℕ) (readStates : List ReadState) :
    Option ReadState × List ReadState :=
  match readStates.getLast? with
  | none => (none, [])
  | some last => if last.index ≤ appliedIndex then (some last, []) else lastReached appliedIndex readStates

/-- A call of `waitForReadState`. The number is that of the first request after its start. -/
inductive Reader
  /-- No call. -/
  | idle
  /-- The call has started, at a commit index of the cluster. -/
  | called (since commit : ℕ)
  /-- `ReadIndex` is through, and the call waits in `WaitForReadState`. -/
  | waiting (since commit : ℕ)
  /-- The call has returned nil, at an applied index of the node. -/
  | returned (commit appliedIndex : ℕ)
  deriving DecidableEq

/-- The number of the first request after the start of the call. -/
def Reader.since : Reader → ℕ
  | .called since _ | .waiting since _ => since
  | .idle | .returned _ _ => 0

/-- Where `processReady` is, with the `ReadState`s that are pending. -/
inductive ReadPhase
  /-- Between two Readys. -/
  | idle
  /-- Before the first `respondToReadStates`. -/
  | first (readStates : List ReadState)
  /-- Before the entries are applied. -/
  | apply (pending : List ReadState)
  /-- Before the second `respondToReadStates`. -/
  | second (pending : List ReadState)
  deriving DecidableEq

/-- The `ReadState`s that are pending. -/
def ReadPhase.pending : ReadPhase → List ReadState
  | .idle => []
  | .first readStates => readStates
  | .apply pending => pending
  | .second pending => pending

/-- A node with the calls of its clients, and what it needs of the cluster. -/
structure ReadNode (ι : Type) where
  /-- The commit index of the cluster. -/
  commit : ℕ
  appliedIndex : ℕ
  /-- The commit index of the cluster at each `ReadIndex` request. -/
  requests : List ℕ
  /-- The requests that Raft has not answered. -/
  outstanding : List ℕ
  /-- The `ReadState`s of Raft for the next Readys. -/
  answered : List ReadState
  /-- `processReady`. -/
  phase : ReadPhase
  /-- `readStatesNotifier`, with room for two. -/
  notifier : List ReadState
  /-- The calls. -/
  readers : ι → Reader

/-- A step of a node. -/
inductive ReadAction (ι : Type)
  /-- A client calls `waitForReadState`. -/
  | call (i : ι)
  /-- `ReadIndex` of the call is through. -/
  | request (i : ι)
  /-- The call returns an error: that of `ReadIndex`, the timeout, or that of its context. -/
  | abandon (i : ι)
  /-- The call takes a `ReadState` from the channel and returns nil. -/
  | receive (i : ι)
  /-- The cluster commits entries. -/
  | commit (n : ℕ)
  /-- Raft answers a request. -/
  | answer (k index : ℕ)
  /-- Raft gives up a request. -/
  | drop (k : ℕ)
  /-- A Ready with some of the `ReadState`s. -/
  | ready (n : ℕ)
  /-- `respondToReadStates`. -/
  | respond
  /-- `processReady` sets the applied index, for a snapshot or for the entries. -/
  | apply (n : ℕ)
  /-- `processReady` is through with the entries. -/
  | applied

namespace ReadNode

variable {ι : Type} [DecidableEq ι] {s t : ReadNode ι} {i : ι}

/-- One of the calls changes. -/
def setReader (s : ReadNode ι) (i : ι) (c : Reader) : ReadNode ι :=
  { s with readers := Function.update s.readers i c }

/-- A client calls `waitForReadState`. -/
def call (s : ReadNode ι) (i : ι) : Option (ReadNode ι) :=
  match s.readers i with
  | .called _ _ | .waiting _ _ => none
  | .idle | .returned _ _ => some (s.setReader i (.called s.requests.length s.commit))

/-- `ReadIndex`. -/
def request (s : ReadNode ι) (i : ι) : Option (ReadNode ι) :=
  match s.readers i with
  | .called since commit =>
    some ({ s with
      requests := s.requests ++ [s.commit]
      outstanding := s.outstanding ++ [s.requests.length] }.setReader i (.waiting since commit))
  | _ => none

/-- An error of `ReadIndex` or of `WaitForReadState`. -/
def abandon (s : ReadNode ι) (i : ι) : Option (ReadNode ι) :=
  match s.readers i with
  | .called _ _ | .waiting _ _ => some (s.setReader i .idle)
  | .idle | .returned _ _ => none

/-- `WaitForReadState` returns the head of the channel, which `waitForReadState` does not look at. -/
def receive (s : ReadNode ι) (i : ι) : Option (ReadNode ι) :=
  match s.readers i, s.notifier with
  | .waiting _ commit, _ :: rest =>
    some ({ s with notifier := rest }.setReader i (.returned commit s.appliedIndex))
  | _, _ => none

/-- Raft answers the request at a position, by an index that is not below the commit index at the time of
the request. -/
def answer (s : ReadNode ι) (k index : ℕ) : Option (ReadNode ι) := do
  let n ← s.outstanding[k]?
  let commit ← s.requests[n]?
  if commit ≤ index then
    some { s with outstanding := s.outstanding.eraseIdx k, answered := s.answered ++ [⟨n, index⟩] }
  else none

/-- `respondToReadStates` in one of its two places. The channel has room for two, and a send to a full
one waits. -/
def respond (s : ReadNode ι) : Option (ReadNode ι) :=
  match s.phase with
  | .first readStates => send (respondToReadStates s.appliedIndex readStates) .apply
  | .second pending => send (respondToReadStates s.appliedIndex pending) fun _ => .idle
  | .idle | .apply _ => none
where
  /-- The send on the channel, and the next phase. -/
  send (r : Option ReadState × List ReadState) (next : List ReadState → ReadPhase) :
      Option (ReadNode ι) :=
    match r.1 with
    | none => some { s with phase := next r.2 }
    | some rs =>
      if s.notifier.length < 2 then some { s with notifier := s.notifier ++ [rs], phase := next r.2 }
      else none

/-- A step of a node. -/
def step (s : ReadNode ι) : ReadAction ι → Option (ReadNode ι)
  | .call i => s.call i
  | .request i => s.request i
  | .abandon i => s.abandon i
  | .receive i => s.receive i
  | .commit n => if s.commit ≤ n then some { s with commit := n } else none
  | .answer k index => s.answer k index
  | .drop k => some { s with outstanding := s.outstanding.eraseIdx k }
  | .ready n =>
    if s.phase = .idle then
      some { s with phase := .first (s.answered.take n), answered := s.answered.drop n }
    else none
  | .respond => s.respond
  | .apply n =>
    match s.phase with
    | .apply _ =>
      if s.appliedIndex ≤ n ∧ n ≤ s.commit then some { s with appliedIndex := n } else none
    | _ => none
  | .applied =>
    match s.phase with
    | .apply pending => some { s with phase := .second pending }
    | _ => none

end ReadNode

/-! ## Which calls return what -/

section Respond

variable {a : ℕ} {rs : ReadState} {readStates : List ReadState}

/-- The loop of `respondToReadStates` finds a `ReadState` that the applied index has reached, and leaves
others. -/
theorem lastReached_spec :
    (rs ∈ (lastReached a readStates).1 → rs ∈ readStates ∧ rs.index ≤ a) ∧
      (rs ∈ (lastReached a readStates).2 → rs ∈ readStates) := by
  induction readStates with
  | nil => simp [lastReached]
  | cons r rest ih =>
    unfold lastReached
    split
    next found pending heq =>
      rw [heq] at ih
      exact ⟨fun h => ⟨List.mem_cons_of_mem _ (ih.1 h).1, (ih.1 h).2⟩,
        fun h => List.mem_cons_of_mem _ (ih.2 h)⟩
    next heq =>
      split_ifs with hle
      · refine ⟨?_, List.mem_cons_of_mem _⟩
        intro h
        obtain rfl := Option.some.inj h
        exact ⟨List.mem_cons_self, hle⟩
      · exact ⟨fun h => absurd h (by simp), id⟩

/-- What `respondToReadStates` puts on the channel is one of the `ReadState`s that the applied index has
reached. -/
theorem mem_respondToReadStates_fst (h : rs ∈ (respondToReadStates a readStates).1) :
    rs ∈ readStates ∧ rs.index ≤ a := by
  unfold respondToReadStates at h
  split at h
  · exact absurd h (by simp)
  next last hlast =>
    split_ifs at h with hle
    · obtain rfl := Option.some.inj h
      exact ⟨List.mem_of_getLast? hlast, hle⟩
    · exact lastReached_spec.1 h

/-- What `respondToReadStates` returns is from the `ReadState`s. -/
theorem mem_respondToReadStates_snd (h : rs ∈ (respondToReadStates a readStates).2) :
    rs ∈ readStates := by
  unfold respondToReadStates at h
  split at h
  · exact absurd h List.not_mem_nil
  next last hlast =>
    split_ifs at h with hle
    · exact absurd h List.not_mem_nil
    · exact lastReached_spec.2 h

end Respond

/-- The index of a `ReadState` is not below the commit index at the time of its request. -/
def ReadState.Sound (requests : List ℕ) (rs : ReadState) : Prop :=
  ∃ commit, requests[rs.request]? = some commit ∧ commit ≤ rs.index

/-- A request does not change what the others are compared to. -/
theorem ReadState.Sound.append {requests more : List ℕ} {rs : ReadState} (h : rs.Sound requests) :
    rs.Sound (requests ++ more) := by
  obtain ⟨commit, hcommit, hle⟩ := h
  have hlt : rs.request < requests.length := (List.getElem?_eq_some_iff.mp hcommit).1
  exact ⟨commit, by rw [List.getElem?_append_left hlt, hcommit], hle⟩

/-- What holds of a call: the requests after its start were made at a commit index that is not below the
one at its start, and where it has returned the applied index had reached that. -/
def Reader.Inv (commit : ℕ) (requests : List ℕ) : Reader → Prop
  | .idle => True
  | .called since c | .waiting since c =>
    c ≤ commit ∧ ∀ n v, since ≤ n → requests[n]? = some v → c ≤ v
  | .returned c appliedIndex => c ≤ appliedIndex

/-- The commit index does not decrease. -/
theorem Reader.Inv.commit_le {commit commit' : ℕ} {requests : List ℕ} {c : Reader}
    (h : c.Inv commit requests) (hle : commit ≤ commit') : c.Inv commit' requests := by
  cases c with
  | idle => trivial
  | called | waiting => exact ⟨h.1.trans hle, h.2⟩
  | returned c a => exact h

/-- A request is made at the commit index of the time. -/
theorem Reader.Inv.append {commit : ℕ} {requests : List ℕ} {c : Reader} (h : c.Inv commit requests) :
    c.Inv commit (requests ++ [commit]) := by
  have hnew : ∀ since c : ℕ, (c ≤ commit ∧ ∀ n v, since ≤ n → requests[n]? = some v → c ≤ v) →
      c ≤ commit ∧ ∀ n v, since ≤ n → (requests ++ [commit])[n]? = some v → c ≤ v := by
    rintro since c ⟨hle, hold⟩
    refine ⟨hle, fun n v hn hv => ?_⟩
    rcases lt_or_ge n requests.length with hlt | hge
    · rw [List.getElem?_append_left hlt] at hv
      exact hold n v hn hv
    · rw [List.getElem?_append_right hge] at hv
      obtain rfl : commit = v := List.mem_singleton.mp (List.mem_of_getElem? hv) |>.symm
      exact hle
  cases c with
  | idle => trivial
  | called since c | waiting since c => exact hnew since c h
  | returned c a => exact h

namespace ReadNode

variable {ι : Type} [DecidableEq ι] {s t : ReadNode ι} {i : ι}

/-- A `ReadState` that a call may still take. -/
def Has (s : ReadNode ι) (rs : ReadState) : Prop :=
  rs ∈ s.answered ∨ rs ∈ s.phase.pending ∨ rs ∈ s.notifier

/-- The invariant of a node. -/
structure Inv (s : ReadNode ι) : Prop where
  /-- The calls. -/
  readers : ∀ i, (s.readers i).Inv s.commit s.requests
  /-- The answers of Raft. -/
  sound : ∀ rs, s.Has rs → rs.Sound s.requests
  /-- The applied index has reached what is on the channel. -/
  reached : ∀ rs ∈ s.notifier, rs.index ≤ s.appliedIndex

/-- A call that takes a `ReadState` takes one whose request was made after the call started. -/
def TakesLater (s : ReadNode ι) : ReadAction ι → Prop
  | .receive i => ∀ rs ∈ s.notifier.head?, (s.readers i).since ≤ rs.request
  | _ => True

/-- One of the calls changes, to one of which the invariant holds. -/
theorem Inv.setReader {c : Reader} (h : s.Inv) (hc : c.Inv s.commit s.requests) :
    (s.setReader i c).Inv :=
  ⟨(Function.forall_update_iff s.readers fun _ c => c.Inv s.commit s.requests).mpr
    ⟨hc, fun j _ => h.readers j⟩, h.sound, h.reached⟩

/-- A call starts. -/
theorem Inv.call (h : s.Inv) (hs : s.call i = some t) : t.Inv := by
  have hc : (Reader.called s.requests.length s.commit).Inv s.commit s.requests := by
    refine ⟨le_rfl, fun n v hn hv => ?_⟩
    rw [List.getElem?_eq_none hn] at hv
    cases hv
  unfold ReadNode.call at hs
  split at hs
  all_goals cases hs
  all_goals exact h.setReader hc

/-- A call makes its request. -/
theorem Inv.request (h : s.Inv) (hs : s.request i = some t) : t.Inv := by
  unfold ReadNode.request at hs
  split at hs
  · next since commit heq =>
    cases hs
    have hold := (h.readers i).append
    rw [heq] at hold
    refine Inv.setReader ⟨fun j => (h.readers j).append, fun rs hrs => (h.sound rs hrs).append, h.reached⟩ ?_
    exact hold
  · cases hs

/-- A call gives up. -/
theorem Inv.abandon (h : s.Inv) (hs : s.abandon i = some t) : t.Inv := by
  unfold ReadNode.abandon at hs
  split at hs
  all_goals cases hs
  all_goals exact h.setReader trivial

/-- A call takes a `ReadState`. -/
theorem Inv.receive (h : s.Inv) (hlater : s.TakesLater (.receive i)) (hs : s.receive i = some t) :
    t.Inv := by
  unfold ReadNode.receive at hs
  split at hs
  · next since commit rs rest hreader hnotifier =>
    cases hs
    have hsince : since ≤ rs.request := by simpa [TakesLater, Reader.since, hreader, hnotifier] using hlater
    have hmem : rs ∈ s.notifier := by rw [hnotifier]; exact List.mem_cons_self
    have hrest : ∀ r ∈ rest, r ∈ s.notifier := fun r hr => by
      rw [hnotifier]
      exact List.mem_cons_of_mem _ hr
    refine Inv.setReader ⟨h.readers, fun r hr => h.sound r (hr.imp_right (Or.imp_right (hrest r))),
      fun r hr => h.reached r (hrest r hr)⟩ ?_
    -- From the start of the call to its request, to the index of the answer, to the applied index.
    obtain ⟨v, hv, hle⟩ := h.sound rs (.inr (.inr hmem))
    have hcall := h.readers i
    rw [hreader] at hcall
    calc commit ≤ v := hcall.2 rs.request v hsince hv
      _ ≤ rs.index := hle
      _ ≤ s.appliedIndex := h.reached rs hmem
  · cases hs

omit [DecidableEq ι] in
/-- Raft answers a request. -/
theorem Inv.answer {k index : ℕ} (h : s.Inv) (hs : s.answer k index = some t) : t.Inv := by
  obtain ⟨n, -, hs⟩ := Option.bind_eq_some_iff.mp hs
  obtain ⟨v, hv, hs⟩ := Option.bind_eq_some_iff.mp hs
  split_ifs at hs with hle
  cases hs
  refine ⟨h.readers, ?_, h.reached⟩
  rintro rs (hrs | hrs)
  · rcases List.mem_append.mp hrs with hrs | hrs
    · exact h.sound rs (.inl hrs)
    · obtain rfl := List.mem_singleton.mp hrs
      exact ⟨v, hv, hle⟩
  · exact h.sound rs (.inr hrs)

omit [DecidableEq ι] in
/-- A send of what the applied index has reached. -/
theorem Inv.send {r : Option ReadState × List ReadState} {next : List ReadState → ReadPhase} (h : s.Inv)
    (hfst : ∀ rs ∈ r.1, rs.Sound s.requests ∧ rs.index ≤ s.appliedIndex)
    (hsnd : ∀ rs ∈ (next r.2).pending, rs.Sound s.requests) (hs : respond.send s r next = some t) :
    t.Inv := by
  unfold respond.send at hs
  split at hs
  · cases hs
    refine ⟨h.readers, ?_, h.reached⟩
    rintro rs (hrs | hrs | hrs)
    · exact h.sound rs (.inl hrs)
    · exact hsnd rs hrs
    · exact h.sound rs (.inr (.inr hrs))
  next found hfound =>
    split_ifs at hs
    cases hs
    obtain ⟨hsound, hle⟩ := hfst found hfound
    refine ⟨h.readers, ?_, ?_⟩
    · rintro rs (hrs | hrs | hrs)
      · exact h.sound rs (.inl hrs)
      · exact hsnd rs hrs
      · rcases List.mem_append.mp hrs with hrs | hrs
        · exact h.sound rs (.inr (.inr hrs))
        · rwa [List.mem_singleton.mp hrs]
    · intro rs hrs
      rcases List.mem_append.mp hrs with hrs | hrs
      · exact h.reached rs hrs
      · rwa [List.mem_singleton.mp hrs]

omit [DecidableEq ι] in
/-- `respondToReadStates`. -/
theorem Inv.respond (h : s.Inv) (hs : s.respond = some t) : t.Inv := by
  -- What is pending in the phase has been answered.
  have hpending : ∀ rs ∈ s.phase.pending, rs.Sound s.requests := fun rs hrs => h.sound rs (.inr (.inl hrs))
  unfold ReadNode.respond at hs
  split at hs
  · next readStates heq =>
    rw [heq] at hpending
    refine h.send (fun rs hrs => ?_) (fun rs hrs => ?_) hs
    · obtain ⟨hmem, hle⟩ := mem_respondToReadStates_fst hrs
      exact ⟨hpending rs hmem, hle⟩
    · exact hpending rs (mem_respondToReadStates_snd hrs)
  · next pending heq =>
    rw [heq] at hpending
    refine h.send (fun rs hrs => ?_) (fun rs hrs => absurd hrs List.not_mem_nil) hs
    obtain ⟨hmem, hle⟩ := mem_respondToReadStates_fst hrs
    exact ⟨hpending rs hmem, hle⟩
  · cases hs
  · cases hs

/-- One step. -/
theorem Inv.step {a : ReadAction ι} (h : s.Inv) (hlater : s.TakesLater a) (hs : s.step a = some t) :
    t.Inv := by
  cases a with
  | call i => exact h.call hs
  | request i => exact h.request hs
  | abandon i => exact h.abandon hs
  | receive i => exact h.receive hlater hs
  | commit n =>
    simp only [ReadNode.step] at hs
    split_ifs at hs with hle
    cases hs
    exact ⟨fun i => (h.readers i).commit_le hle, h.sound, h.reached⟩
  | answer k index => exact h.answer hs
  | drop k =>
    cases hs
    exact ⟨h.readers, h.sound, h.reached⟩
  | ready n =>
    simp only [ReadNode.step] at hs
    split_ifs at hs
    cases hs
    refine ⟨h.readers, ?_, h.reached⟩
    rintro rs (hrs | hrs | hrs)
    · exact h.sound rs (.inl (List.mem_of_mem_drop hrs))
    · exact h.sound rs (.inl (List.mem_of_mem_take hrs))
    · exact h.sound rs (.inr (.inr hrs))
  | respond => exact h.respond hs
  | apply n =>
    simp only [ReadNode.step] at hs
    split at hs
    · split_ifs at hs with hle
      cases hs
      exact ⟨h.readers, h.sound, fun rs hrs => (h.reached rs hrs).trans hle.1⟩
    · cases hs
  | applied =>
    simp only [ReadNode.step] at hs
    split at hs
    · next pending heq =>
      cases hs
      refine ⟨h.readers, fun rs hrs => h.sound rs ?_, h.reached⟩
      simpa only [Has, heq, ReadPhase.pending] using hrs
    · cases hs

/-- A node without calls, at a commit index of the cluster and an applied index. -/
def quiet (ι : Type) (commit appliedIndex : ℕ) : ReadNode ι :=
  ⟨commit, appliedIndex, [], [], [], .idle, [], fun _ => .idle⟩

/-- In every run in which a call takes only a `ReadState` whose request was made after the call started,
the applied index of the node at the return of a call is not below the commit index of the cluster at its
start. -/
theorem read_not_behind_commit {commit appliedIndex : ℕ}
    (h : Reaches ReadNode.step TakesLater (quiet ι commit appliedIndex) s) :
    ∀ i c a, s.readers i = .returned c a → c ≤ a := by
  have hstart : (quiet ι commit appliedIndex).Inv := by
    refine ⟨fun _ => trivial, ?_, fun rs hrs => absurd hrs List.not_mem_nil⟩
    rintro rs (hrs | hrs | hrs)
    all_goals exact absurd hrs List.not_mem_nil
  have hinv : s.Inv := h.invariant hstart fun _ _ _ hI hC hs => hI.step hC hs
  intro i c a hreader
  have hcall := hinv.readers i
  rwa [hreader] at hcall

instance (s : ReadNode ι) : (a : ReadAction ι) → Decidable (s.TakesLater a)
  | .receive _ => inferInstanceAs (Decidable (∀ rs ∈ s.notifier.head?, _))
  | .call _ | .request _ | .abandon _ | .commit _ | .answer .. | .drop _ | .ready _ | .respond | .apply _
  | .applied => inferInstanceAs (Decidable True)

/-- Raft answers the oldest request, and the answer is put on the channel. -/
def deliver (index : ℕ) : List (ReadAction Two) :=
  [.answer 0 index, .ready 1, .respond, .apply index, .applied, .respond]

/-- Two calls at the same time, where the second takes the `ReadState` of the first one, and the first
that of the second. -/
theorem read_not_behind_commit_crossed :
    ∃ s : ReadNode Two, s.readers .first = .returned 2 2 ∧ s.readers .second = .returned 2 2 ∧
      ∀ i c a, s.readers i = .returned c a → c ≤ a :=
  ⟨final (guarded ReadNode.step TakesLater) (quiet Two 1 1)
      (List.flatten [[.commit 2, .call .first, .call .second, .request .first, .request .second],
        deliver 2, deliver 2, [.receive .second, .receive .first]]) (by decide +kernel),
    by decide +kernel, by decide +kernel, read_not_behind_commit (Reaches.final _)⟩

/-- A call gives up, and its `ReadState` stays on the channel. The cluster commits the entry at two, a
second call starts, takes that `ReadState` and returns nil while the node has applied the entry at one
only. -/
theorem read_behind_commit :
    ∃ s : ReadNode Two, Reaches ReadNode.step (fun _ _ => True) (quiet Two 1 1) s ∧
      s.appliedIndex = 1 ∧ s.readers .second = .returned 2 1 :=
  ⟨final (guarded ReadNode.step fun _ _ => True) (quiet Two 1 1)
      (List.flatten [[.call .first, .request .first, .abandon .first], deliver 1,
        [.commit 2, .call .second, .request .second, .receive .second]]) (by decide +kernel),
    Reaches.final _, by decide +kernel, by decide +kernel⟩

end ReadNode

end Omashu
