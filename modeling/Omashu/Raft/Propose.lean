import Omashu.Lib.Run
import Omashu.Store.Badger

/-!
# Proposals and their responses

`proposeAndWait` hands a command to `proposeHandler` and waits on a channel of its own. The handler
proposes the command to Raft and sends a response, and `listenProposeResponses` routes the response to
the channel of the call. Meanwhile the Ready loop commits and applies the entries of the log.

The response is sent as soon as `Node.Propose` has accepted the command into the node's own log. Nothing
connects it with the Ready loop, so a call can return without an error before its entry is committed,
and the entry can still be discarded. Where the handler comes to send a response only after the Ready
loop has applied the entry, a call that returns without an error has its entry applied
(`nil_return_applied`).

The calls are indexed by a type `ι`, which stands for the ids of their commands.
-/

namespace Omashu

open Lib

/-- Where a call of `proposeAndWait` is. -/
inductive Proposal
  /-- It has not begun. -/
  | idle
  /-- It has registered its channel, and is to send its command to the handler. -/
  | stored
  /-- It waits for its response or the timeout. -/
  | waiting
  | returned (e : Option Err)
  deriving DecidableEq

/-- Where `proposeHandler` is. -/
inductive Handler (ι : Type*)
  /-- In its `select`. -/
  | idle
  /-- It has received a command. -/
  | received (i : ι)
  /-- It is to send a response. -/
  | responding (i : ι) (e : Option Err)
  /-- It has returned, after an error of `Node.Propose`. -/
  | stopped
  deriving DecidableEq

/-- The node, as far as its proposals are concerned. -/
structure Proposer (ι : Type*) where
  /-- The calls of `proposeAndWait`. -/
  calls : ι → Proposal
  /-- `proposeReqNotifier`, which holds one command. -/
  proposeReqNotifier : Option ι
  /-- `proposeHandler`. -/
  handler : Handler ι
  /-- `proposeRespNotifier`, which holds one response. -/
  proposeRespNotifier : Option (ι × Option Err)
  /-- The responses that listeners have received and are to send to the channels of their calls. -/
  routed : List (ι × Option Err)
  /-- The Raft log of the node; an entry carries the id of its command, if it is from this node. -/
  log : List (Option ι)
  /-- How many entries are committed. -/
  committed : ℕ
  /-- How many entries the Ready loop has passed to `FSM.Apply`. -/
  applied : ℕ
  /-- The node has been removed from the cluster. -/
  selfRemoved : Bool
  /-- The process has terminated. -/
  crashed : Bool

/-- One step of the node. -/
inductive ProposeAction (ι : Type*)
  /-- A call begins, and encodes its command. -/
  | begin (i : ι) (encoded : Bool)
  /-- A call sends its command to the handler. -/
  | send (i : ι)
  /-- The handler receives a command. -/
  | receive
  /-- The handler proposes the command, or refuses it for a node that has been removed. -/
  | propose
  /-- `Node.Propose` fails. -/
  | proposeFails
  /-- The handler sends its response. -/
  | respond
  /-- A listener receives a response, and looks up the channel of its call. -/
  | listen
  /-- A listener sends a response to the channel of its call. -/
  | deliver (n : ℕ)
  /-- A call times out, and closes its channel. -/
  | timeout (i : ι)
  /-- One more entry is committed. -/
  | commit
  /-- The Ready loop applies one more entry. -/
  | apply
  /-- Another leader replaces the entries from a position on that are not committed. -/
  | discard (n : ℕ)
  /-- Another leader appends an entry. -/
  | replicate
  /-- The node is removed from the cluster. -/
  | remove
  /-- The process terminates. -/
  | crash

namespace Proposer

variable {ι : Type*}

/-- The entry of a call has been passed to `FSM.Apply`. -/
def Applied (s : Proposer ι) (i : ι) : Prop := some i ∈ s.log.take s.applied

variable [DecidableEq ι]

instance (s : Proposer ι) (i : ι) : Decidable (s.Applied i) :=
  inferInstanceAs (Decidable (some i ∈ s.log.take s.applied))

/-- Moves one call. -/
def setCall (s : Proposer ι) (i : ι) (p : Proposal) : Proposer ι :=
  { s with calls := Function.update s.calls i p }

/-- The handler proposes the command it has received, or refuses it. -/
def propose (s : Proposer ι) : Option (Proposer ι) :=
  match s.handler with
  | .received i =>
    if s.selfRemoved then some { s with handler := .responding i (some .nodeRemoved) }
    -- `Node.Propose` returns once the entry is in the log of the node itself.
    else some { s with handler := .responding i none, log := s.log ++ [some i] }
  | _ => none

/-- The handler sends its response, once the channel has room. -/
def respond (s : Proposer ι) : Option (Proposer ι) :=
  match s.handler, s.proposeRespNotifier with
  | .responding i e, none => some { s with handler := .idle, proposeRespNotifier := some (i, e) }
  | _, _ => none

/-- A listener receives a response. It drops it if the call has returned. -/
def listen (s : Proposer ι) : Option (Proposer ι) :=
  match s.proposeRespNotifier with
  | some (i, e) =>
    if s.calls i = .waiting then
      some { s with proposeRespNotifier := none, routed := s.routed ++ [(i, e)] }
    else some { s with proposeRespNotifier := none }
  | none => none

/-- A listener sends a response. A call that has timed out since has closed its channel, and a send on
a closed channel panics. -/
def deliver (s : Proposer ι) (n : ℕ) : Option (Proposer ι) :=
  match s.routed[n]? with
  | some (i, e) =>
    if s.calls i = .waiting then
      some { s.setCall i (.returned e) with routed := s.routed.eraseIdx n }
    else some { s with crashed := true }
  | none => none

/-- One step of the node. -/
def step (s : Proposer ι) (a : ProposeAction ι) : Option (Proposer ι) :=
  if s.crashed then none
  else
    match a with
    | .begin i encoded =>
      if s.calls i = .idle then
        some (s.setCall i (if encoded then .stored else .returned (some .malformed)))
      else none
    | .send i =>
      if s.calls i = .stored ∧ s.proposeReqNotifier = none then
        some { s.setCall i .waiting with proposeReqNotifier := some i }
      else none
    | .receive =>
      match s.handler, s.proposeReqNotifier with
      | .idle, some i => some { s with handler := .received i, proposeReqNotifier := none }
      | _, _ => none
    | .propose => s.propose
    | .proposeFails =>
      match s.handler with
      | .received _ => some { s with handler := .stopped }
      | _ => none
    | .respond => s.respond
    | .listen => s.listen
    | .deliver n => s.deliver n
    | .timeout i =>
      if s.calls i = .waiting then some (s.setCall i (.returned (some .proposeTimeout))) else none
    | .commit =>
      if s.committed < s.log.length then some { s with committed := s.committed + 1 } else none
    | .apply => if s.applied < s.committed then some { s with applied := s.applied + 1 } else none
    -- Raft never gives up a committed entry.
    | .discard n => if s.committed ≤ n then some { s with log := s.log.take n } else none
    | .replicate => some { s with log := s.log ++ [none] }
    | .remove => some { s with selfRemoved := true }
    | .crash => some { s with crashed := true }

/-- The handler sends a response without an error only if the Ready loop has applied the entry. -/
def RespondsAfterApply (s : Proposer ι) : ProposeAction ι → Prop
  | .respond => ∀ i, s.handler = .responding i none → s.Applied i
  | _ => True

/-! ## Where a response comes from -/

omit [DecidableEq ι] in
/-- Every response without an error, and every return without an error, is of a call whose entry is
applied. -/
structure Routes (s : Proposer ι) : Prop where
  /-- Only committed entries are applied. -/
  applied_le : s.applied ≤ s.committed
  /-- Only entries of the log are committed. -/
  committed_le : s.committed ≤ s.log.length
  /-- The response in the channel. -/
  response : ∀ i, s.proposeRespNotifier = some (i, none) → s.Applied i
  /-- The responses with the listeners. -/
  routed : ∀ i, (i, none) ∈ s.routed → s.Applied i
  /-- The calls that have returned. -/
  returned : ∀ i, s.calls i = .returned none → s.Applied i

variable {s t : Proposer ι} {a : ProposeAction ι} {i : ι}

omit [DecidableEq ι] in
/-- The log changes behind the applied entries only. -/
theorem Routes.of_log (hR : Routes s) {log : List (Option ι)} {applied : ℕ}
    (hle : s.committed ≤ log.length) (hge : s.applied ≤ applied) (hcom : applied ≤ s.committed)
    (htake : log.take s.applied = s.log.take s.applied) :
    Routes { s with log, applied } := by
  -- What was applied is still in the applied part of the log.
  have hmono : ∀ j, s.Applied j → some j ∈ log.take applied := by
    intro j hj
    have hj' : some j ∈ log.take s.applied := by
      rw [htake]
      exact hj
    exact (List.take_sublist_take_left hge).subset hj'
  exact ⟨hcom, hle, fun j hj => hmono j (hR.response j hj), fun j hj => hmono j (hR.routed j hj),
    fun j hj => hmono j (hR.returned j hj)⟩

/-- A call moves on without returning nil, or returns nil with its entry applied. -/
theorem Routes.setCall (hR : Routes s) {p : Proposal} (hp : p = .returned none → s.Applied i) :
    Routes (s.setCall i p) := by
  refine ⟨hR.applied_le, hR.committed_le, hR.response, hR.routed, ?_⟩
  apply (Function.forall_update_iff s.calls fun j p => p = .returned none → s.Applied j).mpr
  exact ⟨hp, fun j _ hj => hR.returned j hj⟩

omit [DecidableEq ι] in
/-- The handler moves on, and the log may get a new entry. -/
theorem Routes.propose (hR : Routes s) (h : s.propose = some t) : Routes t := by
  have hle := hR.committed_le
  unfold Proposer.propose at h
  split at h
  · rename_i j hj
    split_ifs at h
    · obtain rfl := Option.some.inj h
      exact ⟨hR.applied_le, hR.committed_le, hR.response, hR.routed, hR.returned⟩
    · obtain rfl := Option.some.inj h
      have hlen : s.committed ≤ (s.log ++ [some j]).length := by
        rw [List.length_append]
        omega
      have hlog := hR.of_log hlen (le_refl s.applied) hR.applied_le
        (List.take_append_of_le_length (le_trans hR.applied_le hle))
      exact ⟨hlog.applied_le, hlog.committed_le, hlog.response, hlog.routed, hlog.returned⟩
  · simp at h

omit [DecidableEq ι] in
/-- A listener takes the response out of the channel. -/
theorem Routes.listen (hR : Routes s) (h : s.listen = some t) : Routes t := by
  unfold Proposer.listen at h
  split at h
  · rename_i j e hresp
    split_ifs at h
    · obtain rfl := Option.some.inj h
      refine ⟨hR.applied_le, hR.committed_le, by simp, fun k hk => ?_, hR.returned⟩
      rcases List.mem_append.mp hk with hk | hk
      · exact hR.routed k hk
      · obtain ⟨rfl, rfl⟩ := Prod.mk.inj (List.mem_singleton.mp hk)
        exact hR.response k hresp
    · obtain rfl := Option.some.inj h
      exact ⟨hR.applied_le, hR.committed_le, by simp, hR.routed, hR.returned⟩
  · simp at h

/-- A listener sends a response to its call. -/
theorem Routes.deliver (hR : Routes s) {n : ℕ} (h : s.deliver n = some t) : Routes t := by
  unfold Proposer.deliver at h
  split at h
  · rename_i j e hmem
    split_ifs at h
    · obtain rfl := Option.some.inj h
      -- The response was with the listener, so a nil in it is of an applied entry.
      have hcall : Routes (s.setCall j (.returned e)) := by
        apply hR.setCall
        intro he
        obtain rfl := Proposal.returned.inj he
        exact hR.routed j (List.mem_of_getElem? hmem)
      exact ⟨hcall.applied_le, hcall.committed_le, hcall.response,
        fun k hk => hR.routed k (List.mem_of_mem_eraseIdx hk), hcall.returned⟩
    · obtain rfl := Option.some.inj h
      exact ⟨hR.applied_le, hR.committed_le, hR.response, hR.routed, hR.returned⟩
  · simp at h

/-- A step that meets the condition keeps the responses right. -/
theorem Routes.step (hR : Routes s) (hc : s.RespondsAfterApply a) (h : s.step a = some t) :
    Routes t := by
  have hle := hR.applied_le
  have hlen := hR.committed_le
  have hrun : ¬s.crashed = true := by
    intro hcrashed
    simp [Proposer.step, hcrashed] at h
  unfold Proposer.step at h
  rw [if_neg hrun] at h
  cases a with
  | begin i encoded =>
    dsimp only at h
    split_ifs at h
    · obtain rfl := Option.some.inj h
      exact hR.setCall (by simp)
    · obtain rfl := Option.some.inj h
      exact hR.setCall (by simp)
  | send i =>
    dsimp only at h
    split_ifs at h
    obtain rfl := Option.some.inj h
    have hcall : Routes (s.setCall i .waiting) := hR.setCall (by simp)
    exact ⟨hcall.applied_le, hcall.committed_le, hcall.response, hcall.routed, hcall.returned⟩
  | receive =>
    dsimp only at h
    split at h
    · obtain rfl := Option.some.inj h
      exact ⟨hle, hlen, hR.response, hR.routed, hR.returned⟩
    · simp at h
  | propose => exact hR.propose h
  | proposeFails =>
    dsimp only at h
    split at h
    · obtain rfl := Option.some.inj h
      exact ⟨hle, hlen, hR.response, hR.routed, hR.returned⟩
    · simp at h
  | respond =>
    simp only [Proposer.respond] at h
    split at h
    · -- The condition speaks of the response that goes into the channel.
      rename_i i e hh _
      obtain rfl := Option.some.inj h
      refine ⟨hle, hlen, fun j hj => ?_, hR.routed, hR.returned⟩
      obtain ⟨rfl, rfl⟩ := Prod.mk.inj (Option.some.inj hj)
      exact hc i hh
    · simp at h
  | listen => exact hR.listen h
  | deliver n => exact hR.deliver h
  | timeout i =>
    dsimp only at h
    split_ifs at h
    obtain rfl := Option.some.inj h
    exact hR.setCall (by simp)
  | commit =>
    dsimp only at h
    split_ifs at h with hlt
    obtain rfl := Option.some.inj h
    exact ⟨Nat.le_succ_of_le hle, hlt, hR.response, hR.routed, hR.returned⟩
  | apply =>
    dsimp only at h
    split_ifs at h with hlt
    obtain rfl := Option.some.inj h
    exact hR.of_log hlen (Nat.le_succ _) hlt rfl
  | discard n =>
    dsimp only at h
    split_ifs at h with hn
    obtain rfl := Option.some.inj h
    refine hR.of_log ?_ (le_refl _) hle ?_
    · rw [List.length_take]
      omega
    · rw [List.take_take, min_eq_left (le_trans hle hn)]
  | replicate =>
    obtain rfl := Option.some.inj h
    refine hR.of_log ?_ (le_refl _) hle (List.take_append_of_le_length (le_trans hle hlen))
    rw [List.length_append]
    omega
  | remove | crash =>
    obtain rfl := Option.some.inj h
    exact ⟨hle, hlen, hR.response, hR.routed, hR.returned⟩

omit [DecidableEq ι] in
/-- A node without calls. Its log may have any entries. -/
structure Initial (s : Proposer ι) : Prop where
  /-- No call has begun. -/
  calls : ∀ i, s.calls i = .idle
  /-- No response is on its way. -/
  response : s.proposeRespNotifier = none
  /-- No listener has one. -/
  routed : s.routed = []
  /-- Only committed entries are applied. -/
  applied_le : s.applied ≤ s.committed
  /-- Only entries of the log are committed. -/
  committed_le : s.committed ≤ s.log.length

omit [DecidableEq ι] in
/-- Without calls there is nothing to route. -/
theorem Initial.routes (h : Initial s) : Routes s :=
  ⟨h.applied_le, h.committed_le, by simp [h.response], by simp [h.routed], by simp [h.calls]⟩

/-- In a run whose steps meet the condition, a call of `proposeAndWait` that has returned nil has its
entry committed and passed to `FSM.Apply`. -/
theorem nil_return_applied (h₀ : Initial s) (h : Reaches step RespondsAfterApply s t)
    (hi : t.calls i = .returned none) : t.applied ≤ t.committed ∧ t.Applied i := by
  have hR : Routes t := h.invariant h₀.routes fun _ _ _ hR hc hs => hR.step hc hs
  exact ⟨hR.applied_le, hR.returned i hi⟩

/-! ## Two runs -/

instance (s : Proposer ι) : (a : ProposeAction ι) → Decidable (s.RespondsAfterApply a)
  | .respond =>
    match hh : s.handler with
    | .responding i none => decidable_of_iff (s.Applied i) (by
        simp [RespondsAfterApply, hh])
    | .responding i (some e) => isTrue (by simp [RespondsAfterApply, hh])
    | .idle => isTrue (by simp [RespondsAfterApply, hh])
    | .received i => isTrue (by simp [RespondsAfterApply, hh])
    | .stopped => isTrue (by simp [RespondsAfterApply, hh])
  | .begin .. | .send _ | .receive | .propose | .proposeFails | .listen | .deliver _ | .timeout _
  | .commit | .apply | .discard _ | .replicate | .remove | .crash => inferInstanceAs (Decidable True)

/-- A node with an empty log and no calls. -/
def freshProposer : Proposer Unit :=
  ⟨fun _ => .idle, none, .idle, none, [], [], 0, 0, false, false⟩

/-- Such a node has no calls. -/
theorem initial_freshProposer : Initial freshProposer :=
  ⟨fun _ => rfl, rfl, rfl, le_refl _, le_refl _⟩

/-- A call whose entry is applied before the handler responds. -/
def appliedFirst : List (ProposeAction Unit) :=
  [.begin () true, .send (), .receive, .propose, .commit, .apply, .respond, .listen, .deliver 0]

/-- The node after that. -/
def afterAppliedFirst : Proposer Unit :=
  final (guarded step RespondsAfterApply) freshProposer appliedFirst (by decide)

/-- The call has its entry applied. -/
theorem nil_return_applied_applied_first :
    afterAppliedFirst.applied ≤ afterAppliedFirst.committed ∧ afterAppliedFirst.Applied () := by
  have hreach : Reaches step RespondsAfterApply freshProposer afterAppliedFirst := Reaches.final _
  exact nil_return_applied initial_freshProposer hreach (by decide)

/-- A call returns, and then another leader replaces its entry, which was never committed. -/
def returnedThenLost : List (ProposeAction Unit) :=
  [.begin () true, .send (), .receive, .propose, .respond, .listen, .deliver 0, .discard 0]

/-- The call has returned nil, and its entry is neither applied nor in the log any more. -/
theorem nil_return_lost :
    ∃ t, run step freshProposer returnedThenLost = some t ∧ t.calls () = .returned none ∧
      ¬t.Applied () ∧ some () ∉ t.log :=
  ⟨_, rfl, rfl, by decide, by decide⟩

end Proposer

end Omashu
