import Omashu.Lib.Run

/-!
# How the handlers of a node stop

`readyHandler` and `proposeHandler` (`node.go`) run in goroutines of their own. They stop at an error on
`errChan`, at the end of their context, or at a value on `stopNotifier`. None of these channels has a buffer, so
that a send waits for its receiver. Only `readyHandler` receives from `errChan`, and only `readyHandler` sends on
`stopNotifier`: when the node was removed from the cluster, and when its storage has no snapshot at the start. It
cannot receive what it sends itself. So the value always goes to `proposeHandler`, and `readyHandler` goes on in
its loop after the removal, without processing another Ready.

Two more parties decide how long `proposeHandler` is busy with a proposal. Raft takes proposals while it knows a
leader, and none after it has applied the removal of its own node, until it learns of another leader; until then
`Propose` waits. The response is received by `listenProposeResponses` (`distributed.go`), which `onLeaderChange` starts
when the node becomes the leader and stops when it is not the leader any more.

There are three results. `notification_received_iff` says when the send on `stopNotifier` can come to an end: not
after `proposeHandler` has returned, not while it waits itself to send an error to `readyHandler`, and not while it
waits for a Raft that takes no proposal or with a response that nobody receives.
`stop_after_removal` says that a node that was removed is stopped only by an error of the transport or the end of
the context. `requests_after_stop` bounds the proposals that callers can still hand over after the node was
stopped.

Nothing sends on `confChangeNotifier`, so this case of `proposeHandler` is left out. The sends of rafthttp on
`errChan` do not wait.
-/

namespace Omashu

open Lib

/-- Why `readyHandler` has returned. -/
inductive StopReason
  /-- The storage has no snapshot. -/
  | snapshot
  /-- An error of `processReady`. -/
  | ready
  /-- An error on `errChan`. -/
  | error
  /-- The context is done. -/
  | context
  deriving DecidableEq

/-- Where `readyHandler` is. -/
inductive ReadyHandler
  /-- Before its loop. -/
  | starting
  | select
  /-- In `processReady`. The last configuration change that it has applied removed the node, or did not. -/
  | processing (removed : Bool)
  /-- In `scheduleSelfRemoval`, before the send on `stopNotifier`. -/
  | removing
  /-- It sends on `stopNotifier`. At the start it returns after that. -/
  | notifying (returns : Bool)
  /-- In `Stop`, which is deferred. -/
  | stopping (reason : StopReason)
  | returned (reason : StopReason)
  deriving DecidableEq

/-- Where `proposeHandler` is. -/
inductive ProposeHandler
  | select
  /-- It has received a proposal. -/
  | received
  /-- In `Propose` of Raft. -/
  | proposing
  /-- It sends the response. -/
  | responding
  /-- It sends an error on `errChan`. -/
  | failing
  | returned
  deriving DecidableEq

/-- The handlers of a node. -/
structure Handlers where
  /-- `readyHandler`. -/
  ready : ReadyHandler
  /-- `proposeHandler`. -/
  propose : ProposeHandler
  /-- There is a proposal in `proposeReqNotifier`, which has room for one. -/
  request : Bool
  /-- There is a response in `proposeRespNotifier`, which has room for one. -/
  response : Bool
  /-- The HTTP server of the transport has failed, and its goroutine sends the error on `errChan`. -/
  serverFailing : Bool
  /-- There was an error of the transport. -/
  transportError : Bool
  selfRemoved : Bool
  /-- `leaderChangeNotifier` is not nil. -/
  leading : Bool
  /-- How many `listenProposeResponses` are running. -/
  listeners : ℕ
  /-- How many of them may return, since their `leaderChangeNotifier` was closed. -/
  ended : ℕ
  /-- Raft takes proposals. -/
  proposals : Bool
  /-- The context is done. -/
  cancelled : Bool
  /-- `Stop` has stopped Raft. -/
  stopped : Bool
  deriving DecidableEq

/-- A step of the handlers or of what they wait for. -/
inductive HandlersAction
  /-- `readyHandler` gets the snapshot of the storage, or an error. -/
  | snapshot (ok : Bool)
  /-- `readyHandler` receives a Ready. -/
  | receiveReady
  /-- `onLeaderChange` in `processReady`: the node is the leader. -/
  | gainLeadership
  /-- `onLeaderChange` in `processReady`: the node is not the leader any more. -/
  | loseLeadership
  /-- `processReady` applies a configuration change, which removes the node or does not. -/
  | applyConfChange (removes : Bool)
  /-- `processReady` returns nil. -/
  | advance
  /-- `processReady` returns an error. -/
  | readyFails
  /-- `scheduleSelfRemoval` sets `selfRemoved`. -/
  | removeSelf
  /-- The grace period is over, and `onRemovedSelf` has returned. -/
  | removedSelf
  /-- `proposeHandler` receives from `stopNotifier`. -/
  | receiveStop
  /-- `readyHandler` finds its context done. -/
  | readyContextDone
  /-- `readyHandler` receives the error of `proposeHandler`. -/
  | receiveProposeError
  /-- `readyHandler` receives the error of the HTTP server. -/
  | receiveServerError
  /-- rafthttp reports a critical error while `readyHandler` waits. -/
  | reportCriticalError
  /-- `Stop` in `readyHandler` returns. -/
  | stop
  /-- `Stop` is called by `Close`. -/
  | close
  /-- A caller sends a proposal. -/
  | sendRequest
  /-- `proposeHandler` receives a proposal. -/
  | receiveRequest
  /-- `proposeHandler` checks `selfRemoved`. -/
  | checkRemoved
  /-- Raft accepts the proposal. -/
  | accept
  /-- `Propose` returns an error. -/
  | proposeFails
  /-- `proposeHandler` sends a response. -/
  | respond
  /-- A listener receives a response. -/
  | receiveResponse
  | listenerReturns
  /-- Raft learns of another leader. -/
  | learnLeader
  /-- Raft has no leader any more. -/
  | forgetLeader
  /-- `proposeHandler` finds its context done. -/
  | proposeContextDone
  /-- The HTTP server fails. -/
  | serverFails
  /-- The context is cancelled. -/
  | cancel
  deriving DecidableEq

namespace Handlers

/-- A step that is enabled where the condition holds. -/
def enabled (c : Prop) [Decidable c] (t : Handlers) : Option Handlers := if c then some t else none

/-- A step of the handlers. A send on `stopNotifier` or `errChan` is one step with its receive. A listener that receives
a response hands it to its caller, who waits for it or has withdrawn. -/
def step (s : Handlers) : HandlersAction → Option Handlers
  | .snapshot ok =>
    enabled (s.ready = .starting) { s with ready := if ok then .select else .notifying true }
  -- After the removal a Ready is dropped, without `Advance`.
  | .receiveReady =>
    enabled (s.ready = .select ∧ s.stopped = false)
      { s with ready := if s.selfRemoved then .select else .processing false }
  | .gainLeadership =>
    enabled (s.ready = .processing false ∧ s.leading = false)
      { s with leading := true, listeners := s.listeners + 1 }
  | .loseLeadership =>
    enabled (s.ready = .processing false ∧ s.leading = true) { s with leading := false, ended := s.ended + 1 }
  -- `ApplyConfChange` of Raft: a node that is removed takes no more proposals.
  | .applyConfChange removes =>
    match s.ready with
    | .processing _ => some { s with ready := .processing removes, proposals := s.proposals && !removes }
    | _ => none
  | .advance => enabled (s.ready = .processing false) { s with ready := .select }
  | .readyFails =>
    match s.ready with
    | .processing _ => some { s with ready := .stopping .ready }
    | _ => none
  | .removeSelf => enabled (s.ready = .processing true) { s with ready := .removing, selfRemoved := true }
  | .removedSelf => enabled (s.ready = .removing) { s with ready := .notifying false }
  | .receiveStop =>
    match s.ready with
    | .notifying returns =>
      enabled (s.propose = .select)
        { s with ready := if returns then .stopping .snapshot else .select, propose := .returned }
    | _ => none
  | .readyContextDone => enabled (s.ready = .select ∧ s.cancelled = true) { s with ready := .stopping .context }
  | .receiveProposeError =>
    enabled (s.ready = .select ∧ s.propose = .failing) { s with ready := .stopping .error, propose := .returned }
  | .receiveServerError =>
    enabled (s.ready = .select ∧ s.serverFailing = true)
      { s with ready := .stopping .error, serverFailing := false }
  | .reportCriticalError =>
    enabled (s.ready = .select) { s with ready := .stopping .error, transportError := true }
  | .stop =>
    match s.ready with
    | .stopping reason => some { s with ready := .returned reason, stopped := true }
    | _ => none
  | .close => some { s with stopped := true }
  | .sendRequest => enabled (s.request = false) { s with request := true }
  | .receiveRequest =>
    enabled (s.propose = .select ∧ s.request = true) { s with propose := .received, request := false }
  | .checkRemoved =>
    enabled (s.propose = .received) { s with propose := if s.selfRemoved then .responding else .proposing }
  -- `Propose` waits while Raft takes no proposal, until the context is done or Raft is stopped.
  | .accept =>
    enabled (s.propose = .proposing ∧ s.stopped = false ∧ s.proposals = true) { s with propose := .responding }
  | .proposeFails =>
    enabled (s.propose = .proposing ∧ (s.proposals = true ∨ s.cancelled = true ∨ s.stopped = true))
      { s with propose := .failing }
  | .respond =>
    enabled (s.propose = .responding ∧ s.response = false) { s with propose := .select, response := true }
  | .receiveResponse => enabled (s.response = true ∧ 0 < s.listeners) { s with response := false }
  -- A listener that is told to stop may still receive a response before.
  | .listenerReturns =>
    enabled (0 < s.listeners ∧ (s.cancelled = true ∨ 0 < s.ended))
      { s with listeners := s.listeners - 1, ended := s.ended - 1 }
  | .learnLeader => enabled (s.stopped = false) { s with proposals := true }
  | .forgetLeader => enabled (s.stopped = false) { s with proposals := false }
  | .proposeContextDone => enabled (s.propose = .select ∧ s.cancelled = true) { s with propose := .returned }
  | .serverFails => some { s with serverFailing := true, transportError := true }
  | .cancel => some { s with cancelled := true }

variable {s t : Handlers} {a : HandlersAction}

/-- A step is enabled where its condition holds. -/
@[simp]
theorem enabled_eq_some {c : Prop} [Decidable c] {u : Handlers} : enabled c t = some u ↔ c ∧ t = u := by
  unfold enabled
  split_ifs with h <;> simp [h]

/-! ## The notification -/

/-- A response can be sent: there is room in the channel, or a listener that makes some. -/
def canRespond (s : Handlers) : Bool := !s.response || decide (0 < s.listeners)

/-- A proposal can be accepted: Raft is running and takes it, or it may learn of another leader. -/
def canAccept (s : Handlers) (learns : Bool) : Bool := !s.stopped && (s.proposals || learns)

/-- `proposeHandler` can get to its `select` without an error on the way. -/
def canReceive (s : Handlers) (learns : Bool) : Bool :=
  match s.propose with
  | .select => true
  | .received => (s.selfRemoved || s.canAccept learns) && s.canRespond
  | .proposing => s.canAccept learns && s.canRespond
  | .responding => s.canRespond
  | .failing | .returned => false

/-- Raft does not learn of another leader, unless it may. -/
def MayLearn (learns : Bool) (_ : Handlers) (a : HandlersAction) : Prop := learns = true ∨ a ≠ .learnLeader

section Notification

variable {learns returns : Bool}

/-- What is taken away from a `proposeHandler` that cannot get to its `select` does not help it. -/
theorem canReceive_eq_false_of_le (hs : s.canReceive learns = false) (hpropose : t.propose = s.propose)
    (hremoved : t.selfRemoved = s.selfRemoved) (hrespond : t.canRespond = true → s.canRespond = true)
    (haccept : t.canAccept learns = true → s.canAccept learns = true) : t.canReceive learns = false := by
  rw [← Bool.not_eq_true] at hs ⊢
  intro ht
  apply hs
  unfold canReceive at ht ⊢
  rw [hpropose] at ht
  cases hp : s.propose with
  | received =>
    simp only [hp, hremoved, Bool.and_eq_true, Bool.or_eq_true] at ht ⊢
    exact ⟨ht.1.imp_right haccept, hrespond ht.2⟩
  | proposing =>
    simp only [hp, Bool.and_eq_true] at ht ⊢
    exact ⟨haccept ht.1, hrespond ht.2⟩
  | responding =>
    simp only [hp] at ht ⊢
    exact hrespond ht
  | select => rfl
  | failing | returned => simp [hp] at ht

/-- While `readyHandler` waits in its send, a `proposeHandler` that cannot get to its `select` never can. -/
theorem step_of_canReceive_eq_false (hs : s.ready = .notifying returns) (hcan : s.canReceive learns = false)
    (ha : MayLearn learns s a) (h : s.step a = some t) :
    t.ready = .notifying returns ∧ t.canReceive learns = false := by
  -- It is not in its `select`, so it takes nothing, and the steps of `readyHandler` are not enabled.
  have hselect : s.propose ≠ .select := fun h => by simp [canReceive, h] at hcan
  cases a with
  | checkRemoved =>
    obtain ⟨hreceived, rfl⟩ := enabled_eq_some.mp h
    refine ⟨hs, ?_⟩
    simp only [canReceive, hreceived] at hcan
    cases hremoved : s.selfRemoved with
    | true => simpa [canReceive, hremoved, canRespond] using hcan
    | false => simpa [canReceive, hremoved, canRespond, canAccept] using hcan
  | accept =>
    -- Raft takes the proposal, so it is the response that cannot be sent.
    obtain ⟨⟨hproposing, hstopped, htakes⟩, rfl⟩ := enabled_eq_some.mp h
    have hfull : s.canRespond = false := by simpa [canReceive, hproposing, canAccept, hstopped, htakes] using hcan
    exact ⟨hs, hfull⟩
  | proposeFails =>
    obtain ⟨-, rfl⟩ := enabled_eq_some.mp h
    exact ⟨hs, rfl⟩
  | respond =>
    obtain ⟨⟨hresponding, hempty⟩, -⟩ := enabled_eq_some.mp h
    simp [canReceive, hresponding, canRespond, hempty] at hcan
  | receiveResponse =>
    obtain ⟨⟨-, hlistener⟩, rfl⟩ := enabled_eq_some.mp h
    exact ⟨hs, canReceive_eq_false_of_le hcan rfl rfl (fun _ => by simp [canRespond, hlistener]) id⟩
  | listenerReturns =>
    obtain ⟨⟨hlistener, -⟩, rfl⟩ := enabled_eq_some.mp h
    exact ⟨hs, canReceive_eq_false_of_le hcan rfl rfl (fun _ => by simp [canRespond, hlistener]) id⟩
  | learnLeader =>
    obtain ⟨hrunning, rfl⟩ := enabled_eq_some.mp h
    have hlearns : learns = true := ha.resolve_right fun hne => hne rfl
    exact ⟨hs, canReceive_eq_false_of_le hcan rfl rfl id fun _ => by simp [canAccept, hrunning, hlearns]⟩
  | forgetLeader =>
    obtain ⟨hrunning, rfl⟩ := enabled_eq_some.mp h
    refine ⟨hs, canReceive_eq_false_of_le hcan rfl rfl id fun haccept => ?_⟩
    have hlearns : learns = true := by simpa [canAccept, hrunning] using haccept
    simp [canAccept, hrunning, hlearns]
  | close =>
    obtain rfl := Option.some.inj h
    exact ⟨hs, canReceive_eq_false_of_le hcan rfl rfl id fun haccept => by simp [canAccept] at haccept⟩
  | sendRequest =>
    obtain ⟨-, rfl⟩ := enabled_eq_some.mp h
    exact ⟨hs, hcan⟩
  | serverFails | cancel =>
    obtain rfl := Option.some.inj h
    exact ⟨hs, hcan⟩
  | _ => simp [step, hs, hselect] at h

/-- The send on `stopNotifier` can come to an end. -/
def CanNotify (s : Handlers) (learns returns : Bool) : Prop :=
  ∃ t, Reaches step (MayLearn learns) s t ∧ t.ready ≠ .notifying returns

/-- It can if it can after a step. -/
theorem CanNotify.of_step (h : CanNotify t learns returns) (ha : MayLearn learns s a) (hstep : s.step a = some t) :
    CanNotify s learns returns := by
  obtain ⟨u, hreach, hu⟩ := h
  exact ⟨u, hreach.head ha hstep, hu⟩

/-- In its `select`, `proposeHandler` receives the value. -/
theorem canNotify_of_select (hs : s.ready = .notifying returns) (hp : s.propose = .select) :
    CanNotify s learns returns := by
  have hstep : s.step .receiveStop = some
      { s with ready := if returns then .stopping .snapshot else .select, propose := .returned } := by
    simp [step, hs, hp]
  refine ⟨_, .head (.inr (by simp)) hstep .refl, ?_⟩
  cases returns <;> simp

/-- It gets there from a response, if need be after a listener has made room. -/
theorem canNotify_of_responding (hs : s.ready = .notifying returns) (hp : s.propose = .responding)
    (hcan : s.canRespond = true) : CanNotify s learns returns := by
  have hroom : ∀ s : Handlers, s.ready = .notifying returns → s.propose = .responding → s.response = false →
      CanNotify s learns returns := by
    intro s hs hp hempty
    have hrespond : s.step .respond = some { s with propose := .select, response := true } := by
      simp [step, hp, hempty]
    exact (canNotify_of_select (s := { s with propose := .select, response := true }) hs rfl).of_step
      (.inr (by simp)) hrespond
  cases hresponse : s.response with
  | false => exact hroom s hs hp hresponse
  | true =>
    have hlistener : 0 < s.listeners := by simpa [canRespond, hresponse] using hcan
    have htake : s.step .receiveResponse = some { s with response := false } := by simp [step, hresponse, hlistener]
    exact (hroom { s with response := false } hs hp rfl).of_step (.inr (by simp)) htake

/-- It gets there from `Propose` if Raft accepts the proposal, if need be after it has learned of another leader. -/
theorem canNotify_of_proposing (hs : s.ready = .notifying returns) (hp : s.propose = .proposing)
    (haccept : s.canAccept learns = true) (hcan : s.canRespond = true) : CanNotify s learns returns := by
  obtain ⟨hstopped, htakes⟩ : s.stopped = false ∧ (s.proposals = true ∨ learns = true) := by
    simpa [canAccept] using haccept
  have htaken : ∀ s : Handlers, s.ready = .notifying returns → s.propose = .proposing → s.stopped = false →
      s.proposals = true → s.canRespond = true → CanNotify s learns returns := by
    intro s hs hp hstopped htakes hcan
    have hstep : s.step .accept = some { s with propose := .responding } := by simp [step, hp, hstopped, htakes]
    exact (canNotify_of_responding (s := { s with propose := .responding }) hs rfl hcan).of_step
      (.inr (by simp)) hstep
  rcases htakes with htakes | hlearns
  · exact htaken s hs hp hstopped htakes hcan
  · have hlearn : s.step .learnLeader = some { s with proposals := true } := by simp [step, hstopped]
    exact (htaken { s with proposals := true } hs hp hstopped rfl hcan).of_step (.inl hlearns) hlearn

/-- It gets there from a proposal that it has received. -/
theorem canNotify_of_received (hs : s.ready = .notifying returns) (hp : s.propose = .received)
    (haccept : s.selfRemoved = true ∨ s.canAccept learns = true) (hcan : s.canRespond = true) :
    CanNotify s learns returns := by
  have hcheck : s.step .checkRemoved =
      some { s with propose := if s.selfRemoved then .responding else .proposing } := by
    simp [step, hp]
  refine CanNotify.of_step ?_ (.inr (by simp)) hcheck
  cases hremoved : s.selfRemoved with
  | true => exact canNotify_of_responding hs rfl hcan
  | false => exact canNotify_of_proposing hs rfl (haccept.resolve_left (by simp [hremoved])) hcan

/-- A send on `stopNotifier` can come to an end exactly if `proposeHandler` can still get to its `select`, whether Raft
may learn of another leader meanwhile or not. It never does once `proposeHandler` has returned or waits to send an
error, which only `readyHandler` would receive, nor while the channel of the responses is full and no listener is
left. -/
theorem notification_received_iff (hs : s.ready = .notifying returns) :
    (∃ t, Reaches step (MayLearn learns) s t ∧ t.ready ≠ .notifying returns) ↔ s.canReceive learns = true := by
  constructor
  · rintro ⟨t, hreach, ht⟩
    by_contra hcan
    have hkept := hreach.invariant (I := fun u => u.ready = .notifying returns ∧ u.canReceive learns = false)
      ⟨hs, Bool.eq_false_of_not_eq_true hcan⟩
      fun u a v hu ha hstep => step_of_canReceive_eq_false hu.1 hu.2 ha hstep
    exact ht hkept.1
  · intro hcan
    unfold canReceive at hcan
    cases hp : s.propose with
    | select => exact canNotify_of_select hs hp
    | responding => exact canNotify_of_responding hs hp (by simpa [hp] using hcan)
    | proposing =>
      obtain ⟨haccept, hrespond⟩ : s.canAccept learns = true ∧ s.canRespond = true := by simpa [hp] using hcan
      exact canNotify_of_proposing hs hp haccept hrespond
    | received =>
      obtain ⟨haccept, hrespond⟩ : (s.selfRemoved = true ∨ s.canAccept learns = true) ∧ s.canRespond = true := by
        simpa [hp] using hcan
      exact canNotify_of_received hs hp haccept hrespond
    | failing | returned => simp [hp] at hcan

end Notification

/-- The handlers when `Start` has started them. -/
def started : Handlers where
  ready := .starting
  propose := .select
  request := false
  response := false
  serverFailing := false
  transportError := false
  selfRemoved := false
  leading := false
  listeners := 0
  ended := 0
  proposals := false
  cancelled := false
  stopped := false

/-- The node is removed. -/
def removal : List HandlersAction := [.receiveReady, .applyConfChange true, .removeSelf, .removedSelf]

/-- A proposal is handed to `Propose`. -/
def proposal : List HandlersAction := [.sendRequest, .receiveRequest, .checkRemoved]

/-- The node is removed while `Propose` has not returned. -/
def removedWhileProposing : Handlers :=
  final step started ([.snapshot true, .learnLeader] ++ proposal ++ removal) (by decide)

/-- The node loses its leadership and is removed, with one response in the channel and another one to be sent. -/
def removedWhileResponding : Handlers :=
  final step started
    ([.snapshot true, .learnLeader, .receiveReady, .gainLeadership, .advance] ++ proposal ++ [.accept, .respond] ++
      proposal ++ [.accept, .receiveReady, .loseLeadership, .listenerReturns, .advance] ++ removal) (by decide)

/-- A `Propose` that waits holds up the send until Raft learns of another leader. Without a listener, a response that
does not fit into the channel holds it up for good. -/
theorem notification_received_iff_removed :
    ((∃ t, Reaches step (MayLearn true) removedWhileProposing t ∧ t.ready ≠ .notifying false) ∧
      ¬∃ t, Reaches step (MayLearn false) removedWhileProposing t ∧ t.ready ≠ .notifying false) ∧
      ¬∃ t, Reaches step (MayLearn true) removedWhileResponding t ∧ t.ready ≠ .notifying false :=
  ⟨⟨(notification_received_iff (by decide)).mpr (by decide), mt (notification_received_iff (by decide)).mp (by decide)⟩,
    mt (notification_received_iff (by decide)).mp (by decide)⟩

/-! ## After the removal -/

/-- What holds of a node that was removed: `readyHandler` is about to notify `proposeHandler`, or has done so, and
then only an error of the transport or the end of the context has stopped it. -/
def Removed (s : Handlers) : Prop :=
  match s.ready with
  | .removing | .notifying false => True
  | .select => s.propose = .returned
  | .stopping reason | .returned reason =>
    s.propose = .returned ∧
      ((reason = .error ∧ s.transportError = true) ∨ (reason = .context ∧ s.cancelled = true))
  | .starting | .processing _ | .notifying true => False

/-- The invariant of the handlers. A server that fails is an error of the transport. -/
structure Inv (s : Handlers) : Prop where
  server : s.serverFailing = true → s.transportError = true
  /-- The removal. -/
  removed : s.selfRemoved = true → s.Removed

/-- It is kept where `readyHandler` stays where it is, `proposeHandler` does not come back, and no error is
forgotten. -/
theorem Removed.mono (h : s.Removed) (hready : t.ready = s.ready)
    (hpropose : s.propose = .returned → t.propose = .returned)
    (herror : s.transportError = true → t.transportError = true)
    (hcancelled : s.cancelled = true → t.cancelled = true) : t.Removed := by
  unfold Removed at h ⊢
  rw [hready]
  cases hs : s.ready with
  | select => exact hpropose (by simpa [hs] using h)
  | stopping reason | returned reason =>
    simp only [hs] at h ⊢
    exact ⟨hpropose h.1, h.2.imp (And.imp_right herror) (And.imp_right hcancelled)⟩
  | removing => trivial
  | notifying returns =>
    rw [hs] at h
    cases returns <;> exact h
  | starting | processing _ =>
    rw [hs] at h
    exact h

/-- In its `select` after the removal, `readyHandler` has notified `proposeHandler`. -/
theorem Removed.propose_of_select (h : s.Removed) (hs : s.ready = .select) : s.propose = .returned := by
  simpa [Removed, hs] using h

/-- Every step keeps the invariant. -/
theorem Inv.step (h : s.Inv) (hstep : s.step a = some t) : t.Inv := by
  obtain ⟨hserver, hremoved⟩ := h
  cases a with
  | snapshot | gainLeadership | loseLeadership | advance =>
    obtain ⟨hs, rfl⟩ := enabled_eq_some.mp hstep
    exact ⟨hserver, fun h => by simpa [Removed, hs] using hremoved h⟩
  | receiveReady =>
    obtain ⟨⟨hs, -⟩, rfl⟩ := enabled_eq_some.mp hstep
    refine ⟨hserver, fun h => ?_⟩
    have hselfRemoved : s.selfRemoved = true := h
    simpa [Removed, hselfRemoved] using (hremoved h).propose_of_select hs
  | applyConfChange | readyFails | stop =>
    cases hs : s.ready <;> simp only [Handlers.step, hs, Option.some.injEq, reduceCtorEq] at hstep
    obtain rfl := hstep
    exact ⟨hserver, fun h => by simpa [Removed, hs] using hremoved h⟩
  | removeSelf | removedSelf =>
    obtain ⟨-, rfl⟩ := enabled_eq_some.mp hstep
    exact ⟨hserver, fun _ => trivial⟩
  | receiveStop =>
    cases hs : s.ready with
    | notifying returns =>
      simp only [Handlers.step, hs, enabled_eq_some] at hstep
      obtain ⟨-, rfl⟩ := hstep
      refine ⟨hserver, fun h => ?_⟩
      cases returns with
      | false => rfl
      | true => simpa [Removed, hs] using hremoved h
    | _ => simp [Handlers.step, hs] at hstep
  | readyContextDone =>
    obtain ⟨⟨hs, hcancelled⟩, rfl⟩ := enabled_eq_some.mp hstep
    exact ⟨hserver, fun h => ⟨(hremoved h).propose_of_select hs, .inr ⟨rfl, hcancelled⟩⟩⟩
  | receiveProposeError =>
    obtain ⟨⟨hs, hfailing⟩, rfl⟩ := enabled_eq_some.mp hstep
    -- After the removal `proposeHandler` has returned.
    refine ⟨hserver, fun h => ?_⟩
    have hreturned := (hremoved h).propose_of_select hs
    rw [hfailing] at hreturned
    cases hreturned
  | receiveServerError =>
    obtain ⟨⟨hs, hfailing⟩, rfl⟩ := enabled_eq_some.mp hstep
    exact ⟨fun h => by simp at h, fun h => ⟨(hremoved h).propose_of_select hs, .inl ⟨rfl, hserver hfailing⟩⟩⟩
  | reportCriticalError =>
    obtain ⟨hs, rfl⟩ := enabled_eq_some.mp hstep
    exact ⟨fun _ => rfl, fun h => ⟨(hremoved h).propose_of_select hs, .inl ⟨rfl, rfl⟩⟩⟩
  | close =>
    obtain rfl := Option.some.inj hstep
    exact ⟨hserver, fun h => (hremoved h).mono rfl id id id⟩
  | serverFails =>
    obtain rfl := Option.some.inj hstep
    exact ⟨fun _ => rfl, fun h => (hremoved h).mono rfl id (fun _ => rfl) id⟩
  | cancel =>
    obtain rfl := Option.some.inj hstep
    exact ⟨hserver, fun h => (hremoved h).mono rfl id id fun _ => rfl⟩
  | sendRequest | receiveResponse | listenerReturns | learnLeader | forgetLeader =>
    obtain ⟨-, rfl⟩ := enabled_eq_some.mp hstep
    exact ⟨hserver, fun h => (hremoved h).mono rfl id id id⟩
  | proposeContextDone =>
    obtain ⟨-, rfl⟩ := enabled_eq_some.mp hstep
    exact ⟨hserver, fun h => (hremoved h).mono rfl (fun _ => rfl) id id⟩
  | receiveRequest | accept | proposeFails | respond | checkRemoved =>
    obtain ⟨hp, rfl⟩ := enabled_eq_some.mp hstep
    exact ⟨hserver, fun h => (hremoved h).mono rfl (fun hr => by simp [hr] at hp) id id⟩

/-- The handlers are about to start, on a node that was not removed. -/
structure Starts (s : Handlers) : Prop where
  /-- `readyHandler` has not begun. -/
  ready : s.ready = .starting
  /-- The HTTP server is running. -/
  server : s.serverFailing = false
  /-- The node was not removed. -/
  selfRemoved : s.selfRemoved = false

/-- A node that was removed from the cluster is stopped only by an error of the transport or by the end of the
context. The notification at its removal does not do it. -/
theorem stop_after_removal {reason : StopReason} (h₀ : s.Starts) (h : Reaches step (fun _ _ => True) s t)
    (hremoved : t.selfRemoved = true) (hstopped : t.ready = .stopping reason ∨ t.ready = .returned reason) :
    (reason = .error ∧ t.transportError = true) ∨ (reason = .context ∧ t.cancelled = true) := by
  have hinv : t.Inv := by
    refine h.invariant ⟨fun hf => ?_, fun hr => ?_⟩ fun u a v hu _ hstep => hu.step hstep
    · rw [h₀.server] at hf
      cases hf
    · rw [h₀.selfRemoved] at hr
      cases hr
  have hafter := hinv.removed hremoved
  unfold Removed at hafter
  rcases hstopped with hs | hs <;> rw [hs] at hafter <;> exact hafter.2

/-- The node is removed and `proposeHandler` is notified. Then the context is cancelled. -/
def removedThenCancelled : List HandlersAction :=
  [.snapshot true] ++ removal ++ [.receiveStop, .cancel, .readyContextDone, .stop]

/-- The state after this. -/
def afterCancel : Handlers := final step started removedThenCancelled (by decide)

/-- In this run it was the context. -/
theorem stop_after_removal_cancelled :
    (StopReason.context = .error ∧ afterCancel.transportError = true) ∨
      (StopReason.context = .context ∧ afterCancel.cancelled = true) := by
  have hrun : run (guarded step fun _ _ => True) started removedThenCancelled = some afterCancel := by decide
  exact stop_after_removal ⟨rfl, rfl, rfl⟩ (.of_run hrun) (by decide) (.inr (by decide))

/-! ## After the stop -/

/-- How many proposals callers can still send: one to the channel, and one more if `proposeHandler` gets to its
`select`. -/
def room (s : Handlers) : ℕ :=
  (if s.request then 0 else 1) + match s.propose with
    | .select | .responding => 1
    | _ => 0

/-- The response that `proposeHandler` still has to send. -/
def owed (s : Handlers) : ℕ := if s.propose = .responding then 1 else 0

/-- A step that sends a proposal to the channel. -/
def sends (_ : Handlers) (a : HandlersAction) : ℕ := if a = .sendRequest then 1 else 0

/-- A step that sends a response. -/
def answers (_ : Handlers) (a : HandlersAction) : ℕ := if a = .respond then 1 else 0

/-- After Raft was stopped, a step takes nothing that it does not pay for. -/
theorem step_of_stopped (hstopped : s.stopped = true) (hremoved : s.selfRemoved = false) (ha : a ≠ .removeSelf)
    (h : s.step a = some t) :
    (t.stopped = true ∧ t.selfRemoved = false) ∧ sends s a + t.room ≤ s.room ∧ answers s a + t.owed ≤ s.owed := by
  cases a with
  | removeSelf => exact absurd rfl ha
  | accept =>
    obtain ⟨⟨-, hrunning, -⟩, -⟩ := enabled_eq_some.mp h
    rw [hstopped] at hrunning
    cases hrunning
  | receiveStop =>
    cases hs : s.ready with
    | notifying returns =>
      simp only [step, hs, enabled_eq_some] at h
      obtain ⟨hselect, rfl⟩ := h
      exact ⟨⟨hstopped, hremoved⟩, by simp [sends, room, hselect], by simp [answers, owed]⟩
    | _ => simp [step, hs] at h
  | applyConfChange | readyFails | stop =>
    cases hs : s.ready <;> simp only [step, hs, Option.some.injEq, reduceCtorEq] at h
    obtain rfl := h
    exact ⟨⟨by first | exact hstopped | rfl, hremoved⟩, by simp [sends, room], by simp [answers, owed]⟩
  | close | serverFails | cancel =>
    obtain rfl := Option.some.inj h
    exact ⟨⟨by first | exact hstopped | rfl, hremoved⟩, by simp [sends, room], by simp [answers, owed]⟩
  | _ =>
    -- A proposal that is received after the stop finds that Raft has stopped.
    obtain ⟨hp, rfl⟩ := enabled_eq_some.mp h
    exact ⟨⟨hstopped, hremoved⟩, by simp [sends, room, hp, hremoved], by simp [answers, owed, hp, hremoved]⟩

/-- After Raft was stopped, on a node that is not removed, callers can send at most two more proposals, one that
`proposeHandler` receives and one that stays in the channel. It answers none of them: it only sends the response
that it has in hand. -/
theorem requests_after_stop {as : List HandlersAction} (hstopped : s.stopped = true)
    (hremoved : s.selfRemoved = false) (has : .removeSelf ∉ as) (h : run step s as = some t) :
    tally step sends s as + t.room ≤ s.room ∧ s.room ≤ 2 ∧ tally step answers s as + t.owed ≤ s.owed := by
  have hstep : ∀ u a v, a ∈ as → u.stopped = true ∧ u.selfRemoved = false → step u a = some v →
      (v.stopped = true ∧ v.selfRemoved = false) ∧ sends u a + v.room ≤ u.room ∧ answers u a + v.owed ≤ u.owed :=
    fun u a v ha hu hstep => step_of_stopped hu.1 hu.2 (fun heq => has (heq ▸ ha)) hstep
  refine ⟨?_, ?_, ?_⟩
  · exact tally_add_le h ⟨hstopped, hremoved⟩ fun u a v ha hu hs => (hstep u a v ha hu hs).imp_right And.left
  · unfold room
    cases s.propose <;> split_ifs <;> decide
  · exact tally_add_le h ⟨hstopped, hremoved⟩ fun u a v ha hu hs => (hstep u a v ha hu hs).imp_right And.right

/-- The handlers of a node that was closed while `proposeHandler` had a response to send. -/
def closed : Handlers := { started with ready := .select, propose := .responding, stopped := true }

/-- Two proposals are sent after the response. The first one fails, and its error stops `readyHandler`. -/
def sentAfterClose : List HandlersAction :=
  [.respond, .sendRequest, .receiveRequest, .sendRequest, .checkRemoved, .proposeFails, .receiveProposeError, .stop]

/-- The state after this. -/
def afterSent : Handlers := final step closed sentAfterClose (by decide)

/-- There is no room for a third. -/
theorem requests_after_stop_closed :
    (tally step sends closed sentAfterClose = 2 ∧ closed.room = 2) ∧
      tally step sends closed sentAfterClose + afterSent.room ≤ closed.room ∧
      tally step answers closed sentAfterClose + afterSent.owed ≤ closed.owed := by
  have hnone : HandlersAction.removeSelf ∉ sentAfterClose := by decide
  have hbound := requests_after_stop (s := closed) rfl rfl hnone (run_final (by decide))
  exact ⟨by decide, hbound.1, hbound.2.2⟩

end Handlers

end Omashu
