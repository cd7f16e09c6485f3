import Mathlib.Data.List.Nodup
import Omashu.Raft.Propose

/-!
# The routing of responses

`Omashu.Raft.Propose` takes the end of `proposeAndWait` as one step. Here the goroutines are taken apart. A
listener receives a response, looks up the channel of its call in `proposals`, and sends on that channel,
which has no buffer. The call leaves its `select` with the response or with the timeout, deletes its entry of
`proposals`, and closes the channel. A send on a closed channel panics, and so does one that is blocked when
the channel is closed.

A call that times out while a listener has looked up its channel therefore brings the process down, and so
does one whose channel is looked up between its timeout and its `Delete`. And `proposeHandler` returns when
`Node.Propose` fails, without a response to the request that it has taken (`responses_go_wrong`). Where
neither happens, every response finds its call (`responses_routed`).

The calls are indexed by a type `ι`, which stands for the ids of their commands. `taken` and `answered` are
not part of the program: they record the requests that the handler has taken, and the responses that it has
sent.
-/

namespace Omashu

open Lib

/-- Where a call of `proposeAndWait` is, step by step. -/
inductive ProposeCall
  /-- It has not begun. -/
  | idle
  /-- It has registered its channel, and is to send its command to the handler. -/
  | stored
  /-- It is in its `select`. -/
  | waiting
  /-- It has left its `select` with this result, and is to delete its entry of `proposals`. -/
  | leaving (e : Option Err)
  /-- It is to close its channel. -/
  | deleted (e : Option Err)
  | returned (e : Option Err)
  deriving DecidableEq

/-- The call has an entry in `proposals`. -/
def ProposeCall.registered : ProposeCall → Bool
  | .stored | .waiting | .leaving _ => true
  | _ => false

/-- The call has left its `select`, and still has its entry in `proposals`. -/
def ProposeCall.isLeaving : ProposeCall → Bool
  | .leaving _ => true
  | _ => false

/-- The result with which a call has left its `select`. -/
def ProposeCall.result : ProposeCall → Option (Option Err)
  | .leaving e | .deleted e | .returned e => some e
  | _ => none

/-- The call has not sent its command. -/
def ProposeCall.Unsent (p : ProposeCall) : Prop := p = .idle ∨ p = .stored

/-- The request that `proposeHandler` has taken and not answered. -/
def Handler.inHand {ι : Type*} : Handler ι → List ι
  | .received i | .responding i _ => [i]
  | _ => []

/-- The goroutines that handle proposals and their responses. -/
structure Responder (ι : Type*) where
  /-- The calls of `proposeAndWait`. -/
  calls : ι → ProposeCall
  /-- `proposeReqNotifier`, which holds one command. -/
  proposeReqNotifier : Option ι
  /-- `proposeHandler`. -/
  handler : Handler ι
  /-- `proposeRespNotifier`, which holds one response. -/
  proposeRespNotifier : Option (ι × Option Err)
  /-- How many listeners are in their `select`. -/
  listeners : ℕ
  /-- The responses for which a listener has looked up the channel, and is to send on it. -/
  sending : List (ι × Option Err)
  /-- The node has been removed from the cluster. -/
  selfRemoved : Bool
  /-- A goroutine has sent on a closed channel. -/
  panicked : Bool
  /-- The requests that the handler has taken. -/
  taken : List ι
  /-- The responses that the handler has sent. -/
  answered : List (ι × Option Err)

/-- A step of one of the goroutines. -/
inductive ResponseAction (ι : Type*)
  /-- A call begins: it encodes its command, and registers its channel. -/
  | begin (i : ι) (encoded : Bool)
  /-- A call sends its command to the handler. -/
  | send (i : ι)
  /-- The handler receives a command. -/
  | receive
  /-- The handler proposes the command, or refuses it for a node that has been removed. -/
  | propose
  /-- `Node.Propose` fails. -/
  | proposeFails
  /-- The handler sends its response. -/
  | respond
  /-- The handler returns from its `select`: its context is done, the node stops, or a configuration change
  cannot be proposed. -/
  | stop
  /-- A term as the leader begins, and with it a listener. -/
  | startListener
  /-- A listener returns from its `select`. -/
  | stopListener
  /-- A listener receives a response, and looks up the channel of its call. -/
  | listen
  /-- A listener sends a response on the channel of its call. -/
  | deliver (n : ℕ)
  /-- A call times out. -/
  | timeout (i : ι)
  /-- A call deletes its entry of `proposals`. -/
  | delete (i : ι)
  /-- A call closes its channel, and returns. -/
  | close (i : ι)
  /-- The node is removed from the cluster. -/
  | remove

namespace Responder

variable {ι : Type*} [DecidableEq ι]

/-- Moves one call. -/
def setCall (s : Responder ι) (i : ι) (p : ProposeCall) : Responder ι :=
  { s with calls := Function.update s.calls i p }

/-- The handler receives a command. -/
def receive (s : Responder ι) : Option (Responder ι) :=
  match s.handler, s.proposeReqNotifier with
  | .idle, some i => some { s with
      handler := .received i
      proposeReqNotifier := none
      taken := s.taken ++ [i] }
  | _, _ => none

/-- The handler proposes the command it has received, or refuses it. -/
def propose (s : Responder ι) : Option (Responder ι) :=
  match s.handler with
  | .received i => some { s with
      handler := .responding i (if s.selfRemoved then some .nodeRemoved else none) }
  | _ => none

/-- `Node.Propose` fails: the handler reports the error to the Ready loop and returns. -/
def proposeFails (s : Responder ι) : Option (Responder ι) :=
  match s.handler with
  | .received _ => if s.selfRemoved then none else some { s with handler := .stopped }
  | _ => none

/-- The handler sends its response, once the channel has room. -/
def respond (s : Responder ι) : Option (Responder ι) :=
  match s.handler, s.proposeRespNotifier with
  | .responding i e, none => some { s with
      handler := .idle
      proposeRespNotifier := some (i, e)
      answered := s.answered ++ [(i, e)] }
  | _, _ => none

/-- A listener receives a response. It drops it if there is no entry in `proposals`. -/
def listen (s : Responder ι) : Option (Responder ι) :=
  match s.proposeRespNotifier, s.listeners with
  | some (i, e), n + 1 =>
    if (s.calls i).registered then
      some { s with proposeRespNotifier := none, listeners := n, sending := s.sending ++ [(i, e)] }
    else some { s with proposeRespNotifier := none }
  | _, _ => none

/-- A listener sends a response. The channel has no buffer, so the send waits for the call to be in its
`select`. -/
def deliver (s : Responder ι) (n : ℕ) : Option (Responder ι) :=
  match s.sending[n]? with
  | some (i, e) =>
    match s.calls i with
    | .waiting => some { s.setCall i (.leaving e) with
        listeners := s.listeners + 1
        sending := s.sending.eraseIdx n }
    -- The channel is closed.
    | .returned _ => some { s with panicked := true }
    | _ => none
  | none => none

/-- A step of one of the goroutines. -/
def step (s : Responder ι) (a : ResponseAction ι) : Option (Responder ι) :=
  if s.panicked then none
  else
    match a with
    | .begin i encoded =>
      if s.calls i = .idle then
        some (s.setCall i (if encoded then .stored else .returned (some .malformed)))
      else none
    | .send i =>
      if s.calls i = .stored ∧ s.proposeReqNotifier = none then
        some { s.setCall i .waiting with proposeReqNotifier := some i }
      else none
    | .receive => s.receive
    | .propose => s.propose
    | .proposeFails => s.proposeFails
    | .respond => s.respond
    | .stop => if s.handler = .idle then some { s with handler := .stopped } else none
    | .startListener => some { s with listeners := s.listeners + 1 }
    | .stopListener => if s.listeners = 0 then none else some { s with listeners := s.listeners - 1 }
    | .listen => s.listen
    | .deliver n => s.deliver n
    | .timeout i =>
      if s.calls i = .waiting then some (s.setCall i (.leaving (some .proposeTimeout))) else none
    | .delete i =>
      match s.calls i with
      | .leaving e => some (s.setCall i (.deleted e))
      | _ => none
    | .close i =>
      match s.calls i with
      | .deleted e => some (s.setCall i (.returned e))
      | _ => none
    | .remove => some { s with selfRemoved := true }

/-- Commands can be encoded and proposed, and the handler goes on. A call does not time out while a listener
has looked up its channel, and no listener looks up the channel of a call that has left its `select`. -/
def Undisturbed (s : Responder ι) : ResponseAction ι → Prop
  | .begin _ encoded => encoded = true
  | .proposeFails => False
  | .stop => False
  | .listen => ∀ x ∈ s.proposeRespNotifier, (s.calls x.1).isLeaving = false
  | .timeout i => ∀ x ∈ s.sending, x.1 ≠ i
  | _ => True

/-! ## Where the responses are -/

/-- What holds under the condition. -/
structure RoutingInv (s : Responder ι) : Prop where
  /-- No goroutine has panicked. -/
  running : s.panicked = false
  /-- The handler has not returned. -/
  handling : s.handler ≠ .stopped
  /-- The requests taken are those answered, and the one in the hands of the handler. -/
  taken : s.taken = s.answered.map Prod.fst ++ s.handler.inHand
  /-- A request is sent once. -/
  fresh : (s.taken ++ s.proposeReqNotifier.toList).Nodup
  /-- The requests are of calls that have sent them. -/
  sent : ∀ i ∈ s.taken ++ s.proposeReqNotifier.toList, ¬(s.calls i).Unsent
  /-- The responses on their way are responses of the handler. -/
  routes : ∀ x ∈ s.sending ++ s.proposeRespNotifier.toList, x ∈ s.answered
  /-- There is one for a call. -/
  once : ((s.sending ++ s.proposeRespNotifier.toList).map Prod.fst).Nodup
  /-- A listener sends to a call that is in its `select`. -/
  sending : ∀ x ∈ s.sending, s.calls x.1 = .waiting
  /-- The results of the calls. -/
  result : ∀ i, ∀ e ∈ (s.calls i).result, e = some .proposeTimeout ∨ (i, e) ∈ s.answered

variable {s t : Responder ι} {a : ResponseAction ι} {i : ι}

omit [DecidableEq ι] in
/-- A call that has been answered has sent its request. -/
theorem RoutingInv.sent_of_answered (h : s.RoutingInv) {x : ι × Option Err} (hx : x ∈ s.answered) :
    ¬(s.calls x.1).Unsent := by
  apply h.sent
  rw [h.taken]
  exact List.mem_append_left _ (List.mem_append_left _ (List.mem_map_of_mem hx))

/-- One call moves. -/
theorem RoutingInv.setCall (h : s.RoutingInv) {p : ProposeCall}
    (hsent : p.Unsent → (s.calls i).Unsent)
    (hsending : s.calls i = .waiting → p ≠ .waiting → ∀ x ∈ s.sending, x.1 ≠ i)
    (hresult : ∀ e ∈ p.result, e = some .proposeTimeout ∨ (i, e) ∈ s.answered) :
    (s.setCall i p).RoutingInv where
  running := h.running
  handling := h.handling
  taken := h.taken
  fresh := h.fresh
  sent j hj := by
    have hold := h.sent j hj
    by_cases hji : j = i
    · subst hji
      simpa [Responder.setCall] using fun hp => hold (hsent hp)
    · simpa [Responder.setCall, Function.update_of_ne hji] using hold
  routes := h.routes
  once := h.once
  sending x hx := by
    have hold := h.sending x hx
    by_cases hxi : x.1 = i
    · rw [hxi] at hold
      have hp : p = .waiting := by
        by_contra hp
        exact hsending hold hp x hx hxi
      simp [Responder.setCall, hxi, hp]
    · simpa [Responder.setCall, Function.update_of_ne hxi] using hold
  result := (Function.forall_update_iff s.calls
    fun j p => ∀ e ∈ p.result, e = some .proposeTimeout ∨ (j, e) ∈ s.answered).mpr
      ⟨hresult, fun j _ => h.result j⟩

/-- A call sends its command. -/
theorem RoutingInv.send (h : s.RoutingInv) (hi : s.calls i = .stored) (hreq : s.proposeReqNotifier = none) :
    RoutingInv { s.setCall i .waiting with proposeReqNotifier := some i } := by
  have hset : (s.setCall i .waiting).RoutingInv :=
    h.setCall (by simp [ProposeCall.Unsent]) (by simp [hi]) (by simp [ProposeCall.result])
  have hnot : i ∉ s.taken := fun hmem =>
    h.sent i (List.mem_append_left _ hmem) (.inr hi)
  have hfresh : (s.taken ++ [i]).Nodup := by
    have hold := h.fresh
    rw [hreq, Option.toList_none, List.append_nil] at hold
    refine List.nodup_append.mpr ⟨hold, List.nodup_singleton i, ?_⟩
    rintro j hj k hk rfl
    exact hnot (List.mem_singleton.mp hk ▸ hj)
  refine ⟨hset.running, hset.handling, hset.taken, hfresh, ?_, hset.routes, hset.once, hset.sending,
    hset.result⟩
  intro j hj
  rcases List.mem_append.mp hj with hj | hj
  · exact hset.sent j (List.mem_append_left _ hj)
  · obtain rfl : j = i := by simpa using hj
    simp [Responder.setCall, ProposeCall.Unsent]

omit [DecidableEq ι] in
/-- The handler takes a command. -/
theorem RoutingInv.receive (h : s.RoutingInv) (hs : s.receive = some t) : t.RoutingInv := by
  unfold Responder.receive at hs
  split at hs
  next i hhandler hreq =>
    obtain rfl := Option.some.inj hs
    have htaken := h.taken
    have hfresh := h.fresh
    have hsent := h.sent
    rw [hhandler] at htaken
    rw [hreq] at hfresh hsent
    refine ⟨h.running, by simp, ?_, by simpa using hfresh, by simpa using hsent, h.routes, h.once, h.sending,
      h.result⟩
    show s.taken ++ [i] = s.answered.map Prod.fst ++ [i]
    rw [htaken]
    simp [Handler.inHand]
  next => cases hs

omit [DecidableEq ι] in
/-- The handler sends a response. -/
theorem RoutingInv.respond (h : s.RoutingInv) (hs : s.respond = some t) : t.RoutingInv := by
  unfold Responder.respond at hs
  split at hs
  next i e hhandler hresp =>
    obtain rfl := Option.some.inj hs
    have htaken := h.taken
    rw [hhandler, Handler.inHand] at htaken
    -- The call has no other response yet.
    have hnew : i ∉ s.answered.map Prod.fst := by
      have hnodup := (List.nodup_append.mp h.fresh).1
      rw [htaken, List.nodup_append] at hnodup
      exact fun hmem => hnodup.2.2 i hmem i (List.mem_singleton_self i) rfl
    have hroutes := h.routes
    have honce := h.once
    rw [hresp, Option.toList_none, List.append_nil] at hroutes honce
    refine ⟨h.running, by simp, ?_, h.fresh, h.sent, ?_, ?_, h.sending, ?_⟩
    · show s.taken = (s.answered ++ [(i, e)]).map Prod.fst ++ []
      rw [htaken, List.map_append, List.append_nil]
      rfl
    · intro x hx
      rcases List.mem_append.mp hx with hx | hx
      · exact List.mem_append_left _ (hroutes x hx)
      · exact List.mem_append_right _ (by simpa using hx)
    · show ((s.sending ++ [(i, e)]).map Prod.fst).Nodup
      rw [List.map_append, List.nodup_append]
      refine ⟨honce, by simp, ?_⟩
      rintro j hj k hk rfl
      obtain ⟨x, hx, rfl⟩ := List.mem_map.mp hj
      obtain rfl : x.1 = i := by simpa using hk
      exact hnew (List.mem_map_of_mem (hroutes x hx))
    · intro j f hf
      exact (h.result j f hf).imp_right (List.mem_append_left _)
  next => cases hs

omit [DecidableEq ι] in
/-- A listener receives a response, and looks up the channel of its call. -/
theorem RoutingInv.listen (h : s.RoutingInv)
    (hc : ∀ x ∈ s.proposeRespNotifier, (s.calls x.1).isLeaving = false) (hs : s.listen = some t) :
    t.RoutingInv := by
  unfold Responder.listen at hs
  split at hs
  next i e n hresp hlisteners =>
    have hroutes := h.routes
    have honce := h.once
    rw [hresp, Option.toList_some] at hroutes honce
    split_ifs at hs with hreg
    · obtain rfl := Option.some.inj hs
      refine ⟨h.running, h.handling, h.taken, h.fresh, h.sent, by simpa using hroutes, by simpa using honce,
        ?_, h.result⟩
      intro x hx
      rcases List.mem_append.mp hx with hx | hx
      · exact h.sending x hx
      · obtain rfl := List.mem_singleton.mp hx
        -- The call has sent its command and has not left its `select`.
        have hsent := h.sent_of_answered (hroutes (i, e) (List.mem_append_right _ (by simp)))
        have hleaving := hc (i, e) hresp
        cases hp : s.calls i with
        | waiting => rfl
        | idle | stored => simp [ProposeCall.Unsent, hp] at hsent
        | leaving f => simp [ProposeCall.isLeaving, hp] at hleaving
        | deleted | returned => simp [ProposeCall.registered, hp] at hreg
    · obtain rfl := Option.some.inj hs
      refine ⟨h.running, h.handling, h.taken, h.fresh, h.sent, ?_, ?_, h.sending, h.result⟩
      · intro x hx
        exact hroutes x (List.mem_append_left _ (by simpa using hx))
      · rw [List.map_append, List.nodup_append] at honce
        simpa using honce.1
  next => cases hs

/-- A listener sends a response on the channel of its call. -/
theorem RoutingInv.deliver (h : s.RoutingInv) {n : ℕ} (hs : s.deliver n = some t) : t.RoutingInv := by
  unfold Responder.deliver at hs
  split at hs
  next i e hn =>
    have hmem : (i, e) ∈ s.sending := List.mem_of_getElem? hn
    rw [h.sending _ hmem] at hs
    obtain rfl := Option.some.inj hs
    -- The other responses with the listeners are of other calls.
    have hsub : ∀ x ∈ s.sending.eraseIdx n, x ∈ s.sending := fun x hx => List.mem_of_mem_eraseIdx hx
    have hother : ∀ x ∈ s.sending.eraseIdx n, x.1 ≠ i := by
      obtain ⟨hlt, hget⟩ := List.getElem?_eq_some_iff.mp hn
      have hsplit : s.sending = s.sending.take n ++ (i, e) :: s.sending.drop (n + 1) := by
        rw [← hget, List.getElem_cons_drop, List.take_append_drop]
      have honce := h.once
      rw [List.map_append, List.nodup_append, hsplit, List.map_append, List.map_cons,
        List.nodup_middle, List.nodup_cons, ← List.map_append] at honce
      intro x hx hxi
      rw [List.eraseIdx_eq_take_drop_succ] at hx
      exact honce.1.1 (List.mem_map.mpr ⟨x, hx, hxi⟩)
    have hset : RoutingInv { s with sending := s.sending.eraseIdx n, listeners := s.listeners + 1 } := by
      refine ⟨h.running, h.handling, h.taken, h.fresh, h.sent, ?_, ?_, fun x hx => h.sending x (hsub x hx),
        h.result⟩
      · intro x hx
        rcases List.mem_append.mp hx with hx | hx
        · exact h.routes x (List.mem_append_left _ (hsub x hx))
        · exact h.routes x (List.mem_append_right _ hx)
      · exact h.once.sublist (((List.eraseIdx_sublist _ _).append (List.Sublist.refl _)).map _)
    refine hset.setCall (by simp [ProposeCall.Unsent]) (fun _ _ => hother) ?_
    intro f hf
    obtain rfl := Option.some.inj hf
    exact .inr (h.routes _ (List.mem_append_left _ hmem))
  next => cases hs

/-- A step that meets the condition keeps the responses on their way. -/
theorem RoutingInv.step (h : s.RoutingInv) (hc : s.Undisturbed a) (hs : s.step a = some t) : t.RoutingInv := by
  unfold Responder.step at hs
  rw [if_neg (by simp [h.running])] at hs
  cases a with
  | begin i encoded =>
    have hencoded : encoded = true := hc
    subst hencoded
    simp only [↓reduceIte] at hs
    split_ifs at hs with hi
    obtain rfl := Option.some.inj hs
    exact h.setCall (fun _ => .inl hi) (by simp [hi]) (by simp [ProposeCall.result])
  | send i =>
    dsimp only at hs
    split_ifs at hs with hi
    obtain rfl := Option.some.inj hs
    exact h.send hi.1 hi.2
  | receive => exact h.receive hs
  | propose =>
    simp only [Responder.propose] at hs
    split at hs
    next i hhandler =>
      obtain rfl := Option.some.inj hs
      have htaken := h.taken
      rw [hhandler] at htaken
      exact ⟨h.running, by simp, htaken, h.fresh, h.sent, h.routes, h.once, h.sending, h.result⟩
    next => cases hs
  | proposeFails => exact absurd hc id
  | respond => exact h.respond hs
  | stop => exact absurd hc id
  | startListener =>
    obtain rfl := Option.some.inj hs
    exact ⟨h.running, h.handling, h.taken, h.fresh, h.sent, h.routes, h.once, h.sending, h.result⟩
  | stopListener =>
    dsimp only at hs
    split_ifs at hs
    obtain rfl := Option.some.inj hs
    exact ⟨h.running, h.handling, h.taken, h.fresh, h.sent, h.routes, h.once, h.sending, h.result⟩
  | listen => exact h.listen hc hs
  | deliver n => exact h.deliver hs
  | timeout i =>
    dsimp only at hs
    split_ifs at hs
    obtain rfl := Option.some.inj hs
    exact h.setCall (by simp [ProposeCall.Unsent]) (fun _ _ => hc) (by simp [ProposeCall.result])
  | delete i | close i =>
    dsimp only at hs
    split at hs
    next e hi =>
      obtain rfl := Option.some.inj hs
      exact h.setCall (by simp [ProposeCall.Unsent]) (by simp [hi])
        (fun f hf => h.result i f (by rw [hi]; exact hf))
    next => cases hs
  | remove =>
    obtain rfl := Option.some.inj hs
    exact ⟨h.running, h.handling, h.taken, h.fresh, h.sent, h.routes, h.once, h.sending, h.result⟩

/-! ## No call is blocked for good -/

/-- The call can go on and return. -/
def CanReturn (s : Responder ι) (i : ι) : Prop :=
  ∃ t e, Reaches step Undisturbed s t ∧ t.calls i = .returned e

/-- The call can return after a step that meets the condition. -/
theorem CanReturn.of_step (h : t.CanReturn i) (hc : s.Undisturbed a) (hs : s.step a = some t) :
    s.CanReturn i := by
  obtain ⟨u, e, hu, hi⟩ := h
  exact ⟨u, e, Reaches.head hc hs hu, hi⟩

/-- A call that is to close its channel. -/
theorem canReturn_of_deleted {e : Option Err} (h : s.panicked = false) (hi : s.calls i = .deleted e) :
    s.CanReturn i := by
  refine ⟨s.setCall i (.returned e), e, Reaches.head (a := .close i) trivial ?_ .refl, ?_⟩
  · simp [step, h, hi]
  · simp [setCall]

/-- A call that has left its `select`. -/
theorem canReturn_of_leaving {e : Option Err} (h : s.panicked = false) (hi : s.calls i = .leaving e) :
    s.CanReturn i := by
  have hnext : (s.setCall i (.deleted e)).CanReturn i :=
    canReturn_of_deleted (e := e) h (by simp [setCall])
  exact hnext.of_step (a := .delete i) trivial (by simp [step, h, hi])

/-- A call in its `select` gets its response from the listener that has it, or times out. -/
theorem canReturn_of_waiting (h : s.RoutingInv) (hi : s.calls i = .waiting) : s.CanReturn i := by
  by_cases hsending : ∃ x ∈ s.sending, x.1 = i
  · obtain ⟨⟨j, e⟩, hx, rfl⟩ := hsending
    obtain ⟨n, hn⟩ := List.mem_iff_getElem?.mp hx
    have hdeliver : s.step (.deliver n) = some { s.setCall j (.leaving e) with
        listeners := s.listeners + 1
        sending := s.sending.eraseIdx n } := by
      simp [step, h.running, deliver, hn, hi]
    refine CanReturn.of_step ?_ (a := .deliver n) trivial hdeliver
    exact canReturn_of_leaving (e := e) h.running (by simp [setCall])
  · have htimeout : s.step (.timeout i) = some (s.setCall i (.leaving (some .proposeTimeout))) := by
      simp [step, h.running, hi]
    refine CanReturn.of_step ?_ (a := .timeout i) (fun x hx hxi => hsending ⟨x, hx, hxi⟩) htimeout
    exact canReturn_of_leaving (e := some .proposeTimeout) h.running (by simp [setCall])

/-- A call that has registered its channel sends its command, where there is room for it. -/
theorem canReturn_of_stored (h : s.RoutingInv) (hi : s.calls i = .stored)
    (hreq : s.proposeReqNotifier = none) : s.CanReturn i := by
  have hsend : s.step (.send i) = some { s.setCall i .waiting with proposeReqNotifier := some i } := by
    simp [step, h.running, hi, hreq]
  exact (canReturn_of_waiting (h.send hi hreq) (by simp [setCall])).of_step (a := .send i) trivial hsend

/-- The goroutines go on to a state in which the calls that have not sent their command are as before. -/
def GoesOn (s t : Responder ι) : Prop :=
  Reaches step Undisturbed s t ∧ t.RoutingInv ∧ t.proposeReqNotifier = s.proposeReqNotifier ∧
    (∀ i, s.calls i = .stored → t.calls i = .stored) ∧ ∀ x ∈ s.answered, x ∈ t.answered

/-- They can go on from there. -/
theorem GoesOn.trans {u : Responder ι} (h : s.GoesOn t) (h' : t.GoesOn u) : s.GoesOn u := by
  obtain ⟨hr, -, hreq, hstored, hanswered⟩ := h
  obtain ⟨hr', hI, hreq', hstored', hanswered'⟩ := h'
  exact ⟨hr.trans hr', hI, hreq'.trans hreq, fun i hi => hstored' i (hstored i hi),
    fun x hx => hanswered' x (hanswered x hx)⟩

/-- One step that leaves these calls alone. -/
theorem goesOn_step (h : s.RoutingInv) (hc : s.Undisturbed a) (hs : s.step a = some t)
    (hreq : t.proposeReqNotifier = s.proposeReqNotifier)
    (hstored : ∀ i, s.calls i = .stored → t.calls i = .stored)
    (hanswered : ∀ x ∈ s.answered, x ∈ t.answered) : s.GoesOn t :=
  ⟨Reaches.head hc hs .refl, h.step hc hs, hreq, hstored, hanswered⟩

/-- A listener can make room for a response. -/
theorem exists_room (h : s.RoutingInv) :
    ∃ t, s.GoesOn t ∧ t.proposeRespNotifier = none ∧ t.handler = s.handler := by
  cases hresp : s.proposeRespNotifier with
  | none => exact ⟨s, ⟨.refl, h, rfl, fun _ => id, fun _ => id⟩, hresp, rfl⟩
  | some x =>
    obtain ⟨m, e⟩ := x
    -- The call of the response deletes its entry first, if it has left its `select`.
    obtain ⟨t, ht, htresp, hhandler, hleft⟩ : ∃ t, s.GoesOn t ∧ t.proposeRespNotifier = some (m, e) ∧
        t.handler = s.handler ∧ (t.calls m).isLeaving = false := by
      cases hm : s.calls m with
      | leaving f =>
        have hdelete : s.step (.delete m) = some (s.setCall m (.deleted f)) := by
          simp [step, h.running, hm]
        refine ⟨_, goesOn_step h (a := .delete m) trivial hdelete rfl ?_ (fun _ => id), hresp, rfl, ?_⟩
        · intro i hi
          have hne : i ≠ m := by
            rintro rfl
            rw [hm] at hi
            cases hi
          simpa [setCall, Function.update_of_ne hne] using hi
        · simp [setCall, ProposeCall.isLeaving]
      | _ => exact ⟨s, ⟨.refl, h, rfl, fun _ => id, fun _ => id⟩, hresp, rfl, by rw [hm]; rfl⟩
    -- Then a new listener receives it.
    have hI := ht.2.1
    have hstart : t.step .startListener = some { t with listeners := t.listeners + 1 } := by
      simp [step, hI.running]
    have hu := goesOn_step hI (a := .startListener) trivial hstart rfl (fun _ => id) (fun _ => id)
    obtain ⟨u, hlisten, hreq, hcalls, hanswered, hnone, hsame⟩ :
        ∃ u, step { t with listeners := t.listeners + 1 } .listen = some u ∧
          u.proposeReqNotifier = t.proposeReqNotifier ∧ u.calls = t.calls ∧ u.answered = t.answered ∧
          u.proposeRespNotifier = none ∧ u.handler = t.handler := by
      by_cases hreg : (t.calls m).registered = true
      · refine ⟨{ t with proposeRespNotifier := none, sending := t.sending ++ [(m, e)] }, ?_, rfl, rfl, rfl,
          rfl, rfl⟩
        simp [step, hI.running, listen, htresp, hreg]
      · refine ⟨{ t with proposeRespNotifier := none, listeners := t.listeners + 1 }, ?_, rfl, rfl, rfl,
          rfl, rfl⟩
        simp [step, hI.running, listen, htresp, hreg]
    have hv := goesOn_step hu.2.1 (a := .listen) ?_ hlisten hreq (fun i hi => by rw [hcalls]; exact hi)
      (fun x hx => by rw [hanswered]; exact hx)
    · exact ⟨u, (ht.trans hu).trans hv, hnone, hsame.trans hhandler⟩
    · intro x hx
      obtain rfl : (m, e) = x := Option.some.inj (htresp.symm.trans hx)
      exact hleft

/-- The handler can get back to its `select`, with an answer to what it has in its hands. -/
theorem exists_idle (h : s.RoutingInv) :
    ∃ t, s.GoesOn t ∧ t.handler = .idle ∧ ∀ i ∈ s.handler.inHand, ∃ e, (i, e) ∈ t.answered := by
  -- A handler that is to send a response waits for room.
  have hresponding : ∀ {s : Responder ι} {j : ι} {e : Option Err}, s.RoutingInv →
      s.handler = .responding j e → ∃ t, s.GoesOn t ∧ t.handler = .idle ∧ (j, e) ∈ t.answered := by
    intro s j e h hj
    obtain ⟨t, ht, hroom, hhandler⟩ := exists_room h
    have hrespond : t.step .respond = some { t with
        handler := .idle
        proposeRespNotifier := some (j, e)
        answered := t.answered ++ [(j, e)] } := by
      simp [step, ht.2.1.running, respond, hroom, hhandler, hj]
    have hu := goesOn_step ht.2.1 (a := .respond) trivial hrespond rfl (fun _ => id)
      (fun x hx => List.mem_append_left _ hx)
    exact ⟨_, ht.trans hu, rfl, List.mem_append_right _ (List.mem_singleton_self _)⟩
  cases hhandler : s.handler with
  | idle => exact ⟨s, ⟨.refl, h, rfl, fun _ => id, fun _ => id⟩, hhandler, by simp [Handler.inHand]⟩
  | received j =>
    have hpropose : s.step .propose = some { s with
        handler := .responding j (if s.selfRemoved then some .nodeRemoved else none) } := by
      simp [step, h.running, propose, hhandler]
    have ht := goesOn_step h (a := .propose) trivial hpropose rfl (fun _ => id) (fun _ => id)
    obtain ⟨u, hu, hidle, hmem⟩ := hresponding ht.2.1 rfl
    refine ⟨u, ht.trans hu, hidle, fun i hi => ?_⟩
    obtain rfl : i = j := by simpa [Handler.inHand] using hi
    exact ⟨_, hmem⟩
  | responding j e =>
    obtain ⟨u, hu, hidle, hmem⟩ := hresponding h hhandler
    refine ⟨u, hu, hidle, fun i hi => ?_⟩
    obtain rfl : i = j := by simpa [Handler.inHand] using hi
    exact ⟨e, hmem⟩
  | stopped => exact absurd hhandler h.handling

/-- No call is blocked for good. -/
theorem canReturn (h : s.RoutingInv) (hidle : s.calls i ≠ .idle) : s.CanReturn i := by
  cases hi : s.calls i with
  | idle => exact absurd hi hidle
  | waiting => exact canReturn_of_waiting h hi
  | leaving e => exact canReturn_of_leaving h.running hi
  | deleted e => exact canReturn_of_deleted h.running hi
  | returned e => exact ⟨s, e, .refl, hi⟩
  | stored =>
    cases hreq : s.proposeReqNotifier with
    | none => exact canReturn_of_stored h hi hreq
    | some k =>
      -- The handler gets back to its `select`, and takes the command in the channel.
      obtain ⟨t, ht, hhandler, -⟩ := exists_idle h
      obtain ⟨hreach, hI, hsame, hstored, -⟩ := ht
      have hreceive : t.step .receive = some { t with
          handler := .received k
          proposeReqNotifier := none
          taken := t.taken ++ [k] } := by
        simp [step, hI.running, receive, hhandler, hsame, hreq]
      have hnext := canReturn_of_stored (hI.step (a := .receive) trivial hreceive) (hstored i hi) rfl
      obtain ⟨u, e, hu, he⟩ := hnext.of_step (a := .receive) trivial hreceive
      exact ⟨u, e, hreach.trans hu, he⟩

/-- The responses are routed safely. -/
structure ResponsesRouted (s : Responder ι) : Prop where
  /-- No goroutine has sent on a closed channel. -/
  safe : s.panicked = false
  /-- A call that has returned has timed out, or returned the result for its own command. -/
  result : ∀ i e, s.calls i = .returned e → e = some .proposeTimeout ∨ (i, e) ∈ s.answered
  /-- A call that has begun can go on and return. -/
  returns : ∀ i, s.calls i ≠ .idle → s.CanReturn i
  /-- The requests that the handler has taken are all different, and they are those that it has answered and
  the one in its hands. -/
  answered : s.taken.Nodup ∧ s.taken = s.answered.map Prod.fst ++ s.handler.inHand
  /-- The handler can go on and answer the one in its hands. -/
  answers : ∀ i ∈ s.handler.inHand, ∃ t e, Reaches step Undisturbed s t ∧ (i, e) ∈ t.answered

omit [DecidableEq ι] in
/-- A node before its first proposal. -/
structure Starts (s : Responder ι) : Prop where
  /-- No call has begun. -/
  calls : ∀ i, s.calls i = .idle
  /-- No request is under way. -/
  request : s.proposeReqNotifier = none
  /-- The handler is in its `select`. -/
  handler : s.handler = .idle
  /-- No response is under way. -/
  response : s.proposeRespNotifier = none
  /-- No listener has one. -/
  sending : s.sending = []
  /-- No goroutine has panicked. -/
  panicked : s.panicked = false
  /-- No request has been taken. -/
  taken : s.taken = []
  /-- None has been answered. -/
  answered : s.answered = []

omit [DecidableEq ι] in
/-- Before the first proposal nothing is on its way. -/
theorem Starts.routingInv (h : s.Starts) : s.RoutingInv where
  running := h.panicked
  handling := by simp [h.handler]
  taken := by simp [h.taken, h.answered, h.handler, Handler.inHand]
  fresh := by simp [h.taken, h.request]
  sent := by simp [h.taken, h.request]
  routes := by simp [h.sending, h.response]
  once := by simp [h.sending, h.response]
  sending := by simp [h.sending]
  result := by simp [h.calls, ProposeCall.result]

/-- In every run that meets the condition, with any number of calls, listeners and timeouts, no goroutine sends
on a closed channel, every call returns the timeout or the result for its own command and is never blocked for
good, and every request is answered once. -/
theorem responses_routed (h₀ : s.Starts) (h : Reaches step Undisturbed s t) : t.ResponsesRouted := by
  have hI : t.RoutingInv := h.invariant h₀.routingInv fun _ _ _ hI hc hs => hI.step hc hs
  refine ⟨hI.running, ?_, fun i hi => canReturn hI hi, ⟨(List.nodup_append.mp hI.fresh).1, hI.taken⟩, ?_⟩
  · intro i e hi
    exact hI.result i e (by rw [hi]; rfl)
  · intro i hi
    obtain ⟨u, hu, -, hanswered⟩ := exists_idle hI
    obtain ⟨e, he⟩ := hanswered i hi
    exact ⟨u, e, hu.1, he⟩

instance (s : Responder ι) : (a : ResponseAction ι) → Decidable (s.Undisturbed a)
  | .begin _ encoded => inferInstanceAs (Decidable (encoded = true))
  | .proposeFails | .stop => isFalse id
  | .listen => inferInstanceAs (Decidable (∀ x ∈ s.proposeRespNotifier, _))
  | .timeout i => inferInstanceAs (Decidable (∀ x ∈ s.sending, x.1 ≠ i))
  | .send _ | .receive | .propose | .respond | .startListener | .stopListener | .deliver _ | .delete _
  | .close _ | .remove => isTrue trivial

/-- A leader before its first proposal. -/
def noProposals : Responder Two where
  calls := fun _ => .idle
  proposeReqNotifier := none
  handler := .idle
  proposeRespNotifier := none
  listeners := 1
  sending := []
  selfRemoved := false
  panicked := false
  taken := []
  answered := []

/-- Nothing is on its way. -/
theorem starts_noProposals : noProposals.Starts :=
  ⟨fun _ => rfl, rfl, rfl, rfl, rfl, rfl, rfl, rfl⟩

/-- A call up to its `select`, and its request up to the handler. -/
def request (i : Two) : List (ResponseAction Two) := [.begin i true, .send i, .receive]

/-- The handler answers it. -/
def answer : List (ResponseAction Two) := [.propose, .respond]

/-- The first call gets its response, and the second one times out before its own is received. -/
def bothReturn : List (ResponseAction Two) :=
  List.flatten [request .first, answer, [.listen, .deliver 0, .delete .first, .close .first],
    request .second, answer, [.timeout .second, .delete .second, .listen, .close .second]]

/-- The node after both calls. -/
def afterBothReturn : Responder Two :=
  final (guarded step Undisturbed) noProposals bothReturn (by decide +kernel)

/-- Both have been answered, and each returns what is its own. -/
theorem responses_routed_both :
    (afterBothReturn.calls .first = .returned none ∧
      afterBothReturn.calls .second = .returned (some .proposeTimeout) ∧
      afterBothReturn.answered = [(.first, none), (.second, none)]) ∧
    afterBothReturn.ResponsesRouted :=
  ⟨by decide +kernel, responses_routed starts_noProposals (Reaches.final _)⟩

/-- A call times out while a listener has looked up its channel. -/
def timeoutMeetsResponse : List (ResponseAction Two) :=
  List.flatten [request .first, answer,
    [.listen, .timeout .first, .delete .first, .close .first, .deliver 0]]

/-- `Node.Propose` fails. -/
def proposeFailed : List (ResponseAction Two) :=
  List.flatten [request .first, [.proposeFails]]

/-- A response that meets the timeout of its call is sent on a closed channel. A request that cannot be
proposed is taken and never answered, as the handler has returned. -/
theorem responses_go_wrong :
    (run step noProposals timeoutMeetsResponse).map (·.panicked) = some true ∧
      (run step noProposals proposeFailed).map (fun s => (s.taken, s.answered, s.handler)) =
        some ([.first], [], .stopped) := by
  decide +kernel

end Responder

end Omashu
