import Omashu.Leader.Lifecycle

/-!
# The start of a node

`initDistributed` starts the node first and registers `onLeaderChange` after it. `Start` has launched the Ready loop by
then, which takes over the leader that Raft knows of, without a call of the hook, and processes what Raft gives it. So
a change of the leader can come before the hook is registered, and `handleLeaderChange` passes over it: it publishes
the leader and calls nothing. It publishes the leader before it looks for the hook, so that a hook which is registered
in between is called.

While `handleLeaderChange` runs, the node is the leader and its oracle does not serve yet, or the other way round.
Outside of it a node that became the leader without its hook takes proposals, but its oracle is never started, until it
loses the leadership and gains it again. `serving_of_hook_iff` says that this is the only way in which a node that has
been started can be the leader without an oracle, or have one without being the leader, until it is closed.
-/

namespace Omashu

open Lib

/-- A node while it is started, and from then on. -/
structure Startup where
  /-- The Ready loop has begun. -/
  begun : Bool
  /-- `onLeaderChange` is registered. -/
  hook : Bool
  /-- `handleLeaderChange` has published the leader and is about to look for the hook, with `prevLeader`. -/
  changing : Option (ℕ × LeaderChange)
  /-- `lead`, and what the hook starts and stops. -/
  lifecycle : Lifecycle
  deriving DecidableEq

/-- A step of the Ready loop, or of `initDistributed`. -/
inductive StartupAction
  /-- The Ready loop begins, with the leader that Raft knows of. -/
  | begin (lead : ℕ)
  /-- A Ready with a soft state: `handleLeaderChange` up to `setLead`. -/
  | softState (c : LeaderChange)
  /-- The rest of `handleLeaderChange`. -/
  | callHook
  | withLeaderChangeHook
  deriving DecidableEq

namespace Startup

/-- `node.Start` is through, and the Ready loop is to begin. -/
def start : Startup := ⟨false, false, none, Lifecycle.fresh⟩

/-- `handleLeaderChange` up to `setLead`. -/
def setLead (s : Startup) (c : LeaderChange) : Startup :=
  if c.newLeader = s.lifecycle.lead then s
  else { s with
    changing := some (s.lifecycle.lead, c)
    lifecycle := { s.lifecycle with lead := c.newLeader } }

/-- The rest of `handleLeaderChange`, with the hook or with nil in its place. -/
def callHook (id : ℕ) (s : Startup) : Option Startup :=
  s.changing.bind fun (prevLeader, c) =>
    if s.hook then
      (s.lifecycle.onLeaderChange id prevLeader c).map fun lifecycle => { s with changing := none, lifecycle }
    else some { s with changing := none }

/-- A step. -/
def step (id : ℕ) (s : Startup) : StartupAction → Option Startup
  | .begin lead =>
    if s.begun then none else some { s with begun := true, lifecycle := { s.lifecycle with lead := lead } }
  | .softState c =>
    if s.begun ∧ s.lifecycle.exited = false ∧ s.changing = none then some (s.setLead c) else none
  | .callHook => s.callHook id
  | .withLeaderChangeHook => if s.hook then none else some { s with hook := true }

/-- The oracle has been started and not been stopped since. -/
def Serving (s : Startup) : Prop :=
  ∃ n, s.lifecycle.stopNotifier.current = some n ∧ n ∉ s.lifecycle.stopNotifier.closed

/-- The node has its hook, the Ready loop is outside of `handleLeaderChange`, and the oracle does not serve though the
node is the leader, or the other way round. -/
def Astray (id : ℕ) (s : Startup) : Prop :=
  s.hook = true ∧ s.changing = none ∧ s.lifecycle.exited = false ∧ ¬(s.Serving ↔ s.lifecycle.lead = id)

/-- The node does not become the leader without its hook: the Ready loop does not begin with it as the leader, and it
is not the leader when the hook is registered, unless `handleLeaderChange` is yet to look for it. -/
def InTime (id : ℕ) (s : Startup) : StartupAction → Prop
  | .begin lead => s.hook = true → lead ≠ id
  | .withLeaderChangeHook => s.changing = none → s.lifecycle.lead ≠ id
  | .softState _ | .callHook => True

instance (id : ℕ) (s : Startup) : (a : StartupAction) → Decidable (s.InTime id a)
  | .begin lead => inferInstanceAs (Decidable (s.hook = true → lead ≠ id))
  | .withLeaderChangeHook => inferInstanceAs (Decidable (s.changing = none → _))
  | .softState _ | .callHook => inferInstanceAs (Decidable True)

/-- What the hook finds when it is called for a change from a leader: the oracle as it was started and stopped with the
leadership, or one that was never started, where the hook was registered in this change. -/
def FoundBy (id prevLeader newLeader : ℕ) (lifecycle : Lifecycle) : Prop :=
  (∃ n, lifecycle = { Lifecycle.stateAt id n prevLeader with lead := newLeader }) ∨
    lifecycle = Lifecycle.idle 0 newLeader

/-- Before the hook is registered nothing has been started. After that the oracle is started and stopped with the
leadership. -/
structure Inv (id : ℕ) (s : Startup) : Prop where
  /-- No hook. -/
  before : s.hook = false → s.lifecycle = Lifecycle.idle 0 s.lifecycle.lead
  /-- The Ready loop is yet to begin. -/
  beginning : s.begun = false → s.lifecycle = Lifecycle.idle 0 0 ∧ s.changing = none
  /-- The leader changes. -/
  change : ∀ prevLeader c, s.changing = some (prevLeader, c) →
    s.lifecycle.lead = c.newLeader ∧ c.newLeader ≠ prevLeader
  /-- The hook is to be called. -/
  within : s.hook = true → ∀ prevLeader c, s.changing = some (prevLeader, c) →
    FoundBy id prevLeader c.newLeader s.lifecycle
  /-- The hook. -/
  after : s.hook = true → s.changing = none → s.lifecycle.exited = false →
    ∃ n, s.lifecycle = Lifecycle.stateAt id n s.lifecycle.lead

section Steps

variable {id n : ℕ} {s t : Startup} {a : StartupAction}

/-- An oracle that was not started, or was stopped each time, does not serve. -/
theorem not_serving_of_idle {lead : ℕ} (h : s.lifecycle = Lifecycle.idle n lead) : ¬s.Serving := by
  rintro ⟨m, hcurrent, hclosed⟩
  rw [h] at hcurrent hclosed
  cases n with
  | zero => cases hcurrent
  | succ n =>
    obtain rfl : n = m := Option.some.inj hcurrent
    exact hclosed (by simp [Lifecycle.idle])

/-- The oracle serves while the node is the leader. -/
theorem serving_iff_of_stateAt {lead : ℕ} (h : s.lifecycle = Lifecycle.stateAt id n lead) : s.Serving ↔ lead = id := by
  by_cases hlead : lead = id
  · refine iff_of_true ⟨n, ?_, ?_⟩ hlead
    · rw [h, Lifecycle.stateAt, if_pos hlead]
      rfl
    · rw [h, Lifecycle.stateAt, if_pos hlead]
      simp [Lifecycle.serving]
  · rw [Lifecycle.stateAt, if_neg hlead] at h
    exact iff_of_false (not_serving_of_idle h) hlead

/-- A node that is the leader with a hook and nothing started is astray. -/
theorem astray_of_idle (hhook : s.hook = true) (hchanging : s.changing = none)
    (h : s.lifecycle = Lifecycle.idle 0 id) : s.Astray id := by
  refine ⟨hhook, hchanging, by rw [h]; rfl, fun hiff => not_serving_of_idle h (hiff.mpr ?_)⟩
  rw [h]
  rfl

/-- Under the invariant a node is not astray. -/
theorem Inv.not_astray (h : s.Inv id) : ¬s.Astray id := by
  rintro ⟨hhook, hchanging, hexited, hnot⟩
  obtain ⟨n, hstate⟩ := h.after hhook hchanging hexited
  exact hnot (serving_iff_of_stateAt hstate)

/-- The hook leaves the oracle as the leadership asks for, or the process has terminated. -/
theorem stateAt_of_onLeaderChange {lifecycle result : Lifecycle} {prevLeader : ℕ} {c : LeaderChange}
    (hne : c.newLeader ≠ prevLeader) (hfound : FoundBy id prevLeader c.newLeader lifecycle)
    (hresult : lifecycle.onLeaderChange id prevLeader c = some result) :
    result.exited = true ∨ ∃ n, result = Lifecycle.stateAt id n c.newLeader := by
  -- In a node whose oracle follows the leadership, this is a whole `handleLeaderChange`.
  have hfollow : ∀ n, lifecycle = { Lifecycle.stateAt id n prevLeader with lead := c.newLeader } →
      result.exited = true ∨ ∃ n, result = Lifecycle.stateAt id n c.newLeader := by
    rintro n rfl
    have hwhole : (Lifecycle.stateAt id n prevLeader).handleLeaderChange id c = some result := by
      rw [← hresult]
      unfold Lifecycle.handleLeaderChange Lifecycle.stateAt
      split_ifs <;> simp_all [Lifecycle.serving, Lifecycle.idle]
    by_cases hfails : c.newLeader = id ∧ prevLeader ≠ id ∧ c.startServing = false
    · obtain ⟨u, hu, hterminated, -⟩ := Lifecycle.handleLeaderChange_failed (n := n) hfails.1 hfails.2.1 hfails.2.2
      obtain rfl := Option.some.inj (hu.symm.trans hwhole)
      exact .inl hterminated
    · rw [Lifecycle.handleLeaderChange_stateAt hfails] at hwhole
      exact .inr ⟨_, (Option.some.inj hwhole).symm⟩
  rcases hfound with ⟨n, hstate⟩ | hidle
  · exact hfollow n hstate
  · by_cases hprev : prevLeader = id
    · -- There is nothing to stop.
      have hnew : c.newLeader ≠ id := hprev ▸ hne
      have hlost : lifecycle.onLeaderChange id prevLeader c = some (Lifecycle.idle 0 c.newLeader) := by
        rw [hidle, Lifecycle.onLeaderChange, if_neg hnew]
        exact if_pos ⟨hprev, rfl⟩
      obtain rfl := Option.some.inj (hlost.symm.trans hresult)
      exact .inr ⟨0, (if_neg hnew).symm⟩
    · refine hfollow 0 (hidle.trans ?_)
      rw [Lifecycle.stateAt, if_neg hprev]
      rfl

/-- The first part of `handleLeaderChange` keeps the invariant. -/
theorem Inv.setLead {c : LeaderChange} (h : s.Inv id) (hbegun : s.begun = true)
    (hexited : s.lifecycle.exited = false) (hchanging : s.changing = none) : (s.setLead c).Inv id := by
  unfold Startup.setLead
  split_ifs with hsame
  · exact h
  · refine ⟨fun hhook => ?_, fun hno => ?_, ?_, ?_, fun _ hnone => ?_⟩
    · show { s.lifecycle with lead := c.newLeader } = Lifecycle.idle 0 c.newLeader
      rw [h.before hhook]
      rfl
    · exact absurd (hbegun.symm.trans hno) (by decide)
    · rintro prevLeader c' ⟨⟩
      exact ⟨rfl, hsame⟩
    · rintro hhook prevLeader c' ⟨⟩
      obtain ⟨n, hstate⟩ := h.after hhook hchanging hexited
      exact .inl ⟨n, congrArg (fun lifecycle => { lifecycle with lead := c.newLeader }) hstate⟩
    · cases hnone

/-- The second part does. -/
theorem Inv.callHook (h : s.Inv id) (ht : s.callHook id = some t) : t.Inv id := by
  obtain ⟨⟨prevLeader, c⟩, hchanging, hcall⟩ := Option.bind_eq_some_iff.mp ht
  have hne := (h.change prevLeader c hchanging).2
  have hbegun : s.begun ≠ false := fun hno => by
    have hnone := (h.beginning hno).2
    rw [hchanging] at hnone
    cases hnone
  simp only at hcall
  split_ifs at hcall with hhook
  · obtain ⟨lifecycle, hresult, rfl⟩ := Option.map_eq_some_iff.mp hcall
    refine ⟨fun hno => ?_, fun hno => ?_, fun _ _ hsome => ?_, fun _ _ _ hsome => ?_, fun _ _ hrunning => ?_⟩
    · exact absurd (hhook.symm.trans hno) (by decide)
    · exact absurd hno hbegun
    · cases hsome
    · cases hsome
    · have hfound := h.within hhook prevLeader c hchanging
      rcases stateAt_of_onLeaderChange hne hfound hresult with hterminated | ⟨n, hstate⟩
      · exact absurd (hterminated.symm.trans hrunning) (by decide)
      · refine ⟨n, hstate.trans (congrArg (Lifecycle.stateAt id n) ?_)⟩
        rw [hstate, Lifecycle.stateAt]
        split_ifs <;> rfl
  · obtain rfl := Option.some.inj hcall
    refine ⟨h.before, fun hno => ?_, fun _ _ hsome => ?_, fun hyes => ?_, fun hyes => ?_⟩
    · exact absurd hno hbegun
    · cases hsome
    · exact absurd hyes hhook
    · exact absurd hyes hhook

/-- A step keeps the invariant exactly if it does not make the node the leader without its hook: otherwise the node is
astray. -/
theorem Inv.step (h : s.Inv id) (ht : s.step id a = some t) :
    (s.InTime id a → t.Inv id) ∧ (¬s.InTime id a → t.Astray id) := by
  cases a with
  | begin lead =>
    rw [Startup.step] at ht
    split_ifs at ht with hbegun
    obtain rfl := Option.some.inj ht
    obtain ⟨hfresh, hchanging⟩ := h.beginning (Bool.eq_false_iff.mpr hbegun)
    have hstate : { s.lifecycle with lead := lead } = Lifecycle.idle 0 lead := by
      rw [hfresh]
      rfl
    have hnochange : ∀ change, s.changing ≠ some change := fun change hsome => by
      rw [hchanging] at hsome
      cases hsome
    constructor
    · intro hin
      refine ⟨fun _ => hstate, fun hno => Bool.noConfusion hno, fun _ _ hsome => absurd hsome (hnochange _),
        fun _ _ _ hsome => absurd hsome (hnochange _), fun hhook _ _ => ⟨0, ?_⟩⟩
      exact hstate.trans (if_neg (hin hhook)).symm
    · intro hnot
      obtain ⟨hhook, hlead⟩ := Classical.not_imp.mp hnot
      obtain rfl := not_not.mp hlead
      exact astray_of_idle hhook hchanging hstate
  | softState c =>
    rw [Startup.step] at ht
    split_ifs at ht with hrunning
    obtain rfl := Option.some.inj ht
    exact ⟨fun _ => h.setLead hrunning.1 hrunning.2.1 hrunning.2.2, fun hnot => absurd trivial hnot⟩
  | callHook => exact ⟨fun _ => h.callHook ht, fun hnot => absurd trivial hnot⟩
  | withLeaderChangeHook =>
    rw [Startup.step] at ht
    split_ifs at ht with hhook
    obtain rfl := Option.some.inj ht
    have hbefore := h.before (Bool.eq_false_iff.mpr hhook)
    constructor
    · intro hin
      refine ⟨fun hno => Bool.noConfusion hno, h.beginning, h.change, fun _ prevLeader c hsome => ?_,
        fun _ hnone _ => ⟨0, hbefore.trans (if_neg (hin hnone)).symm⟩⟩
      have hlead := (h.change prevLeader c hsome).1
      exact .inr (hlead ▸ hbefore)
    · intro hnot
      obtain ⟨hnone, hlead⟩ := Classical.not_imp.mp hnot
      rw [not_not.mp hlead] at hbefore
      exact astray_of_idle rfl hnone hbefore

end Steps

/-- From its start on, outside of `handleLeaderChange`, a node that has its hook is the leader exactly while its oracle
serves, exactly if it is not the leader when the hook is registered, unless `handleLeaderChange` is yet to look for the
hook, and the Ready loop does not begin with it as the leader after that. -/
theorem serving_of_hook_iff {id : ℕ} {as : List StartupAction} {t : Startup} (h : run (step id) start as = some t) :
    (∀ u, Passes (step id) start as u → ¬u.Astray id) ↔ Along (step id) (InTime id) start as := by
  have hstart : start.Inv id :=
    ⟨fun _ => rfl, fun _ => ⟨rfl, rfl⟩, fun _ _ hsome => (by cases hsome), fun hno => absurd hno (by decide),
      fun hno => absurd hno (by decide)⟩
  exact forall_passes_iff_along (fun s a t hs hin ht => (hs.step ht).1 hin)
    (fun s a t hs hnot ht => (hs.step ht).2 hnot) (fun s hs => hs.not_astray) hstart h

/-- Node 1 becomes the leader before its hook is registered. Its oracle is not started if the hook comes after
`handleLeaderChange` has looked for it, and is if it comes before. -/
theorem serving_of_hook_iff_late :
    (¬∀ u, Passes (step 1) start [.begin 0, .softState ⟨1, true⟩, .callHook, .withLeaderChangeHook] u →
        ¬u.Astray 1) ∧
      ∀ u, Passes (step 1) start [.begin 0, .softState ⟨1, true⟩, .withLeaderChangeHook, .callHook] u →
        ¬u.Astray 1 := by
  constructor
  · have hrun : run (step 1) start [.begin 0, .softState ⟨1, true⟩, .callHook, .withLeaderChangeHook] = some _ :=
      run_final (by decide)
    rw [serving_of_hook_iff hrun]
    decide
  · have hrun : run (step 1) start [.begin 0, .softState ⟨1, true⟩, .withLeaderChangeHook, .callHook] = some _ :=
      run_final (by decide)
    rw [serving_of_hook_iff hrun]
    decide

end Startup

end Omashu
