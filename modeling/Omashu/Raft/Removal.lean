import Omashu.Raft.Batches

/-!
# The removal of this node

`applyEntries` applies a batch of committed entries and returns whether a configuration change removes this
node, in which case `processReady` calls `scheduleSelfRemoval`. The loop assigns what `applyConfChange`
returns to `selfRemove` at every configuration change, so that the last one decides
(`applyEach_selfRemove`): another change in the same batch after the removal makes the result false again, and
the node goes on as a member. `selfRemoval_iff` says for which batches the result is right.

The model has what `applyConfChange` does beside: the configuration that Raft returns becomes `confState`, and
the transport is told of the peer. Leaving this out gives the loop of `Omashu.Raft.Batches`
(`readyLoop_applyEntries`).
-/

namespace Omashu

open Lib

/-- `raftpb.ConfChangeType`. -/
inductive ConfChangeType
  /-- `ConfChangeAddNode`. -/
  | addNode
  /-- `ConfChangeRemoveNode`. -/
  | removeNode
  /-- `ConfChangeUpdateNode`. -/
  | updateNode
  /-- `ConfChangeAddLearnerNode`. -/
  | addLearnerNode
  deriving DecidableEq

/-- `raftpb.ConfChange`. -/
structure ConfChange where
  /-- What is done. -/
  type : ConfChangeType
  /-- The node it is done to. -/
  nodeID : ℕ
  /-- The address of the node. -/
  context : Bytes
  deriving DecidableEq

/-- The number of a kind of change. -/
def ConfChangeType.number : ConfChangeType → UInt8
  | .addNode => 0
  | .removeNode => 1
  | .updateNode => 2
  | .addLearnerNode => 3

/-- The kind of change of a number. -/
def ConfChangeType.ofNumber (n : UInt8) : Option ConfChangeType :=
  [addNode, removeNode, updateNode, addLearnerNode].find? fun t => t.number = n

/-- A varint, of any number of bytes. -/
def getVarint : Bytes → Option (ℕ × Bytes)
  | [] => none
  | b :: bs =>
    if b.toNat < 128 then some (b.toNat, bs)
    else (getVarint bs).map fun (n, rest) => (b.toNat - 128 + 128 * n, rest)

/-- The address of a change, which is left out if it is nil. -/
def ConfChange.unmarshalContext : Bytes → Option Bytes
  | [] => some []
  | 34 :: bs => (getVarint bs).bind fun (len, context) => if context.length = len then some context else none
  | _ => none

/-- `cc.Unmarshal`, with the fields in the order in which `cc.Marshal` writes them: the id of the change, its kind, the
node and the address. -/
def ConfChange.unmarshal : Bytes → Option ConfChange
  | 8 :: bs => do
    let (_, bs) ← getVarint bs
    match bs with
    | 16 :: kind :: 24 :: bs => do
      let type ← ConfChangeType.ofNumber kind
      let (nodeID, bs) ← getVarint bs
      let context ← unmarshalContext bs
      return ⟨type, nodeID, context⟩
    | _ => none
  | _ => none

/-- A call of the transport. -/
inductive PeerCall
  | addPeer (nodeID : ℕ) (url : Bytes)
  | removePeer (nodeID : ℕ)
  | updatePeer (nodeID : ℕ) (url : Bytes)
  deriving DecidableEq

/-- The node's id, and what Raft does with a configuration change. -/
structure Membership where
  /-- `node.id`. -/
  id : ℕ
  /-- `cc.Unmarshal`. -/
  unmarshal : Bytes → Option ConfChange
  /-- `raft.Node.ApplyConfChange`, `none` for a panic. -/
  applyConfChange : ConfState → ConfChange → Option ConfState

/-- A node as far as its entries are concerned. -/
structure Member where
  /-- The applied index, and what the store was handed. -/
  loop : ReadyLoop
  /-- The configuration in Raft. -/
  raftConf : ConfState
  confState : ConfState
  /-- The calls of the transport, the oldest first. -/
  peerCalls : List PeerCall

/-- Why a batch is not applied. -/
inductive MemberFailure
  /-- An error of `processReady`. -/
  | ready (failure : ReadyFailure)
  /-- Raft panics on the configuration change at the index. -/
  | raftPanic (index : ℕ)
  deriving DecidableEq

/-- A change that removes this node. -/
def Membership.removesSelf (m : Membership) (cc : ConfChange) : Bool :=
  cc.type = .removeNode ∧ cc.nodeID = m.id

/-- The entry is a `ConfChangeRemoveNode` for this node. -/
def Membership.Removes (m : Membership) (e : RaftEntry) : Prop :=
  e.type = .confChange ∧ ∃ cc ∈ m.unmarshal e.data, m.removesSelf cc

instance (m : Membership) (e : RaftEntry) : Decidable (m.Removes e) :=
  inferInstanceAs (Decidable (_ ∧ ∃ cc ∈ m.unmarshal e.data, _))

/-- The last configuration change of a batch. -/
def lastChange (es : List RaftEntry) : Option RaftEntry :=
  (es.filter fun e => e.type = .confChange).getLast?

namespace Member

variable (m : Membership) (r : Responses)

/-- The call of the transport for a configuration change of another node, or of this one if it is not a
removal. -/
def peerCall (cc : ConfChange) : Option PeerCall :=
  match cc.type with
  | .addNode | .addLearnerNode => if cc.context = [] then none else some (.addPeer cc.nodeID cc.context)
  | .removeNode => some (.removePeer cc.nodeID)
  | .updateNode => if cc.context = [] then none else some (.updatePeer cc.nodeID cc.context)

/-- `applyConfChange`. -/
def applyConfChange (s : Member) (e : RaftEntry) : Except MemberFailure (Member × Bool) :=
  match m.unmarshal e.data with
  | none => .error (.ready (.confChange e.index))
  | some cc =>
    match m.applyConfChange s.raftConf cc with
    | none => .error (.raftPanic e.index)
    | some confState =>
      let s := { s with raftConf := confState, confState }
      if m.removesSelf cc then .ok (s, true)
      else .ok ({ s with peerCalls := s.peerCalls ++ (peerCall cc).toList }, false)

/-- `applyNormalEntry`. -/
def applyNormalEntry (s : Member) (e : RaftEntry) : Except MemberFailure Member :=
  match s.loop.applyNormalEntry r e with
  | .ok loop => .ok { s with loop }
  | .error failure => .error (.ready failure)

/-- The loop of `applyEntries`, with the value of `selfRemove` so far. -/
def applyEach (s : Member) (selfRemove : Bool) : List RaftEntry → Except MemberFailure (Member × Bool)
  | [] => .ok (s, selfRemove)
  | e :: es =>
    match e.type with
    | .normal =>
      if e.data = [] then applyEach s selfRemove es
      else do
        let s ← applyNormalEntry r s e
        applyEach s selfRemove es
    | .confChange => do
      let (s, selfRemove) ← applyConfChange m s e
      applyEach s selfRemove es
    | .confChangeV2 => .error (.ready (.unknownEntryType e.type))

/-- `applyEntries`. -/
def applyEntries (s : Member) (es : List RaftEntry) : Except MemberFailure (Member × Bool) := do
  let (s, selfRemove) ← applyEach m r s false es
  .ok ({ s with loop := { s.loop with appliedIndex := lastIndex es } }, selfRemove)

/-- `scheduleSelfRemoval`. -/
def scheduleSelfRemoval (s : Member) : Member := { s with loop := { s.loop with selfRemoved := true } }

/-- What `processReady` does with the entries to apply. -/
def processEntries (s : Member) (es : List RaftEntry) : Except MemberFailure Member :=
  if es = [] then .ok s
  else do
    let (s, selfRemove) ← applyEntries m r s es
    .ok (if selfRemove then s.scheduleSelfRemoval else s)

end Member

section LastChange

variable {e : RaftEntry} {es : List RaftEntry}

/-- An entry that is no configuration change. -/
theorem lastChange_cons_of_ne (h : e.type ≠ .confChange) : lastChange (e :: es) = lastChange es := by
  unfold lastChange
  rw [List.filter_cons_of_neg (by simpa using h)]

/-- A configuration change is the last one if none follows. -/
theorem lastChange_cons_of_eq (h : e.type = .confChange) :
    lastChange (e :: es) = some ((lastChange es).getD e) := by
  unfold lastChange
  rw [List.filter_cons_of_pos (by simpa using h), List.getLast?_cons]

/-- The last configuration change is one of the batch. -/
theorem mem_of_mem_lastChange (h : e ∈ lastChange es) : e ∈ es ∧ e.type = .confChange := by
  have hmem := List.mem_of_getLast? h
  simpa using List.mem_filter.mp hmem

end LastChange

namespace ReadyLoop

variable {r : Responses} {s t : ReadyLoop} {b b' : Bool} {es : List RaftEntry}

/-- The loop of `applyEntries` returns what the last configuration change of the batch returned, and the
value it started with if there is none. It does not touch `selfRemoved`. -/
theorem applyEach_selfRemove (h : s.applyEach r b es = .ok (t, b')) :
    (lastChange es).elim (b' = b) (fun e => r.applyConfChange e = some b') ∧
      t.selfRemoved = s.selfRemoved := by
  induction es generalizing s b with
  | nil =>
    cases h
    exact ⟨rfl, rfl⟩
  | cons e es ih =>
    unfold applyEach at h
    split at h
    next hnormal =>
      rw [lastChange_cons_of_ne (by simp [hnormal])]
      split_ifs at h
      · exact ih h
      · obtain ⟨u, hu, h⟩ := bind_eq_ok h
        have hremoved : u.selfRemoved = s.selfRemoved := by
          unfold applyNormalEntry at hu
          split_ifs at hu
          all_goals
            cases hu
            rfl
        rw [← hremoved]
        exact ih h
    next hconf =>
      split at h
      · cases h
      next removed hchange =>
        obtain ⟨hlast, hremoved⟩ := ih h
        refine ⟨?_, hremoved⟩
        rw [lastChange_cons_of_eq hconf]
        cases hes : lastChange es with
        | none =>
          rw [hes] at hlast
          rw [hlast]
          exact hchange
        | some f =>
          rw [hes] at hlast
          exact hlast
    · cases h

end ReadyLoop

namespace Membership

/-- The answers of a node whose store and storage answer as given, and which decodes the configuration
changes itself. -/
def responses (m : Membership) (r : Responses) : Responses :=
  { r with applyConfChange := fun e => (m.unmarshal e.data).map m.removesSelf }

variable {m : Membership} {r : Responses} {e : RaftEntry} {es : List RaftEntry} {b : Bool}

/-- A configuration change returns true if it removes this node. -/
theorem removes_iff (htype : e.type = .confChange) (h : (m.responses r).applyConfChange e = some b) :
    m.Removes e ↔ b = true := by
  obtain ⟨cc, hcc, rfl⟩ := Option.map_eq_some_iff.mp h
  simp [Removes, htype, hcc]

end Membership

namespace Member

variable {m : Membership} {r : Responses} {s t : Member} {b b' : Bool} {e : RaftEntry} {es : List RaftEntry}

/-- `applyConfChange` leaves the applied index, and returns whether the change removes this node. -/
theorem applyConfChange_ok (h : applyConfChange m s e = .ok (t, b)) :
    t.loop = s.loop ∧ (m.responses r).applyConfChange e = some b := by
  unfold applyConfChange at h
  split at h
  · cases h
  next cc hcc =>
    split at h
    · cases h
    · have hanswer : (m.responses r).applyConfChange e = some (m.removesSelf cc) := by
        simp [Membership.responses, hcc]
      dsimp only at h
      split_ifs at h with hself
      · cases h
        exact ⟨rfl, hanswer.trans (congrArg some hself)⟩
      · cases h
        exact ⟨rfl, hanswer.trans (congrArg some (by simpa using hself))⟩

/-- The loop of `applyEntries` on the applied index is that of `Omashu.Raft.Batches`. -/
theorem readyLoop_applyEach (h : applyEach m r s b es = .ok (t, b')) :
    s.loop.applyEach (m.responses r) b es = .ok (t.loop, b') := by
  induction es generalizing s b with
  | nil =>
    cases h
    rfl
  | cons e es ih =>
    unfold applyEach at h
    unfold ReadyLoop.applyEach
    cases htype : e.type with
    | normal =>
      simp only [htype] at h ⊢
      split_ifs at h ⊢ with hdata
      · exact ih h
      · obtain ⟨u, hu, h⟩ := bind_eq_ok h
        unfold applyNormalEntry at hu
        split at hu
        next loop hloop =>
          cases hu
          have hloop' : s.loop.applyNormalEntry (m.responses r) e = .ok loop := hloop
          rw [hloop']
          exact ih h
        · cases hu
    | confChange =>
      simp only [htype] at h ⊢
      obtain ⟨⟨u, removed⟩, hu, h⟩ := bind_eq_ok h
      obtain ⟨hloop, hanswer⟩ := applyConfChange_ok (r := r) hu
      rw [hanswer, ← hloop]
      exact ih h
    | confChangeV2 =>
      simp only [htype] at h
      cases h

/-- `applyEntries` on the applied index is that of `Omashu.Raft.Batches`. -/
theorem readyLoop_applyEntries (h : applyEntries m r s es = .ok (t, b)) :
    s.loop.applyEntries (m.responses r) es = .ok (t.loop, b) := by
  obtain ⟨⟨u, selfRemove⟩, hu, h⟩ := bind_eq_ok h
  cases h
  unfold ReadyLoop.applyEntries
  rw [readyLoop_applyEach hu]
  rfl

/-- What `applyEntries` returns: whether the last configuration change of the batch removes this node. It
does not touch `selfRemoved`. -/
theorem applyEntries_ok (h : applyEntries m r s es = .ok (t, b)) :
    (b = true ↔ ∃ e ∈ lastChange es, m.Removes e) ∧ t.loop.selfRemoved = s.loop.selfRemoved := by
  obtain ⟨⟨u, selfRemove⟩, hu, h⟩ := bind_eq_ok h
  cases h
  obtain ⟨hlast, hremoved⟩ := ReadyLoop.applyEach_selfRemove (readyLoop_applyEach hu)
  refine ⟨?_, hremoved⟩
  cases hes : lastChange es with
  | none =>
    rw [hes] at hlast
    simpa using hlast
  | some e =>
    rw [hes] at hlast
    simpa using (Membership.removes_iff (mem_of_mem_lastChange hes).2 hlast).symm

/-- `processReady` schedules the removal of this node where `applyEntries` returns true. -/
theorem processEntries_ok (h : processEntries m r s es = .ok t) :
    t.loop.selfRemoved = true ↔ s.loop.selfRemoved = true ∨ ∃ e ∈ lastChange es, m.Removes e := by
  unfold processEntries at h
  split_ifs at h with hnil
  · cases h
    subst hnil
    simp [lastChange]
  · obtain ⟨⟨u, selfRemove⟩, hu, h⟩ := bind_eq_ok h
    obtain ⟨hreturned, hremoved⟩ := applyEntries_ok hu
    cases h
    rw [← hreturned, ← hremoved]
    cases selfRemove with
    | true => simp [scheduleSelfRemoval]
    | false => simp

/-- The result of `applyEntries` is right, and the removal of this node is scheduled when it should be, exactly
for the batches that do not remove this node or whose last configuration change does. -/
theorem selfRemoval_iff (happly : applyEntries m r s es = .ok (t, b)) :
    ((b = true ↔ ∃ e ∈ es, m.Removes e) ↔
        (∀ e ∈ es, ¬m.Removes e) ∨ ∃ e ∈ lastChange es, m.Removes e) ∧
      ∀ u, s.loop.selfRemoved = false → processEntries m r s es = .ok u →
        ((u.loop.selfRemoved = true ↔ ∃ e ∈ es, m.Removes e) ↔
          (∀ e ∈ es, ¬m.Removes e) ∨ ∃ e ∈ lastChange es, m.Removes e) := by
  -- A last change that removes the node is one of the batch that does.
  have hright : ((∃ e ∈ lastChange es, m.Removes e) ↔ ∃ e ∈ es, m.Removes e) ↔
      (∀ e ∈ es, ¬m.Removes e) ∨ ∃ e ∈ lastChange es, m.Removes e := by
    have hmem : (∃ e ∈ lastChange es, m.Removes e) → ∃ e ∈ es, m.Removes e :=
      fun ⟨e, he, hremoves⟩ => ⟨e, (mem_of_mem_lastChange he).1, hremoves⟩
    constructor
    · intro hiff
      by_cases hex : ∃ e ∈ es, m.Removes e
      · exact .inr (hiff.mpr hex)
      · exact .inl fun e he hremoves => hex ⟨e, he, hremoves⟩
    · rintro (hnone | hlast)
      · exact ⟨hmem, fun ⟨e, he, hremoves⟩ => absurd hremoves (hnone e he)⟩
      · exact ⟨hmem, fun _ => hlast⟩
  refine ⟨?_, fun u hfalse hu => ?_⟩
  · rw [(applyEntries_ok happly).1]
    exact hright
  · rw [processEntries_ok hu, hfalse]
    simpa using hright

/-- Node 1. Adding a node makes it a voter. -/
def nodeOne : Membership where
  id := 1
  unmarshal := ConfChange.unmarshal
  applyConfChange conf cc :=
    match cc.type with
    | .removeNode => some { conf with voters := conf.voters.erase cc.nodeID }
    | _ => some { conf with voters := conf.voters.insert cc.nodeID }

/-- Node 1 with the peers 2 and 3, and nothing applied. -/
def threeMembers : Member := ⟨.startAt 0, ⟨[1, 2, 3], []⟩, ⟨[1, 2, 3], []⟩, []⟩

/-- A store and a storage without errors. -/
def noErrors : Responses := ⟨true, true, fun _ => true, fun _ => none⟩

/-- The removal of node 1. -/
def removalOfOne (index : ℕ) : RaftEntry := ⟨index, 1, .confChange, [8, 1, 16, 1, 24, 1]⟩

/-- The addition of node 4. -/
def additionOfFour (index : ℕ) : RaftEntry := ⟨index, 1, .confChange, [8, 2, 16, 0, 24, 4]⟩

/-- The addition of node 4 in the same batch hides the removal of node 1, which goes on. -/
theorem removal_overlooked :
    (applyEntries nodeOne noErrors threeMembers [removalOfOne 1, additionOfFour 2]).map Prod.snd = .ok false ∧
      (processEntries nodeOne noErrors threeMembers [removalOfOne 1, additionOfFour 2]).map
        (fun s => s.loop.selfRemoved) = .ok false ∧
      ∃ e ∈ [removalOfOne 1, additionOfFour 2], nodeOne.Removes e :=
  ⟨rfl, rfl, by decide⟩

/-- The removal of node 1 after the addition of node 4 is noticed. -/
theorem selfRemoval_iff_last :
    (applyEntries nodeOne noErrors threeMembers [additionOfFour 1, removalOfOne 2]).map Prod.snd = .ok true ∧
      ∃ e ∈ [additionOfFour 1, removalOfOne 2], nodeOne.Removes e :=
  ⟨rfl, ((selfRemoval_iff
    (rfl : applyEntries nodeOne noErrors threeMembers [additionOfFour 1, removalOfOne 2] = .ok (_, true))).1.mpr
      (.inr (by decide))).mp rfl⟩

end Member

end Omashu
