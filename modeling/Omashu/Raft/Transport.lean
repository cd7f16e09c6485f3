import Mathlib.Data.List.Sort
import Omashu.Raft.Removal

/-!
# The transport and the members

A node keeps the addresses of its peers twice: in `tr.peers` of `transport.go`, and in the table of rafthttp,
which is the one that messages are sent by. `Start` fills the table from the configured peers. After that only
configuration changes touch the two, by way of `AddPeer`, `RemovePeer` and `UpdatePeer`. rafthttp leaves an
address that it has when a peer is added again, and it does not update a peer that it does not have, while
`tr.peers` takes the new address both times. A message to a peer that is not in the table is dropped: rafthttp
has a second table, of remotes, but it is filled from the URLs that a node announces, and these announce none.

The members are those of Raft's configuration. They come from the entries, and also from snapshots, which do
not touch the transport, and from the storage at a restart. `Network.step` is all of these. `addresses_agree_iff`
says when the two tables agree along a run, as a condition on its actions.

A node on a managed store never has a snapshot. After a restart it begins without members, and applies its log again
from the first entry, with the addresses in it (`ReplayingNode`). `members_reachable_iff` says when every member can be
sent to, as a condition on the log and the configured peers.
-/

namespace Omashu

open Lib

/-! ## The peers of a transport -/

/-- Addresses by node id. -/
abbrev PeerTable := ℕ → Option Bytes

namespace PeerTable

/-- `rafthttp.Transport.AddPeer`. -/
def addPeer (t : PeerTable) (i : ℕ) (addr : Bytes) : PeerTable :=
  if (t i).isSome then t else Function.update t i (some addr)

/-- `rafthttp.Transport.RemovePeer`. -/
def removePeer (t : PeerTable) (i : ℕ) : PeerTable := Function.update t i none

/-- `rafthttp.Transport.UpdatePeer`. -/
def updatePeer (t : PeerTable) (i : ℕ) (addr : Bytes) : PeerTable :=
  if (t i).isSome then Function.update t i (some addr) else t

variable {t : PeerTable} {i j : ℕ} {addr : Bytes}

/-- A peer that is added is there, with the address it had if it was there before. -/
theorem addPeer_self : t.addPeer i addr i = some ((t i).getD addr) := by
  unfold addPeer
  cases h : t i with
  | none => simp
  | some a => simp [h]

/-- The other peers are as before. -/
theorem addPeer_of_ne (h : j ≠ i) : t.addPeer i addr j = t j := by
  unfold addPeer
  split_ifs
  · rfl
  · exact Function.update_of_ne h _ _

/-- A peer that is updated has the address if it was there before. -/
theorem updatePeer_self : t.updatePeer i addr i = (t i).map fun _ => addr := by
  unfold updatePeer
  cases h : t i with
  | none => simp [h]
  | some a => simp

/-- The other peers are as before. -/
theorem updatePeer_of_ne (h : j ≠ i) : t.updatePeer i addr j = t j := by
  unfold updatePeer
  split_ifs
  · exact Function.update_of_ne h _ _
  · rfl

/-- The peers after one was added. -/
@[simp]
theorem isSome_addPeer : (t.addPeer i addr j).isSome ↔ j = i ∨ (t j).isSome := by
  by_cases h : j = i
  · subst h
    simp [addPeer_self]
  · simp [addPeer_of_ne h, h]

/-- The peers after one was removed. -/
@[simp]
theorem isSome_removePeer : (t.removePeer i j).isSome ↔ j ≠ i ∧ (t j).isSome := by
  by_cases h : j = i
  · subst h
    simp [removePeer]
  · simp [removePeer, h]

/-- The peers after one was updated. -/
@[simp]
theorem isSome_updatePeer : (t.updatePeer i addr j).isSome ↔ (t j).isSome := by
  by_cases h : j = i
  · subst h
    simp [updatePeer_self]
  · simp [updatePeer_of_ne h]

end PeerTable

/-- `Transport`, while it is started. -/
structure Transport where
  /-- `tr.id`. -/
  id : ℕ
  /-- `tr.peers`. -/
  peers : PeerTable
  /-- The peers of rafthttp, with the addresses that they are sent to. -/
  raftPeers : PeerTable

namespace Transport

/-- The loop of `Start` over the configured peers but the node itself, in the order that the map is walked. -/
def startPeers (id : ℕ) (peers : List (ℕ × Bytes)) : PeerTable :=
  peers.foldl (fun t p => if p.1 = id then t else t.addPeer p.1 p.2) fun _ => none

/-- `NewTransport` and `Start`. -/
def start (id : ℕ) (peers : List (ℕ × Bytes)) : Transport := ⟨id, fun i => peers.lookup i, startPeers id peers⟩

/-- `AddPeer`, `RemovePeer` and `UpdatePeer`. -/
def perform (tr : Transport) : PeerCall → Transport
  | .addPeer i addr =>
    { tr with raftPeers := tr.raftPeers.addPeer i addr, peers := Function.update tr.peers i (some addr) }
  | .removePeer i => { tr with raftPeers := tr.raftPeers.removePeer i, peers := Function.update tr.peers i none }
  | .updatePeer i addr =>
    { tr with raftPeers := tr.raftPeers.updatePeer i addr, peers := Function.update tr.peers i (some addr) }

/-- `Send`: the address that a message to a node goes to, if it is not dropped. -/
def send (tr : Transport) (i : ℕ) : Option Bytes := if i = 0 then none else tr.raftPeers i

/-- The two tables agree on the other nodes. -/
def Agree (tr : Transport) : Prop := ∀ i, i ≠ tr.id → tr.raftPeers i = tr.peers i

/-- A call keeps the id. -/
@[simp]
theorem perform_id (tr : Transport) (c : PeerCall) : (tr.perform c).id = tr.id := by
  cases c <;> rfl

/-- The table after the loop of `Start`: the configured addresses of the other nodes. -/
theorem startPeers_apply (id : ℕ) (peers : List (ℕ × Bytes)) (i : ℕ) :
    startPeers id peers i = if i = id then none else peers.lookup i := by
  -- The loop leaves what is in the table, and adds what is configured.
  have hloop : ∀ (peers : List (ℕ × Bytes)) (t : PeerTable),
      peers.foldl (fun t p => if p.1 = id then t else t.addPeer p.1 p.2) t i =
        (t i).or (if i = id then none else peers.lookup i) := by
    intro peers
    induction peers with
    | nil => exact fun t => by simp
    | cons p peers ih =>
      intro t
      rw [List.foldl_cons, ih]
      by_cases hp : p.1 = id
      · by_cases hi : i = id
        · simp [hp, hi]
        · have hlookup : (p :: peers).lookup i = peers.lookup i := by
            rw [List.lookup_cons, beq_false_of_ne fun h => hi (h.trans hp)]
          rw [if_pos hp, hlookup]
      · rw [if_neg hp]
        by_cases hi : i = p.1
        · subst hi
          rw [PeerTable.addPeer_self, List.lookup_cons_self, if_neg hp, if_neg hp]
          cases t p.1 <;> rfl
        · have hlookup : (p :: peers).lookup i = peers.lookup i := by
            rw [List.lookup_cons, beq_false_of_ne hi]
          rw [PeerTable.addPeer_of_ne hi, hlookup]
  exact hloop peers _

/-- Where only the addresses of one node may have changed, the tables agree if they do for this node. -/
theorem agree_iff_of_ne {tr tr' : Transport} (h : tr.Agree) (hid : tr'.id = tr.id) {i : ℕ}
    (hraft : ∀ j ≠ i, tr'.raftPeers j = tr.raftPeers j) (hpeers : ∀ j ≠ i, tr'.peers j = tr.peers j) :
    tr'.Agree ↔ i = tr.id ∨ tr'.raftPeers i = tr'.peers i := by
  constructor
  · intro h'
    exact or_iff_not_imp_left.mpr fun hi => h' i (by rwa [hid])
  · intro hi j hj
    rw [hid] at hj
    by_cases hji : j = i
    · subst hji
      exact hi.resolve_left hj
    · rw [hraft j hji, hpeers j hji]
      exact h j hj

/-- A transport that was just started agrees. -/
theorem agree_start (id : ℕ) (peers : List (ℕ × Bytes)) : (start id peers).Agree := by
  intro i hi
  exact (startPeers_apply id peers i).trans (if_neg hi)

end Transport

/-! ## The members -/

namespace ConfState

/-- The nodes of a configuration. -/
def members (conf : ConfState) : List ℕ := conf.voters ++ conf.learners

/-- A sorted list with one more node. -/
def addNode (nodes : List ℕ) (i : ℕ) : List ℕ := if i ∈ nodes then nodes else nodes.orderedInsert (· ≤ ·) i

/-- The list without a node. -/
def removeNode (nodes : List ℕ) (i : ℕ) : List ℕ := nodes.filter (· ≠ i)

/-- What a change does to the members. Node 0 stands for no node. -/
def change (conf : ConfState) (cc : ConfChange) : ConfState :=
  if cc.nodeID = 0 then conf
  else match cc.type with
    | .addNode => ⟨addNode conf.voters cc.nodeID, removeNode conf.learners cc.nodeID⟩
    | .addLearnerNode => ⟨removeNode conf.voters cc.nodeID, addNode conf.learners cc.nodeID⟩
    | .removeNode => ⟨removeNode conf.voters cc.nodeID, removeNode conf.learners cc.nodeID⟩
    | .updateNode => conf

/-- `raft.Node.ApplyConfChange`, which panics where no voter is left. -/
def applyConfChange (conf : ConfState) (cc : ConfChange) : Option ConfState :=
  if (conf.change cc).voters = [] then none else some (conf.change cc)

variable {conf : ConfState} {cc : ConfChange} {i : ℕ}

/-- The nodes after one more. -/
@[simp]
theorem mem_addNode {nodes : List ℕ} {j : ℕ} : j ∈ addNode nodes i ↔ j = i ∨ j ∈ nodes := by
  unfold addNode
  split_ifs with h
  · exact ⟨.inr, fun hj => hj.elim (fun heq => heq ▸ h) id⟩
  · exact List.mem_orderedInsert _

/-- The nodes after one less. -/
@[simp]
theorem mem_removeNode {nodes : List ℕ} {j : ℕ} : j ∈ removeNode nodes i ↔ j ∈ nodes ∧ j ≠ i := by
  simp [removeNode]

/-- The nodes of a configuration are its voters and its learners. -/
@[simp]
theorem mem_members : i ∈ conf.members ↔ i ∈ conf.voters ∨ i ∈ conf.learners := List.mem_append

/-- The change adds a node, as a voter or as a learner. -/
def Adds (cc : ConfChange) : Prop := cc.type = .addNode ∨ cc.type = .addLearnerNode

instance (cc : ConfChange) : Decidable (Adds cc) := inferInstanceAs (Decidable (_ ∨ _))

/-- A member after a change was one before, or is the one that was added. -/
theorem mem_change : i ∈ (conf.change cc).members ↔
    (i ∈ conf.members ∧ ¬(cc.type = .removeNode ∧ cc.nodeID = i ∧ i ≠ 0)) ∨
      (Adds cc ∧ cc.nodeID = i ∧ i ≠ 0) := by
  unfold change Adds
  by_cases h0 : cc.nodeID = 0
  · rw [if_pos h0]
    have hnone : ¬(cc.nodeID = i ∧ i ≠ 0) := by rintro ⟨rfl, h⟩; exact h h0
    tauto
  · rw [if_neg h0]
    by_cases hi : cc.nodeID = i
    · subst hi
      cases cc.type <;> simp [h0]
    · have hi' : i ≠ cc.nodeID := fun h => hi h.symm
      cases cc.type <;> simp [hi, hi']

end ConfState

/-- This node, for which Raft changes the configuration. -/
def raftMembership (id : ℕ) (unmarshal : Bytes → Option ConfChange) : Membership :=
  ⟨id, unmarshal, ConfState.applyConfChange⟩

/-- A node's transport and the configuration in Raft. -/
structure Network where
  transport : Transport
  /-- The configuration. -/
  conf : ConfState

/-- What changes the members or the peers. -/
inductive NetworkAction
  /-- `applyConfChange` of an entry. -/
  | applyConfChange (cc : ConfChange)
  /-- `applySnapshotToFSM`, of a snapshot with this configuration. -/
  | applySnapshot (conf : ConfState)
  /-- A restart with these configured peers, and the configuration in the storage. -/
  | restart (peers : List (ℕ × Bytes)) (conf : ConfState)

namespace Network

/-- The transport after a configuration change. For the removal of this node it is not told. -/
def transportAfter (tr : Transport) (cc : ConfChange) : Transport :=
  if cc.type = .removeNode ∧ cc.nodeID = tr.id then tr else (Member.peerCall cc).elim tr tr.perform

/-- A step. A panic of Raft ends the process. `Start` does not return without an address for this node. -/
def step (s : Network) : NetworkAction → Option Network
  | .applyConfChange cc => (s.conf.applyConfChange cc).map fun conf => ⟨transportAfter s.transport cc, conf⟩
  | .applySnapshot conf => some { s with conf }
  | .restart peers conf =>
    if (peers.map Prod.fst).Nodup ∧ (peers.lookup s.transport.id).isSome then
      some ⟨.start s.transport.id peers, conf⟩
    else none

variable {s t : Network} {a : NetworkAction} {tr : Transport} {cc : ConfChange}

/-- A configuration change keeps the id. -/
theorem transportAfter_id (tr : Transport) (cc : ConfChange) : (transportAfter tr cc).id = tr.id := by
  unfold transportAfter
  split_ifs
  · rfl
  · cases Member.peerCall cc with
    | none => rfl
    | some c => exact tr.perform_id c

/-- What a step can do. -/
theorem step_cases (h : step s a = some t) :
    (∃ cc, a = .applyConfChange cc ∧ t = ⟨transportAfter s.transport cc, s.conf.change cc⟩) ∨
    (∃ conf, a = .applySnapshot conf ∧ t = { s with conf }) ∨
    ∃ peers conf, a = .restart peers conf ∧ t = ⟨.start s.transport.id peers, conf⟩ := by
  cases a with
  | applyConfChange cc =>
    obtain ⟨conf, hconf, rfl⟩ := Option.map_eq_some_iff.mp h
    unfold ConfState.applyConfChange at hconf
    split_ifs at hconf
    obtain rfl := Option.some.inj hconf
    exact .inl ⟨cc, rfl, rfl⟩
  | applySnapshot conf => exact .inr (.inl ⟨conf, rfl, (Option.some.inj h).symm⟩)
  | restart peers conf =>
    rw [step] at h
    split_ifs at h
    exact .inr (.inr ⟨peers, conf, rfl, (Option.some.inj h).symm⟩)

/-! ## When the tables agree -/

/-- A call that the two tables take alike: a peer that is there is added with the address it has, and only a peer
that is there is updated. -/
def Consistent (tr : Transport) : PeerCall → Prop
  | .addPeer i addr => i = tr.id ∨ tr.raftPeers i = none ∨ tr.raftPeers i = some addr
  | .removePeer _ => True
  | .updatePeer i _ => i = tr.id ∨ (tr.raftPeers i).isSome

instance (tr : Transport) : (c : PeerCall) → Decidable (Consistent tr c)
  | .addPeer _ _ => inferInstanceAs (Decidable (_ ∨ _))
  | .removePeer _ => inferInstanceAs (Decidable True)
  | .updatePeer _ _ => inferInstanceAs (Decidable (_ ∨ _))

/-- A call keeps the tables alike exactly if it is such. -/
theorem agree_perform_iff (h : tr.Agree) (c : PeerCall) : (tr.perform c).Agree ↔ Consistent tr c := by
  have hne : ∀ (i : ℕ) (addr : Option Bytes), ∀ j ≠ i, Function.update tr.peers i addr j = tr.peers j :=
    fun i addr j hj => Function.update_of_ne hj _ _
  cases c with
  | addPeer i addr =>
    rw [Transport.agree_iff_of_ne h (tr.perform_id (.addPeer i addr)) (fun j hj => PeerTable.addPeer_of_ne hj)
      (hne i (some addr))]
    show _ ∨ tr.raftPeers.addPeer i addr i = Function.update tr.peers i (some addr) i ↔ _
    rw [PeerTable.addPeer_self, Function.update_self, Consistent]
    cases tr.raftPeers i <;> simp
  | removePeer i =>
    rw [Transport.agree_iff_of_ne h (tr.perform_id (.removePeer i)) (fun j hj => Function.update_of_ne hj _ _)
      (hne i none)]
    refine iff_of_true (.inr ?_) trivial
    show Function.update tr.raftPeers i none i = Function.update tr.peers i none i
    rw [Function.update_self, Function.update_self]
  | updatePeer i addr =>
    rw [Transport.agree_iff_of_ne h (tr.perform_id (.updatePeer i addr)) (fun j hj => PeerTable.updatePeer_of_ne hj)
      (hne i (some addr))]
    show _ ∨ tr.raftPeers.updatePeer i addr i = Function.update tr.peers i (some addr) i ↔ _
    rw [PeerTable.updatePeer_self, Function.update_self, Consistent]
    cases tr.raftPeers i <;> simp

/-- The calls of an action are taken alike by the two tables. Snapshots and restarts make none. -/
def TakenAlike (s : Network) : NetworkAction → Prop
  | .applyConfChange cc =>
    cc.type = .removeNode ∨ ∀ c ∈ Member.peerCall cc, Consistent s.transport c
  | _ => True

instance (s : Network) : (a : NetworkAction) → Decidable (TakenAlike s a)
  | .applyConfChange _ => inferInstanceAs (Decidable (_ ∨ _))
  | .applySnapshot _ | .restart _ _ => inferInstanceAs (Decidable True)

/-- A configuration change keeps the tables alike exactly if its call is such. -/
theorem agree_transportAfter_iff (h : tr.Agree) (cc : ConfChange) :
    (transportAfter tr cc).Agree ↔ cc.type = .removeNode ∨ ∀ c ∈ Member.peerCall cc, Consistent tr c := by
  unfold transportAfter
  split_ifs with hself
  · exact iff_of_true h (.inl hself.1)
  · cases hcall : Member.peerCall cc with
    | none => exact iff_of_true h (.inr (by simp))
    | some c =>
      rw [Option.elim_some, agree_perform_iff h c]
      constructor
      · intro hc
        exact .inr (by simpa using hc)
      · rintro (hremove | hc)
        · obtain rfl : PeerCall.removePeer cc.nodeID = c := by simpa [Member.peerCall, hremove] using hcall
          trivial
        · exact hc c rfl

/-- The two tables agree in every state of a run exactly if every call along it is taken alike by both: no peer
that is there is added with another address, and no peer that is not there is updated. -/
theorem addresses_agree_iff {as : List NetworkAction} (hs : s.transport.Agree) (h : run step s as = some t) :
    (∀ u, Passes step s as u → u.transport.Agree) ↔ Along step TakenAlike s as := by
  refine forall_passes_iff_along_of_iff (fun s a t hs hstep => ?_) hs h
  obtain ⟨cc, rfl, rfl⟩ | ⟨conf, rfl, rfl⟩ | ⟨peers, conf, rfl, rfl⟩ := step_cases hstep
  · exact agree_transportAfter_iff hs cc
  · exact iff_of_true hs trivial
  · exact iff_of_true (Transport.agree_start _ peers) trivial

/-- Node 1 of two, whose addresses are single bytes. -/
def ofTwo : Network := ⟨.start 1 [(1, [11]), (2, [12])], ⟨[1, 2], []⟩⟩

/-- A third node is added and its address is updated. Adding it once more with another address leaves the tables
with different ones. -/
theorem addresses_agree_iff_third :
    (∀ u, Passes step ofTwo [.applyConfChange ⟨.addNode, 3, [13]⟩, .applyConfChange ⟨.updateNode, 3, [14]⟩] u →
        u.transport.Agree) ∧
      ¬∀ u, Passes step ofTwo [.applyConfChange ⟨.addNode, 3, [13]⟩, .applyConfChange ⟨.addNode, 3, [14]⟩] u →
        u.transport.Agree := by
  have hagree : ofTwo.transport.Agree := Transport.agree_start 1 [(1, [11]), (2, [12])]
  constructor
  · rw [addresses_agree_iff hagree (run_final (by decide))]
    decide
  · rw [addresses_agree_iff hagree (run_final (by decide))]
    decide

/-! ## When the members can be sent to -/

/-- Every other member can be sent to. -/
def Reachable (s : Network) : Prop := ∀ i ∈ s.conf.members, i ≠ s.transport.id → (s.transport.send i).isSome

instance (s : Network) : Decidable s.Reachable := inferInstanceAs (Decidable (∀ i ∈ s.conf.members, _))

/-- What a configuration change does to the table of rafthttp. -/
theorem raftPeers_transportAfter (tr : Transport) (cc : ConfChange) :
    (transportAfter tr cc).raftPeers = match cc.type with
      | .addNode | .addLearnerNode =>
        if cc.context = [] then tr.raftPeers else tr.raftPeers.addPeer cc.nodeID cc.context
      | .removeNode => if cc.nodeID = tr.id then tr.raftPeers else tr.raftPeers.removePeer cc.nodeID
      | .updateNode => if cc.context = [] then tr.raftPeers else tr.raftPeers.updatePeer cc.nodeID cc.context := by
  unfold transportAfter Member.peerCall
  cases htype : cc.type with
  | removeNode => by_cases hid : cc.nodeID = tr.id <;> simp [hid, Transport.perform]
  | _ => by_cases hcontext : cc.context = [] <;> simp [hcontext, Transport.perform]

/-- The peers of rafthttp after a configuration change. -/
theorem isSome_raftPeers_transportAfter (tr : Transport) (cc : ConfChange) (i : ℕ) :
    ((transportAfter tr cc).raftPeers i).isSome ↔
      ((tr.raftPeers i).isSome ∧ ¬(cc.type = .removeNode ∧ cc.nodeID = i ∧ i ≠ tr.id)) ∨
        (ConfState.Adds cc ∧ cc.context ≠ [] ∧ cc.nodeID = i) := by
  rw [raftPeers_transportAfter]
  unfold ConfState.Adds
  cases cc.type with
  | removeNode =>
    by_cases hid : cc.nodeID = tr.id
    · rw [if_pos hid]
      grind
    · rw [if_neg hid, PeerTable.isSome_removePeer]
      grind
  | updateNode =>
    dsimp only
    split_ifs <;> simp
  | _ =>
    dsimp only
    split_ifs with hcontext
    · simp [hcontext]
    · rw [PeerTable.isSome_addPeer]
      grind

/-- A message is sent to the peers of rafthttp. -/
theorem isSome_send {i : ℕ} : (tr.send i).isSome ↔ i ≠ 0 ∧ (tr.raftPeers i).isSome := by
  unfold Transport.send
  split_ifs with h <;> simp [h]

/-- After a configuration change every member can be sent to exactly if the node that it adds, if any, comes with its
address or could be sent to before. -/
theorem reachable_applyConfChange_iff (hs : s.Reachable) :
    Reachable ⟨transportAfter s.transport cc, s.conf.change cc⟩ ↔
      (ConfState.Adds cc → cc.nodeID ≠ s.transport.id → cc.nodeID ≠ 0 →
        cc.context ≠ [] ∨ (s.transport.raftPeers cc.nodeID).isSome) := by
  have hid := transportAfter_id s.transport cc
  constructor
  · intro h hadds hother hzero
    have hmember : cc.nodeID ∈ (s.conf.change cc).members := ConfState.mem_change.mpr (.inr ⟨hadds, rfl, hzero⟩)
    have hsent := (isSome_send.mp (h cc.nodeID hmember (by rwa [hid]))).2
    rcases (isSome_raftPeers_transportAfter _ cc _).mp hsent with ⟨hknown, -⟩ | ⟨-, hcontext, -⟩
    · exact .inr hknown
    · exact .inl hcontext
  · intro h i hi hother
    rw [hid] at hother
    show ((transportAfter s.transport cc).send i).isSome
    rw [isSome_send, isSome_raftPeers_transportAfter]
    rcases ConfState.mem_change.mp hi with ⟨hmember, hkept⟩ | ⟨hadds, rfl, hzero⟩
    · -- A member from before can be sent to, and was not removed.
      obtain ⟨hzero, hknown⟩ := isSome_send.mp (hs i hmember hother)
      exact ⟨hzero, .inl ⟨hknown, fun hremoved => hkept ⟨hremoved.1, hremoved.2.1, hzero⟩⟩⟩
    · refine ⟨hzero, ?_⟩
      rcases h hadds hother hzero with hcontext | hknown
      · exact .inr ⟨hadds, hcontext, rfl⟩
      · refine .inl ⟨hknown, fun hremoved => ?_⟩
        rcases hadds with hadd | hadd <;> rw [hadd] at hremoved <;> cases hremoved.1

end Network

/-- A node and the configuration changes of its log. It has no snapshot, as none is ever stored on a managed store. -/
structure ReplayingNode where
  /-- The transport and the configuration. -/
  network : Network
  /-- The peers that it was last started with. -/
  configured : List (ℕ × Bytes)
  /-- The committed configuration changes. -/
  log : List ConfChange
  /-- How many of them are applied since then. -/
  applied : ℕ

/-- A step of such a node. -/
inductive ReplayAction
  /-- A change is committed. -/
  | commit (cc : ConfChange)
  /-- `applyConfChange` of the next change, for the first time or again. -/
  | apply
  /-- A restart with these configured peers. -/
  | restart (peers : List (ℕ × Bytes))

namespace ReplayingNode

/-- A step. After a restart Raft begins without members, and the log is applied again from its first entry. -/
def step (s : ReplayingNode) : ReplayAction → Option ReplayingNode
  | .commit cc => some { s with log := s.log ++ [cc] }
  | .apply => (s.log[s.applied]?).bind fun cc =>
    (s.network.step (.applyConfChange cc)).map fun network => { s with network, applied := s.applied + 1 }
  | .restart peers => (s.network.step (.restart peers ⟨[], []⟩)).map fun network =>
    { s with network, configured := peers, applied := 0 }

/-- A change that has been applied since the start removes the node. -/
def Removed (s : ReplayingNode) (i : ℕ) : Prop :=
  ∃ cc ∈ s.log.take s.applied, cc.type = .removeNode ∧ cc.nodeID = i

instance (s : ReplayingNode) (i : ℕ) : Decidable (s.Removed i) := inferInstanceAs (Decidable (∃ cc ∈ _, _))

/-- A change that makes another node a member has its address, or the node was configured at the start and has not been
removed since. -/
def Introduces (s : ReplayingNode) (cc : ConfChange) : Prop :=
  ConfState.Adds cc → cc.nodeID ∉ s.network.conf.members → cc.nodeID ≠ s.network.transport.id → cc.nodeID ≠ 0 →
    cc.context ≠ [] ∨ (s.configured.lookup cc.nodeID).isSome ∧ ¬s.Removed cc.nodeID

instance (s : ReplayingNode) (cc : ConfChange) : Decidable (s.Introduces cc) :=
  inferInstanceAs (Decidable (ConfState.Adds cc → _ → _ → _ → _ ∨ _))

/-- The next change, if it is applied, introduces the node that it adds. -/
def Introduced (s : ReplayingNode) : ReplayAction → Prop
  | .apply => ∀ cc ∈ s.log[s.applied]?, s.Introduces cc
  | _ => True

instance (s : ReplayingNode) : (a : ReplayAction) → Decidable (s.Introduced a)
  | .apply => inferInstanceAs (Decidable (∀ cc ∈ s.log[s.applied]?, s.Introduces cc))
  | .commit _ | .restart _ => inferInstanceAs (Decidable True)

/-- A node that has just been started: for the first time, with the configured peers as its members, or again, without
members. -/
structure Started (s : ReplayingNode) : Prop where
  /-- Its transport knows the configured peers. -/
  transport : s.network.transport = .start s.network.transport.id s.configured
  /-- The members can be sent to. -/
  reachable : s.network.Reachable
  /-- Nothing has been applied. -/
  applied : s.applied = 0

/-- Which peers rafthttp has: those that were configured and not removed since, and perhaps members. -/
structure Knows (s : ReplayingNode) : Prop where
  /-- What is applied is in the log. -/
  applied : s.applied ≤ s.log.length
  /-- It has those that were configured. -/
  configured : ∀ i, i ≠ s.network.transport.id → (s.configured.lookup i).isSome → ¬s.Removed i →
    (s.network.transport.raftPeers i).isSome
  /-- It has no others but members. -/
  others : ∀ i, i ≠ s.network.transport.id → i ≠ 0 → (s.network.transport.raftPeers i).isSome →
    i ∈ s.network.conf.members ∨ (s.configured.lookup i).isSome ∧ ¬s.Removed i

variable {s t : ReplayingNode} {a : ReplayAction}

/-- What a step can do. -/
theorem step_cases (h : s.step a = some t) :
    (∃ cc, a = .commit cc ∧ t = { s with log := s.log ++ [cc] }) ∨
    (∃ cc, a = .apply ∧ s.log[s.applied]? = some cc ∧
      t = { s with network := ⟨Network.transportAfter s.network.transport cc, s.network.conf.change cc⟩
                   applied := s.applied + 1 }) ∨
    ∃ peers, a = .restart peers ∧
      t = { s with network := ⟨.start s.network.transport.id peers, ⟨[], []⟩⟩, configured := peers, applied := 0 } := by
  cases a with
  | commit cc => exact .inl ⟨cc, rfl, (Option.some.inj h).symm⟩
  | apply =>
    obtain ⟨cc, hcc, h⟩ := Option.bind_eq_some_iff.mp h
    obtain ⟨network, hnetwork, rfl⟩ := Option.map_eq_some_iff.mp h
    obtain ⟨cc', ha, rfl⟩ | ⟨conf, ha, -⟩ | ⟨peers, conf, ha, -⟩ := Network.step_cases hnetwork
    · cases ha
      exact .inr (.inl ⟨cc, rfl, hcc, rfl⟩)
    · cases ha
    · cases ha
  | restart peers =>
    obtain ⟨network, hnetwork, rfl⟩ := Option.map_eq_some_iff.mp h
    obtain ⟨cc', ha, -⟩ | ⟨conf, ha, -⟩ | ⟨peers', conf, ha, rfl⟩ := Network.step_cases hnetwork
    · cases ha
    · cases ha
    · cases ha
      exact .inr (.inr ⟨peers, rfl, rfl⟩)

/-- What rafthttp has at a start. -/
theorem knows_of_start (htransport : s.network.transport = .start s.network.transport.id s.configured)
    (happlied : s.applied = 0) : s.Knows := by
  have hnone : ∀ i, ¬s.Removed i := by
    rintro i ⟨cc, hcc, -⟩
    rw [happlied] at hcc
    exact List.not_mem_nil hcc
  have htable : ∀ i, i ≠ s.network.transport.id → s.network.transport.raftPeers i = s.configured.lookup i := by
    intro i hi
    rw [htransport]
    exact (Transport.startPeers_apply _ _ i).trans (if_neg hi)
  refine ⟨by omega, ?_, ?_⟩
  · intro i hi hconfigured _
    rwa [htable i hi]
  · intro i hi _ hknown
    rw [htable i hi] at hknown
    exact .inr ⟨hknown, hnone i⟩

/-- One more change that is applied. -/
theorem removed_apply_iff {cc : ConfChange} {i : ℕ} (hcc : s.log[s.applied]? = some cc) (network : Network) :
    ({ s with network, applied := s.applied + 1 } : ReplayingNode).Removed i ↔
      s.Removed i ∨ cc.type = .removeNode ∧ cc.nodeID = i := by
  unfold Removed
  rw [List.take_add_one, hcc]
  simp only [Option.toList_some, List.mem_append, List.mem_singleton, or_and_right, exists_or, exists_eq_left]

/-- A step keeps what is known of the peers. -/
theorem Knows.step (h : s.Knows) (ht : s.step a = some t) : t.Knows := by
  obtain ⟨cc, rfl, rfl⟩ | ⟨cc, rfl, hcc, rfl⟩ | ⟨peers, rfl, rfl⟩ := step_cases ht
  · have hremoved : ∀ i, ({ s with log := s.log ++ [cc] } : ReplayingNode).Removed i ↔ s.Removed i := by
      intro i
      unfold Removed
      rw [List.take_append_of_le_length h.applied]
    refine ⟨by simpa using Nat.le_succ_of_le h.applied, ?_, ?_⟩
    · intro i hi hconfigured hkept
      exact h.configured i hi hconfigured (mt (hremoved i).mpr hkept)
    · intro i hi hzero hknown
      exact (h.others i hi hzero hknown).imp_right fun ⟨hconfigured, hkept⟩ =>
        ⟨hconfigured, mt (hremoved i).mp hkept⟩
  · have hid := Network.transportAfter_id s.network.transport cc
    refine ⟨(List.getElem?_eq_some_iff.mp hcc).1, ?_, ?_⟩
    · intro i hi hconfigured hkept
      rw [removed_apply_iff hcc, not_or] at hkept
      refine (Network.isSome_raftPeers_transportAfter _ cc i).mpr (.inl ⟨?_, fun hremoves => ?_⟩)
      · exact h.configured i (by rwa [← hid]) hconfigured hkept.1
      · exact hkept.2 ⟨hremoves.1, hremoves.2.1⟩
    · intro i hi hzero hknown
      have hother : i ≠ s.network.transport.id := by rwa [← hid]
      rw [removed_apply_iff hcc, not_or]
      rcases (Network.isSome_raftPeers_transportAfter _ cc i).mp hknown with ⟨hknown, hremains⟩ | ⟨hadds, -, rfl⟩
      · rcases h.others i hother hzero hknown with hmember | ⟨hconfigured, hkept⟩
        · refine .inl (ConfState.mem_change.mpr (.inl ⟨hmember, fun hremoves => ?_⟩))
          exact hremains ⟨hremoves.1, hremoves.2.1, hother⟩
        · exact .inr ⟨hconfigured, hkept, fun hremoves => hremains ⟨hremoves.1, hremoves.2, hother⟩⟩
      · exact .inl (ConfState.mem_change.mpr (.inr ⟨hadds, rfl, hzero⟩))
  · exact knows_of_start rfl rfl

/-- With what is known of the peers, every member can be sent to after a step exactly if the step introduces the node
that it adds. -/
theorem reachable_step_iff (h : s.Knows) (hs : s.network.Reachable) (ht : s.step a = some t) :
    t.network.Reachable ↔ s.Introduced a := by
  obtain ⟨cc, rfl, rfl⟩ | ⟨cc, rfl, hcc, rfl⟩ | ⟨peers, rfl, rfl⟩ := step_cases ht
  · exact iff_of_true hs trivial
  · have hintroduced : s.Introduced .apply ↔ s.Introduces cc := by
      unfold Introduced
      rw [hcc]
      simp
    rw [hintroduced]
    show Network.Reachable ⟨_, _⟩ ↔ _
    rw [Network.reachable_applyConfChange_iff hs]
    constructor
    · intro hknown hadds hnew hother hzero
      refine (hknown hadds hother hzero).imp_right fun hpeer => ?_
      exact (h.others _ hother hzero hpeer).resolve_left hnew
    · intro hintroduces hadds hother hzero
      by_cases hmember : cc.nodeID ∈ s.network.conf.members
      · exact .inr (Network.isSome_send.mp (hs _ hmember hother)).2
      · exact (hintroduces hadds hmember hother hzero).imp_right fun ⟨hconfigured, hkept⟩ =>
          h.configured _ hother hconfigured hkept
  · exact iff_of_true (fun i hi => absurd hi List.not_mem_nil) trivial

/-- A node without snapshots, along every run of committed configuration changes, their application and restarts, after
which the log is applied again: every member can be sent to in every state exactly if each change that makes a node a
member has its address, or the node was configured at the last start and no change applied since has removed it. -/
theorem members_reachable_iff {as : List ReplayAction} (hs : s.Started) (h : run step s as = some t) :
    (∀ u, Passes step s as u → u.network.Reachable) ↔ Along step Introduced s as := by
  have hiff := forall_passes_iff_along (I := fun u : ReplayingNode => u.Knows ∧ u.network.Reachable)
    (B := fun u : ReplayingNode => ¬u.network.Reachable) (C := Introduced)
    (fun s a t hI hc ht => ⟨hI.1.step ht, (reachable_step_iff hI.1 hI.2 ht).mpr hc⟩)
    (fun s a t hI hc ht => mt (reachable_step_iff hI.1 hI.2 ht).mp hc) (fun s hI => not_not_intro hI.2)
    ⟨knows_of_start hs.transport hs.applied, hs.reachable⟩ h
  simpa only [not_not] using hiff

/-- Node 1 of two at its first start. -/
def ofTwo : ReplayingNode := ⟨Network.ofTwo, [(1, [11]), (2, [12])], [⟨.addNode, 1, []⟩, ⟨.addNode, 2, []⟩], 0⟩

/-- A third node is added with its address. -/
def addThird : List ReplayAction := [.apply, .apply, .commit ⟨.addNode, 3, [13]⟩, .apply]

/-- After a restart with the peers that were configured at first, the third node is found again in the log. Where the
second one is not configured any more it is a member that cannot be sent to. -/
theorem members_reachable_iff_restart :
    (∀ u, Passes step ofTwo (addThird ++ [.restart [(1, [11]), (2, [12])], .apply, .apply, .apply]) u →
        u.network.Reachable) ∧
      ¬∀ u, Passes step ofTwo (addThird ++ [.restart [(1, [11])], .apply, .apply, .apply]) u →
        u.network.Reachable := by
  have hstarted : ofTwo.Started := ⟨rfl, by decide, rfl⟩
  constructor
  · rw [members_reachable_iff hstarted (run_final (by decide))]
    decide
  · rw [members_reachable_iff hstarted (run_final (by decide))]
    decide

end ReplayingNode

namespace Network

variable {s t : Network} {a : NetworkAction} {tr : Transport} {cc : ConfChange}

/-! ## The changes of a batch -/

/-- The network of a node whose transport was started as given. -/
def ofMember (tr : Transport) (s : Member) : Network := ⟨s.peerCalls.foldl Transport.perform tr, s.raftConf⟩

/-- The configuration changes of a batch of entries. -/
def changes (unmarshal : Bytes → Option ConfChange) (es : List RaftEntry) : List ConfChange :=
  (es.filter fun e => e.type = .confChange).filterMap fun e => unmarshal e.data

/-- Calls keep the id. -/
theorem foldl_perform_id (tr : Transport) (calls : List PeerCall) : (calls.foldl Transport.perform tr).id = tr.id := by
  induction calls generalizing tr with
  | nil => rfl
  | cons c calls ih => rw [List.foldl_cons, ih, tr.perform_id]

/-- A configuration change that `applyConfChange` applies is a step. -/
theorem step_of_applyConfChange {unmarshal : Bytes → Option ConfChange} {tr : Transport} {s t : Member} {b : Bool}
    {e : RaftEntry} (h : Member.applyConfChange (raftMembership tr.id unmarshal) s e = .ok (t, b)) :
    ∃ cc ∈ unmarshal e.data, step (ofMember tr s) (.applyConfChange cc) = some (ofMember tr t) := by
  have hid := foldl_perform_id tr s.peerCalls
  unfold Member.applyConfChange at h
  split at h
  · cases h
  next cc hcc =>
    refine ⟨cc, hcc, ?_⟩
    split at h
    · cases h
    next conf hconf =>
      have hconf' : s.raftConf.applyConfChange cc = some conf := hconf
      have hself : (raftMembership tr.id unmarshal).removesSelf cc = true ↔
          cc.type = .removeNode ∧ cc.nodeID = (s.peerCalls.foldl Transport.perform tr).id := by
        rw [hid]
        exact decide_eq_true_iff
      dsimp only at h
      split_ifs at h with hremoves
      · cases h
        rw [step, ofMember, hconf', Option.map_some, transportAfter, if_pos (hself.mp hremoves)]
        rfl
      · cases h
        rw [step, ofMember, hconf', Option.map_some, transportAfter, if_neg (mt hself.mpr hremoves), ofMember,
          List.foldl_append]
        cases Member.peerCall cc <;> rfl

/-- A batch of entries that `applyEntries` applies is a run with the changes of the batch. -/
theorem run_applyEach {unmarshal : Bytes → Option ConfChange} {r : Responses} {tr : Transport} {s t : Member}
    {b b' : Bool} {es : List RaftEntry}
    (h : Member.applyEach (raftMembership tr.id unmarshal) r s b es = .ok (t, b')) :
    run step (ofMember tr s) ((changes unmarshal es).map .applyConfChange) = some (ofMember tr t) := by
  induction es generalizing s b with
  | nil =>
    cases h
    rfl
  | cons e es ih =>
    unfold Member.applyEach at h
    cases htype : e.type with
    | normal =>
      have hskip : changes unmarshal (e :: es) = changes unmarshal es := by simp [changes, htype]
      simp only [htype] at h
      rw [hskip]
      split_ifs at h
      · exact ih h
      · -- A normal entry is handed to the store, which leaves the members and the peers.
        obtain ⟨u, hu, h⟩ := bind_eq_ok h
        unfold Member.applyNormalEntry at hu
        split at hu
        · cases hu
          have hrest := ih h
          exact hrest
        · cases hu
    | confChange =>
      simp only [htype] at h
      obtain ⟨⟨u, removed⟩, hu, h⟩ := bind_eq_ok h
      obtain ⟨cc, hcc, hstep⟩ := step_of_applyConfChange hu
      have hfirst : changes unmarshal (e :: es) = cc :: changes unmarshal es := by
        simp [changes, htype, Option.mem_def.mp hcc]
      rw [hfirst, List.map_cons, run, hstep]
      exact ih h
    | confChangeV2 =>
      simp only [htype] at h
      cases h

end Network

end Omashu
