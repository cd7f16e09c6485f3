import Omashu.Lib.Overlay
import Omashu.Raft.Transport

/-!
# The configuration in a snapshot that is sent

A leader sends a follower that is far behind its last snapshot, which is of an index that the log has passed since.
`getMessagesToPublish` replaces the configuration in the message by the current one. The follower restores Raft
and `confState` from the message and goes on with the entries after the index of the snapshot. So it applies the
configuration changes between the two indices over a configuration that has them already.

A change gives one node a role, whatever the configuration is (`role_change`), so the configuration of the
follower is a function that is written to, and the last change of a node counts. When it has caught up with what
the leader had applied, it has the configuration of the leader. In between it may have another one than the leader
had at the index: `patched_snapshot_role_iff` says for which nodes. Without the replacement it would have that of
the leader at every index.
-/

namespace Omashu

open Lib

/-! ## Roles -/

/-- What a node is in a configuration. -/
inductive NodeRole
  /-- It votes. -/
  | voter
  /-- It is a member without a vote. -/
  | learner
  /-- It is no member. -/
  | outsider
  deriving DecidableEq

/-- The role of a node. -/
def ConfState.role (conf : ConfState) (i : ℕ) : NodeRole :=
  if i ∈ conf.voters then .voter else if i ∈ conf.learners then .learner else .outsider

/-- The node whose role a change sets, and the role. -/
def ConfChange.write (cc : ConfChange) : Option (ℕ × NodeRole) :=
  if cc.nodeID = 0 then none
  else match cc.type with
    | .addNode => some (cc.nodeID, .voter)
    | .addLearnerNode => some (cc.nodeID, .learner)
    | .removeNode => some (cc.nodeID, .outsider)
    | .updateNode => none

/-- The change sets the role of the node. -/
def ConfChange.Concerns (cc : ConfChange) (i : ℕ) : Prop := ∃ w ∈ cc.write, w.1 = i

instance (cc : ConfChange) (i : ℕ) : Decidable (cc.Concerns i) :=
  inferInstanceAs (Decidable (∃ w ∈ cc.write, w.1 = i))

/-- A change writes the role of its node. -/
theorem ConfState.role_change (conf : ConfState) (cc : ConfChange) :
    (conf.change cc).role = overlay cc.write.toList conf.role := by
  funext i
  unfold change ConfChange.write
  by_cases h0 : cc.nodeID = 0
  · simp [h0, overlay]
  · by_cases hi : i = cc.nodeID
    · subst hi
      cases cc.type <;> simp [h0, overlay, role]
    · cases cc.type <;> simp [h0, overlay, role, hi]

namespace ConfState

/-- The configuration after some changes, if Raft does not panic. -/
def replay (conf : ConfState) (ccs : List ConfChange) : Option ConfState := ccs.foldlM applyConfChange conf

/-- The roles after some changes. -/
theorem role_replay {ccs : List ConfChange} : ∀ {conf conf' : ConfState}, conf.replay ccs = some conf' →
    conf'.role = overlay (ccs.filterMap ConfChange.write) conf.role := by
  induction ccs with
  | nil =>
    intro conf conf' h
    obtain rfl := Option.some.inj h
    rfl
  | cons cc ccs ih =>
    intro conf conf' h
    obtain ⟨conf₁, hconf₁, h⟩ := Option.bind_eq_some_iff.mp h
    unfold applyConfChange at hconf₁
    split_ifs at hconf₁
    obtain rfl := Option.some.inj hconf₁
    rw [ih h, role_change]
    cases hwrite : cc.write with
    | none =>
      rw [List.filterMap_cons_none hwrite]
      rfl
    | some w =>
      rw [List.filterMap_cons_some hwrite]
      rfl

/-- A node that is concerned by one of the changes is written. -/
theorem exists_mem_writes_iff {ccs : List ConfChange} {i : ℕ} :
    (∃ w ∈ ccs.filterMap ConfChange.write, w.1 = i) ↔ ∃ cc ∈ ccs, cc.Concerns i := by
  simp only [List.mem_filterMap, ConfChange.Concerns, Option.mem_def]
  constructor
  · rintro ⟨w, ⟨cc, hcc, hw⟩, rfl⟩
    exact ⟨cc, hcc, w, hw, rfl⟩
  · rintro ⟨cc, hcc, w, hw, rfl⟩
    exact ⟨w, ⟨cc, hcc, hw⟩, rfl⟩

end ConfState

/-! ## Messages -/

/-- `raftpb.MessageType`, as far as it matters here. -/
inductive MessageType
  /-- `MsgSnap`. -/
  | snap
  /-- Any other. -/
  | other
  deriving DecidableEq

/-- `raftpb.Message`, as far as it matters here. -/
structure RaftMessage where
  /-- What it is. -/
  type : MessageType
  /-- The node it goes to. -/
  dest : ℕ
  /-- The index and the configuration of the snapshot in it. -/
  snapshot : Option (ℕ × ConfState)
  deriving DecidableEq

/-- `getMessagesToPublish`. -/
def getMessagesToPublish (confState : ConfState) (msgs : List RaftMessage) : List RaftMessage :=
  msgs.map fun msg =>
    if msg.type = .snap then { msg with snapshot := msg.snapshot.map fun s => (s.1, confState) } else msg

/-- A snapshot that is published has the current configuration. -/
theorem confState_of_mem_publish {confState conf : ConfState} {msgs : List RaftMessage} {m : RaftMessage}
    {index : ℕ} (hm : m ∈ getMessagesToPublish confState msgs) (htype : m.type = .snap)
    (hsnapshot : m.snapshot = some (index, conf)) : conf = confState := by
  obtain ⟨msg, -, rfl⟩ := List.mem_map.mp hm
  split_ifs at htype hsnapshot with hsnap
  · obtain ⟨s, -, heq⟩ := Option.map_eq_some_iff.mp hsnapshot
    exact (congrArg Prod.snd heq).symm
  · exact absurd htype hsnap

/-! ## The follower -/

namespace Member

variable {unmarshal : Bytes → Option ConfChange} {id : ℕ} {r : Responses} {s t : Member} {b b' : Bool}
  {es : List RaftEntry}

/-- The configuration in Raft after a batch is that after its changes. -/
theorem replay_applyEach (h : applyEach (raftMembership id unmarshal) r s b es = .ok (t, b')) :
    s.raftConf.replay (Network.changes unmarshal es) = some t.raftConf := by
  let tr : Transport := ⟨id, fun _ => none, fun _ => none⟩
  have hrun : run Network.step (Network.ofMember tr s) _ = some (Network.ofMember _ t) := Network.run_applyEach h
  -- The transport does not matter.
  have hconf : ∀ (ccs : List ConfChange) {u v : Network},
      run Network.step u (ccs.map .applyConfChange) = some v → u.conf.replay ccs = some v.conf := by
    intro ccs
    induction ccs with
    | nil =>
      intro u v h
      obtain rfl := Option.some.inj h
      rfl
    | cons cc ccs ih =>
      intro u v h
      obtain ⟨w, hw, h⟩ := Option.bind_eq_some_iff.mp h
      obtain ⟨conf, hcc, rfl⟩ := Option.map_eq_some_iff.mp hw
      rw [ConfState.replay, List.foldlM_cons, hcc]
      exact ih h
  exact hconf _ hrun

/-- `applyConfChange` sets `confState` to the configuration in Raft. -/
theorem confState_applyConfChange {m : Membership} {e : RaftEntry} (h : applyConfChange m s e = .ok (t, b)) :
    t.confState = t.raftConf := by
  unfold applyConfChange at h
  split at h
  · cases h
  · split at h
    · cases h
    · dsimp only at h
      split_ifs at h <;> cases h <;> rfl

/-- So `confState` stays the configuration in Raft. -/
theorem confState_applyEach {m : Membership} (h : applyEach m r s b es = .ok (t, b'))
    (hs : s.confState = s.raftConf) : t.confState = t.raftConf := by
  induction es generalizing s b with
  | nil =>
    cases h
    exact hs
  | cons e es ih =>
    unfold applyEach at h
    cases htype : e.type with
    | normal =>
      simp only [htype] at h
      split_ifs at h
      · exact ih h hs
      · obtain ⟨u, hu, h⟩ := bind_eq_ok h
        unfold applyNormalEntry at hu
        split at hu
        · cases hu
          exact ih h hs
        · cases hu
    | confChange =>
      simp only [htype] at h
      obtain ⟨⟨u, removed⟩, hu, h⟩ := bind_eq_ok h
      exact ih h (confState_applyConfChange hu)
    | confChangeV2 =>
      simp only [htype] at h
      cases h

/-- The leader's snapshot is of the state `l₀`. It has applied `es₁` and `es₂` since, when it sends the snapshot. The
follower restores it and has applied `es₁`. A node has the role that it had at this index exactly if one of the
changes in `es₁` is about it, or its role is the same in the snapshot and in the configuration that was put in its
place. When the follower has caught up, all roles are those of the leader. -/
theorem patched_snapshot_role_iff {lead follower index : ℕ} {r' : Responses} {l₀ l₁ l f t : Member}
    {b₀ b₁ b₂ b₃ b₄ : Bool} {es₁ es₂ : List RaftEntry} {msgs : List RaftMessage} {m : RaftMessage} {conf : ConfState}
    (hl₀ : l₀.confState = l₀.raftConf)
    (hl₁ : applyEach (raftMembership lead unmarshal) r l₀ b₀ es₁ = .ok (l₁, b₁))
    (hl : applyEach (raftMembership lead unmarshal) r l₁ b₁ es₂ = .ok (l, b₂))
    (hm : m ∈ getMessagesToPublish l.confState msgs) (htype : m.type = .snap)
    (hsnapshot : m.snapshot = some (index, conf)) (hf : f.raftConf = conf)
    (ht : applyEach (raftMembership follower unmarshal) r' f b₃ es₁ = .ok (t, b₄)) :
    (∀ i, t.raftConf.role i = l₁.raftConf.role i ↔
      (∃ cc ∈ Network.changes unmarshal es₁, cc.Concerns i) ∨ l.raftConf.role i = l₀.raftConf.role i) ∧
    (es₂ = [] → t.raftConf.role = l.raftConf.role) := by
  have hcurrent : f.raftConf = l.raftConf := by
    rw [hf, confState_of_mem_publish hm htype hsnapshot]
    exact confState_applyEach hl (confState_applyEach hl₁ hl₀)
  have hthen := ConfState.role_replay (replay_applyEach hl₁)
  have hnow := ConfState.role_replay (replay_applyEach ht)
  rw [hcurrent] at hnow
  refine ⟨fun i => ?_, ?_⟩
  · rw [hnow, hthen, overlay_eq_iff, ConfState.exists_mem_writes_iff]
  · rintro rfl
    cases hl
    rw [hnow, hthen, overlay_overlay]

/-- The addition of node 3. -/
def additionOfThree (index : ℕ) : RaftEntry := ⟨index, 1, .confChange, [8, 1, 16, 0, 24, 3]⟩

/-- The removal of node 2. -/
def removalOfTwo (index : ℕ) : RaftEntry := ⟨index, 1, .confChange, [8, 2, 16, 1, 24, 2]⟩

/-- A member with the configuration, and nothing applied. -/
def withConf (conf : ConfState) : Member := ⟨.startAt 0, conf, conf, []⟩

/-- The leader of nodes 1 and 2 adds node 3 and removes node 2, and sends node 3 the snapshot from before. After the
addition node 3 has itself as a member, as the leader had, but not node 2. -/
theorem patched_snapshot_role_iff_removed :
    (withConf ⟨[1, 3], []⟩).raftConf.role 2 ≠ (withConf ⟨[1, 2, 3], []⟩).raftConf.role 2 ∧
      (withConf ⟨[1, 3], []⟩).raftConf.role 3 = (withConf ⟨[1, 2, 3], []⟩).raftConf.role 3 := by
  have hl₁ : applyEach (raftMembership 1 nodeOne.unmarshal) noErrors (withConf ⟨[1, 2], []⟩) false
      [additionOfThree 1] = .ok (withConf ⟨[1, 2, 3], []⟩, false) := rfl
  have hl : applyEach (raftMembership 1 nodeOne.unmarshal) noErrors (withConf ⟨[1, 2, 3], []⟩) false
      [removalOfTwo 2] = .ok ({ withConf ⟨[1, 3], []⟩ with peerCalls := [.removePeer 2] }, false) := rfl
  have hm : ⟨.snap, 3, some (0, ⟨[1, 3], []⟩)⟩ ∈
      getMessagesToPublish ⟨[1, 3], []⟩ [⟨.snap, 3, some (0, ⟨[1, 2], []⟩)⟩] := by decide
  have ht : applyEach (raftMembership 3 nodeOne.unmarshal) noErrors (withConf ⟨[1, 3], []⟩) false
      [additionOfThree 1] = .ok (withConf ⟨[1, 3], []⟩, false) := rfl
  have h := (patched_snapshot_role_iff rfl hl₁ hl hm rfl rfl rfl ht).1
  exact ⟨mt (h 2).mp (by decide), (h 3).mpr (.inl (by decide))⟩

-- The changes that took the leader from two voters to one make Raft panic on the configuration that is sent.
example :
    let ccs : List ConfChange := [⟨.removeNode, 1, []⟩, ⟨.addNode, 1, []⟩, ⟨.removeNode, 2, []⟩]
    ConfState.replay ⟨[1, 2], []⟩ ccs = some ⟨[1], []⟩ ∧ ConfState.replay ⟨[1], []⟩ ccs = none := by
  decide

end Member

end Omashu
