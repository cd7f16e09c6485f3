import Mathlib.Data.List.Pairwise
import Omashu.Lib.Run
import Omashu.Store.Fsm
import Omashu.Tso.Window

/-!
# Timestamps over successive terms

A leader must not issue a timestamp that an earlier leader has issued or passed. The earlier one stays
below the upper bound that it has saved, and the later one starts above the upper bound that it finds
under `persistentKey`. So the later timestamps are greater where the later leader finds every bound
that was proposed in an earlier term.

Nothing in the code sees to that. `StartServing` reads its own store, which may be behind the committed
log, and a bound counts as persisted once it is accepted into the log of its own node, from where it
can still be lost. Besides, the oracle of a node that has just been elected can be asked for timestamps
before `StartServing` is through, and that of a leader which has been replaced without noticing can
raise its bound once more. `Durable` excludes these, and `issued_lt_of_term_lt` is what follows.

`proposed` and `issued` are not part of the program: they record the bounds and the timestamps of each
term.
-/

namespace Omashu

open Lib

/-- `persistentKey`: `_tso_last_timestamp`. -/
def persistentKey : Key :=
  [95, 116, 115, 111, 95, 108, 97, 115, 116, 95, 116, 105, 109, 101, 115, 116, 97, 109, 112]

/-- The operation that sets `persistentKey` to an upper bound, as a `uint64`. -/
def setBound (upperBound : ℤ) : SubCommand :=
  .set persistentKey (uint64ToBytes (upperBound % 2^64).toNat) none

/-- Where a node is in a term. -/
inductive Role
  /-- It does not lead. -/
  | follower
  /-- It leads, and `StartServing` has not read the persisted bound yet. -/
  | starting
  /-- `StartServing` has read it, and waits in `calibrate`. -/
  | loaded
  /-- `persistUpperboundOnStartup` has proposed the first bound. -/
  | persisting (upperBound : ℤ)
  /-- `StartServing` is through. -/
  | serving
  deriving DecidableEq

/-- Where `UpdateWindow` is. -/
inductive Update
  /-- It does not run. -/
  | idle
  /-- It has decided on a new bound. -/
  | decided (upperBound : ℤ)
  /-- The transaction that persists the bound is proposed. -/
  | proposed (upperBound : ℤ)
  deriving DecidableEq

/-- A node, as far as its oracle is concerned. -/
structure TsoNode where
  /-- Its wall clock, in milliseconds. -/
  now : ℤ
  store : Store
  /-- How many committed entries it has applied. -/
  applied : ℕ
  /-- `current` and `saved` of its oracle. -/
  clock : Clock
  /-- Where it is in its term. -/
  role : Role
  /-- The last term in which it was elected. -/
  term : ℕ
  /-- Its `UpdateWindow`. -/
  update : Update

namespace TsoNode

/-- `getVal` of `persistentKey`, from the local store. -/
def getVal (n : TsoNode) : Option Bytes :=
  (BTxn.newTransactionAt n.store (2^64 - 1)).lookup (n.now * 10^6) persistentKey

/-- The persisted bound as `StartServing` reads it. -/
def lastBound (n : TsoNode) : Option ℤ :=
  (n.getVal.bind bytesToUint64).map fun v => (BitVec.ofNat 64 v).toInt

/-- `StartServing` up to `calibrate`. A value that is not eight bytes long panics. -/
def load (n : TsoNode) : Option TsoNode :=
  match n.getVal, n.lastBound with
  | none, _ =>
    some { n with clock := { n.clock with current := TimeStamp.reset n.now }, role := .loaded }
  | some _, some last =>
    some { n with
      clock := ⟨TimeStamp.reset (if n.now ≤ last then last + 1 else n.now), TimeStamp.reset last⟩
      role := .loaded }
  | some _, none => none

/-- The first bound that `persistUpperboundOnStartup` proposes. -/
def startupBound (n : TsoNode) : ℤ := n.clock.current.physical + defaultUpperBoundWindow

/-- `calibrate` returns, and `persistUpperboundOnStartup` uses the first timestamp of the term to propose
the first bound. -/
def persist (n : TsoNode) : Option TsoNode :=
  if n.role = .loaded ∧ n.clock.current.physical ≤ n.now then
    some { n with
      clock := { n.clock with current := n.clock.current.incr }
      role := .persisting n.startupBound }
  else none

/-- `allocate`, with the readings of a clock that does not go back. -/
def allocate (n : TsoNode) (readings : List ℤ) : Option TsoNode :=
  if (n.now :: readings).Pairwise (· ≤ ·) then
    (n.clock.allocate readings).map fun c => { n with clock := c, now := readings.getLastD n.now }
  else none

end TsoNode

/-- The nodes and the Raft log, as far as the oracles are concerned. -/
structure Cluster (ν : Type*) where
  nodes : ν → TsoNode
  /-- The last term. -/
  term : ℕ
  /-- The commands that are accepted and neither committed nor lost. -/
  pending : List Command
  /-- The commands that are committed, in order. -/
  committed : List Command
  /-- The bounds that were proposed, with their terms. -/
  proposed : List (ℕ × ℤ)
  /-- The timestamps that were issued, with their terms. -/
  issued : List (ℕ × TimeStamp)

/-- One step of the cluster. -/
inductive TermAction (ν : Type*)
  /-- The clock of a node advances. -/
  | elapse (i : ν) (d : ℕ)
  /-- A node is elected, and starts the next term. -/
  | elect (i : ν)
  /-- A node notices that it does not lead any more. -/
  | resign (i : ν)
  /-- A node crashes and starts again, with its store and a new oracle. -/
  | restart (i : ν)
  /-- `StartServing` reads the persisted bound. -/
  | load (i : ν)
  /-- `persistUpperboundOnStartup` proposes the first bound. -/
  | persist (i : ν)
  /-- `persistUpperboundOnStartup` saves the bound. -/
  | persisted (i : ν)
  /-- A commit calls `allocate`. -/
  | allocate (i : ν) (readings : List ℤ)
  /-- The first critical section of `UpdateWindow`. -/
  | readWindow (i : ν)
  /-- The transaction of `UpdateWindow`, which reads at a timestamp, calls `allocate` and is
  proposed. -/
  | commitWindow (i : ν) (readTs : ℕ) (readings : List ℤ)
  /-- The second critical section of `UpdateWindow`. -/
  | saveWindow (i : ν)
  /-- `UpdateWindow` fails. -/
  | updateFailed (i : ν)
  /-- A command that was accepted is committed. -/
  | commit (n : ℕ)
  /-- A command that was accepted is lost. -/
  | lose (n : ℕ)
  /-- A node applies its next committed command. -/
  | apply (i : ν) (env : Env)

namespace Cluster

variable {ν : Type*} [DecidableEq ν]

/-- Replaces one node. -/
def setNode (s : Cluster ν) (i : ν) (n : TsoNode) : Cluster ν :=
  { s with nodes := Function.update s.nodes i n }

/-- A node has issued its current timestamp. -/
def issue (s : Cluster ν) (i : ν) (n : TsoNode) : Cluster ν :=
  { s.setNode i n with issued := s.issued ++ [(n.term, n.clock.current)] }

/-- A node has issued its current timestamp, and has proposed a bound with it. -/
def propose (s : Cluster ν) (i : ν) (n : TsoNode) (upperBound : ℤ) (readTs : ℕ) (body : Body) :
    Cluster ν :=
  { s.issue i n with
    pending := s.pending ++ [⟨readTs, n.clock.current.compose, body⟩]
    proposed := s.proposed ++ [(n.term, upperBound)] }

/-- One step of the cluster. -/
def step (M : Merge) (s : Cluster ν) : TermAction ν → Option (Cluster ν)
  | .elapse i d => some (s.setNode i { s.nodes i with now := (s.nodes i).now + d })
  | .elect i =>
    if (s.nodes i).role = .follower then
      some { s.setNode i { s.nodes i with role := .starting, term := s.term + 1 } with
        term := s.term + 1 }
    else none
  | .resign i => some (s.setNode i { s.nodes i with role := .follower })
  | .restart i => some (s.setNode i { s.nodes i with
      clock := ⟨⟨0, 0⟩, ⟨0, 0⟩⟩
      role := .follower
      update := .idle })
  | .load i =>
    if (s.nodes i).role = .starting then (s.nodes i).load.map fun n => s.setNode i n else none
  | .persist i => (s.nodes i).persist.map fun n =>
      let upperBound := (s.nodes i).startupBound
      s.propose i n upperBound n.clock.current.compose (.single (setBound upperBound))
  | .persisted i =>
    match (s.nodes i).role with
    | .persisting upperBound => some (s.setNode i { s.nodes i with
        clock := (s.nodes i).clock.resetSaved upperBound
        role := .serving })
    | _ => none
  | .allocate i readings => ((s.nodes i).allocate readings).map fun n => s.issue i n
  | .readWindow i =>
    if (s.nodes i).role = .serving ∧ (s.nodes i).update = .idle then
      some (s.setNode i { s.nodes i with update := match (s.nodes i).clock.nextUpperBound with
        | none => .idle
        | some upperBound => .decided upperBound })
    else none
  | .commitWindow i readTs readings =>
    match (s.nodes i).update with
    | .decided upperBound => ((s.nodes i).allocate readings).map fun n =>
        s.propose i { n with update := .proposed upperBound } upperBound readTs
          (.transaction [setBound upperBound])
    | _ => none
  | .saveWindow i =>
    match (s.nodes i).update with
    | .proposed upperBound => some (s.setNode i { s.nodes i with
        clock := (s.nodes i).clock.resetSaved upperBound
        update := .idle })
    | _ => none
  | .updateFailed i => some (s.setNode i { s.nodes i with update := .idle })
  | .commit n => s.pending[n]?.map fun c =>
      { s with pending := s.pending.eraseIdx n, committed := s.committed ++ [c] }
  -- `proposeAndWait` does not wait for the commit, so its caller goes on after a loss as well.
  | .lose n => some { s with pending := s.pending.eraseIdx n }
  | .apply i env =>
    match s.committed[(s.nodes i).applied]? with
    | none => none
    | some c =>
      match Fsm.apply M (s.nodes i).store env c with
      | .ok store => some (s.setNode i { s.nodes i with
          store
          applied := (s.nodes i).applied + 1 })
      | .error _ => none

/-- The node serves, its readings fit the layout, and `allocate` stays below the saved bound. -/
def Allocates (n : TsoNode) (readings : List ℤ) : Prop :=
  n.role = .serving ∧ (∀ r ∈ readings, r < 2^45) ∧
    ∀ c ∈ n.clock.allocate readings, c.current.physical < c.saved.physical

/-- A new leader finds a bound that is not below any that was proposed in an earlier term, bounds are
proposed only in the last term, and timestamps are allocated only once `StartServing` is through.
Besides, `allocate` stays below the saved bound and the clocks within the layout. -/
def Durable (s : Cluster ν) : TermAction ν → Prop
  | .load i => ∀ x ∈ s.proposed, x.1 < (s.nodes i).term → ∃ last ∈ (s.nodes i).lastBound, x.2 ≤ last
  | .persist i => (s.nodes i).term = s.term ∧ (s.nodes i).now < 2^45
  | .allocate i readings => Allocates (s.nodes i) readings
  | .commitWindow i _ readings => Allocates (s.nodes i) readings ∧ (s.nodes i).term = s.term
  | _ => True

/-! ## What the nodes keep -/

/-- A bound is not above one that was proposed up to a term. -/
def Backed (proposed : List (ℕ × ℤ)) (term : ℕ) (b : ℤ) : Prop :=
  ∃ x ∈ proposed, x.1 ≤ term ∧ b ≤ x.2

/-- A physical part is above the bounds of earlier terms. -/
def Above (proposed : List (ℕ × ℤ)) (term : ℕ) (p : ℤ) : Prop :=
  ∀ x ∈ proposed, x.1 < term → x.2 < p

/-- What holds for a node, given the bounds that were proposed. -/
structure NodeInv (proposed : List (ℕ × ℤ)) (n : TsoNode) : Prop where
  /-- The clock is not negative. -/
  nonneg : 0 ≤ n.now
  /-- A node that waits in `calibrate` has a fresh physical part above the earlier bounds. -/
  loaded : n.role = .loaded →
    n.clock.current.logical = 0 ∧ 0 ≤ n.clock.current.physical ∧
      Above proposed n.term n.clock.current.physical
  /-- So has a node that has started, and its clock has reached it. -/
  started : (∃ upperBound, n.role = .persisting upperBound) ∨ n.role = .serving →
    n.clock.current.physical ≤ n.now ∧ 0 ≤ n.clock.current.physical ∧
      n.clock.current.physical < 2^45 ∧ Above proposed n.term n.clock.current.physical
  /-- The first bound was proposed. -/
  persisting : ∀ upperBound, n.role = .persisting upperBound → Backed proposed n.term upperBound
  /-- The saved bound was proposed. -/
  saved : n.role = .serving → Backed proposed n.term n.clock.saved.physical
  /-- The bound of `UpdateWindow` was proposed. -/
  update : ∀ upperBound, n.update = .proposed upperBound → Backed proposed n.term upperBound

/-- What holds for a timestamp that was issued. -/
structure Sound (s : Cluster ν) (y : ℕ × TimeStamp) : Prop where
  /-- Its term has begun. -/
  term_le : y.1 ≤ s.term
  /-- It is below a bound that was proposed up to its term. -/
  below : ∃ x ∈ s.proposed, x.1 ≤ y.1 ∧ y.2.physical < x.2
  /-- It is above the bounds of the earlier terms. -/
  above : Above s.proposed y.1 y.2.physical
  /-- It fits the layout, up to a counter that has just been used up. -/
  fits : 0 ≤ y.2.physical ∧ y.2.physical < 2^45 ∧ y.2.logical ≤ 2^18

/-- What holds for the cluster. -/
structure TermsInv (s : Cluster ν) : Prop where
  /-- No node is ahead of the last term. -/
  term_le : ∀ i, (s.nodes i).term ≤ s.term
  nodes : ∀ i, NodeInv s.proposed (s.nodes i)
  /-- The timestamps. -/
  issued : ∀ y ∈ s.issued, s.Sound y

variable {s t : Cluster ν} {n n' : TsoNode} {M : Merge} {a : TermAction ν} {i : ν}
  {proposed ps : List (ℕ × ℤ)} {term : ℕ} {b p : ℤ}

omit [DecidableEq ν] in
/-- A bound stays backed. -/
theorem Backed.append (h : Backed proposed term b) (ps : List (ℕ × ℤ)) :
    Backed (proposed ++ ps) term b := by
  obtain ⟨x, hx, hle⟩ := h
  exact ⟨x, List.mem_append_left _ hx, hle⟩

omit [DecidableEq ν] in
/-- A physical part stays above the earlier bounds, if none is added to an earlier term. -/
theorem Above.append (h : Above proposed term p) (hps : ∀ x ∈ ps, term ≤ x.1) :
    Above (proposed ++ ps) term p := by
  intro x hx hlt
  rcases List.mem_append.mp hx with hx | hx
  · exact h x hx hlt
  · exact absurd hlt (not_lt.mpr (hps x hx))

/-- A node keeps what it has, if no bound is added to an earlier term. -/
theorem NodeInv.append (h : NodeInv proposed n) (hps : ∀ x ∈ ps, n.term ≤ x.1) :
    NodeInv (proposed ++ ps) n where
  nonneg := h.nonneg
  loaded hr := by
    obtain ⟨hl, h0, ha⟩ := h.loaded hr
    exact ⟨hl, h0, ha.append hps⟩
  started hr := by
    obtain ⟨hnow, h0, h45, ha⟩ := h.started hr
    exact ⟨hnow, h0, h45, ha.append hps⟩
  persisting b hr := (h.persisting b hr).append ps
  saved hr := (h.saved hr).append ps
  update b hu := (h.update b hu).append ps

/-- One node moves on. Bounds are added to the last term only, and what is issued is sound. -/
theorem TermsInv.of_node (hI : TermsInv s) (hnodes : t.nodes = Function.update s.nodes i n)
    (hterm : s.term ≤ t.term) (hn : n.term ≤ t.term) (hproposed : t.proposed = s.proposed ++ ps)
    (hps : ∀ x ∈ ps, s.term ≤ x.1) (hnode : NodeInv t.proposed n)
    (hissued : ∀ y ∈ t.issued, y ∈ s.issued ∨ t.Sound y) : TermsInv t where
  term_le := by
    rw [hnodes]
    apply (Function.forall_update_iff s.nodes fun _ n => n.term ≤ t.term).mpr
    exact ⟨hn, fun j _ => le_trans (hI.term_le j) hterm⟩
  nodes := by
    rw [hnodes]
    apply (Function.forall_update_iff s.nodes fun _ n => NodeInv t.proposed n).mpr
    refine ⟨hnode, fun j _ => ?_⟩
    rw [hproposed]
    exact (hI.nodes j).append fun x hx => le_trans (hI.term_le j) (hps x hx)
  issued y hy := by
    rcases hissued y hy with hy | hy
    · obtain ⟨hle, ⟨x, hx, hbelow⟩, habove, hfits⟩ := hI.issued y hy
      refine ⟨le_trans hle hterm, ⟨x, ?_, hbelow⟩, ?_, hfits⟩
      · rw [hproposed]
        exact List.mem_append_left _ hx
      · rw [hproposed]
        exact habove.append fun x hx => le_trans hle (hps x hx)
    · exact hy

omit [DecidableEq ν] in
/-- The invariant does not read the commands that are pending and committed. -/
theorem TermsInv.of_log (hI : TermsInv s) (pending committed : List Command) :
    TermsInv { s with pending, committed } where
  term_le := hI.term_le
  nodes := hI.nodes
  issued y hy := by
    obtain ⟨hle, hbelow, habove, hfits⟩ := hI.issued y hy
    exact ⟨hle, hbelow, habove, hfits⟩

/-- One node moves on, in its term, and nothing is proposed or issued. -/
theorem TermsInv.setNode (hI : TermsInv s) (hn : n.term = (s.nodes i).term)
    (hnode : NodeInv s.proposed n) : TermsInv (s.setNode i n) := by
  refine hI.of_node rfl (le_refl _) ?_ (List.append_nil _).symm (by simp) hnode
    fun y hy => .inl hy
  rw [hn]
  exact hI.term_le i

/-! ## The steps of a node -/

omit [DecidableEq ν] in
/-- A node that finds every bound of the earlier terms starts above them. -/
theorem NodeInv.load (h : NodeInv proposed n) (hl : n.load = some n')
    (hd : ∀ x ∈ proposed, x.1 < n.term → ∃ last ∈ n.lastBound, x.2 ≤ last) :
    n'.term = n.term ∧ NodeInv proposed n' := by
  have hnow := h.nonneg
  unfold TsoNode.load at hl
  split at hl
  · rename_i hget
    obtain rfl := Option.some.inj hl
    have hnone : n.lastBound = none := by
      unfold TsoNode.lastBound
      rw [hget]
      rfl
    refine ⟨rfl, hnow, fun _ => ⟨rfl, hnow, fun x hx hlt => ?_⟩, by simp, by simp, by simp, h.update⟩
    -- No bound was proposed in an earlier term.
    obtain ⟨last, hlast, -⟩ := hd x hx hlt
    rw [hnone] at hlast
    simp at hlast
  · rename_i last _ hlast
    obtain rfl := Option.some.inj hl
    refine ⟨rfl, hnow, fun _ => ⟨rfl, ?_, fun x hx hlt => ?_⟩, by simp, by simp, by simp, h.update⟩
    · show 0 ≤ if n.now ≤ last then last + 1 else n.now
      split_ifs <;> omega
    · obtain ⟨last', hlast', hle⟩ := hd x hx hlt
      obtain rfl := Option.mem_unique hlast hlast'
      show x.2 < if n.now ≤ last then last + 1 else n.now
      split_ifs <;> omega
  · simp at hl

/-- In a list that increases, no entry is above the last one. -/
theorem le_getLastD {x r : ℤ} {l : List ℤ} (h : (x :: l).Pairwise (· ≤ ·)) (hr : r ∈ x :: l) :
    r ≤ l.getLastD x := by
  induction l generalizing x r with
  | nil => exact le_of_eq (List.mem_singleton.mp hr)
  | cons y l ih =>
    rw [List.getLastD_cons]
    rcases List.mem_cons.mp hr with rfl | hr
    · have hxy : r ≤ y := (List.pairwise_cons.mp h).1 y List.mem_cons_self
      exact le_trans hxy (ih (List.pairwise_cons.mp h).2 List.mem_cons_self)
    · exact ih (List.pairwise_cons.mp h).2 hr

omit [DecidableEq ν] in
/-- `allocate` does not go back, where the clock has reached the current physical part. -/
theorem allocate_spec {readings : List ℤ} (h : n.allocate readings = some n')
    (hcur : n.clock.current.physical ≤ n.now) :
    ∃ c ∈ n.clock.allocate readings, n' = { n with clock := c, now := n'.now } ∧
      n.now ≤ n'.now ∧ c.saved = n.clock.saved ∧ c.current.logical ≤ 2^18 ∧
      n.clock.current.physical ≤ c.current.physical ∧ c.current.physical ≤ n'.now ∧
      (c.current.physical = n.clock.current.physical ∨ c.current.physical ∈ readings) := by
  unfold TsoNode.allocate at h
  split_ifs at h with hsorted
  obtain ⟨c, hc, rfl⟩ := Option.map_eq_some_iff.mp h
  refine ⟨c, hc, rfl, le_getLastD hsorted List.mem_cons_self, ?_⟩
  have hlast : n.now ≤ readings.getLastD n.now := le_getLastD hsorted List.mem_cons_self
  -- A reading is between the clock before and the clock after the call.
  have hreading : ∀ r ∈ readings, n.clock.current.physical ≤ r ∧ r ≤ readings.getLastD n.now := by
    intro r hr
    have hge : n.now ≤ r := (List.pairwise_cons.mp hsorted).1 r hr
    exact ⟨le_trans hcur hge, le_getLastD hsorted (List.mem_cons_of_mem _ hr)⟩
  cases readings with
  | nil => simp [Clock.allocate] at hc
  | cons now readings =>
    obtain ⟨hsaved, ⟨-, r, hr, hcur'⟩ | ⟨-, r, hr, -, hcur'⟩ | ⟨-, -, hmax, hcur'⟩⟩ :=
      Clock.allocate_cases hc
    · have hmem : r.1 ∈ now :: readings := List.mem_cons_of_mem _ (waitFor_spec hr).2
      obtain ⟨hge, hle⟩ := hreading _ hmem
      rw [hcur']
      exact ⟨hsaved, show (1 : ℕ) ≤ 2^18 by decide, hge, hle, .inr hmem⟩
    · obtain ⟨hge, hle⟩ := hreading _ hr
      rw [hcur']
      exact ⟨hsaved, show (1 : ℕ) ≤ 2^18 by decide, hge, hle, .inr hr⟩
    · have hle : n.clock.current.logical + 1 ≤ 2^18 := by
        unfold MAX_LOGICAL LOGICAL_BITS at hmax
        omega
      rw [hcur']
      exact ⟨hsaved, hle, le_refl _, le_trans hcur hlast, .inl rfl⟩

omit [DecidableEq ν] in
/-- A node that allocates a timestamp while it serves. -/
theorem NodeInv.allocate {readings : List ℤ} (h : NodeInv proposed n)
    (ha : n.allocate readings = some n') (hd : Allocates n readings) :
    n'.term = n.term ∧ n'.update = n.update ∧ NodeInv proposed n' ∧
      (∃ x ∈ proposed, x.1 ≤ n.term ∧ n'.clock.current.physical < x.2) ∧
      Above proposed n.term n'.clock.current.physical ∧ 0 ≤ n'.clock.current.physical ∧
      n'.clock.current.physical < 2^45 ∧ n'.clock.current.logical ≤ 2^18 := by
  obtain ⟨hserving, hlayout, hbound⟩ := hd
  obtain ⟨hcur, h0, h45, habove⟩ := h.started (.inr hserving)
  obtain ⟨c, hc, hn', hnow, hsaved, hlogical, hge, hle, hmem⟩ := allocate_spec ha hcur
  have hfits : c.current.physical < 2^45 := by
    rcases hmem with heq | hmem
    · rw [heq]
      exact h45
    · exact hlayout _ hmem
  -- The physical part does not go back, so it stays above the earlier bounds.
  have habove' : Above proposed n.term c.current.physical :=
    fun x hx hlt => lt_of_lt_of_le (habove x hx hlt) hge
  have h0' : 0 ≤ c.current.physical := le_trans h0 hge
  have hlt := hbound c hc
  obtain ⟨x, hx, hterm, hxle⟩ := h.saved hserving
  have hnonneg := h.nonneg
  rw [hn']
  refine ⟨rfl, rfl, ⟨le_trans hnonneg hnow, ?_, fun _ => ⟨hle, h0', hfits, habove'⟩, ?_, fun _ => ?_,
    h.update⟩, ⟨x, hx, hterm, ?_⟩, habove', h0', hfits, hlogical⟩
  · intro hr
    rw [hserving] at hr
    simp at hr
  · intro b hr
    rw [hserving] at hr
    simp at hr
  · show Backed proposed n.term c.saved.physical
    rw [hsaved]
    exact ⟨x, hx, hterm, hxle⟩
  · rw [hsaved] at hlt
    exact lt_of_lt_of_le hlt hxle

/-! ## The steps of the cluster -/

/-- A timestamp that a serving node allocates is sound. -/
theorem TermsInv.issue {readings : List ℤ} (hI : TermsInv s)
    (ha : (s.nodes i).allocate readings = some n) (hd : Allocates (s.nodes i) readings) :
    TermsInv (s.issue i n) := by
  obtain ⟨hterm, -, hnode, hbelow, habove, h0, h45, hl⟩ := (hI.nodes i).allocate ha hd
  have hle := hI.term_le i
  refine hI.of_node rfl (le_refl _) (hterm ▸ hle) (List.append_nil _).symm
    (by simp) hnode fun y hy => ?_
  rcases List.mem_append.mp hy with hy | hy
  · exact .inl hy
  · obtain rfl := List.mem_singleton.mp hy
    rw [← hterm] at hbelow habove
    exact .inr ⟨hterm ▸ hle, hbelow, habove, h0, h45, hl⟩

/-- A node proposes a bound of the last term, with a timestamp below it. -/
theorem TermsInv.propose {upperBound : ℤ} {readTs : ℕ} {body : Body} (hI : TermsInv s)
    (hterm : n.term = s.term)
    (hnode : NodeInv (s.proposed ++ [(n.term, upperBound)]) n)
    (hlt : ∃ x ∈ s.proposed ++ [(n.term, upperBound)], x.1 ≤ n.term ∧ n.clock.current.physical < x.2)
    (habove : Above s.proposed n.term n.clock.current.physical)
    (h0 : 0 ≤ n.clock.current.physical) (h45 : n.clock.current.physical < 2^45)
    (hl : n.clock.current.logical ≤ 2^18) :
    TermsInv (s.propose i n upperBound readTs body) := by
  have hps : ∀ x ∈ [(n.term, upperBound)], s.term ≤ x.1 := by
    intro x hx
    obtain rfl := List.mem_singleton.mp hx
    exact le_of_eq hterm.symm
  refine hI.of_node rfl (le_refl _) (le_of_eq hterm) rfl hps hnode fun y hy => ?_
  rcases List.mem_append.mp hy with hy | hy
  · exact .inl hy
  · obtain rfl := List.mem_singleton.mp hy
    refine .inr ⟨le_of_eq hterm, hlt, habove.append fun x hx => ?_, h0, h45, hl⟩
    exact hterm ▸ hps x hx

/-- The first bound of a term is proposed. -/
theorem TermsInv.persist {readTs : ℕ} {body : Body} (hI : TermsInv s)
    (hp : (s.nodes i).persist = some n) (hterm : (s.nodes i).term = s.term)
    (hnow : (s.nodes i).now < 2^45) :
    TermsInv (s.propose i n (s.nodes i).startupBound readTs body) := by
  have hN := hI.nodes i
  unfold TsoNode.persist at hp
  split_ifs at hp with hrole
  obtain rfl := Option.some.inj hp
  obtain ⟨hl, h0, habove⟩ := hN.loaded hrole.1
  have hlt : (s.nodes i).clock.current.physical < (s.nodes i).startupBound := by
    unfold TsoNode.startupBound defaultUpperBoundWindow
    omega
  have h45 : (s.nodes i).clock.current.physical < 2^45 := lt_of_le_of_lt hrole.2 hnow
  -- The new bound is itself the one that backs the node and is above its timestamp.
  have hmem : ((s.nodes i).term, (s.nodes i).startupBound) ∈
      s.proposed ++ [((s.nodes i).term, (s.nodes i).startupBound)] :=
    List.mem_append_right _ List.mem_cons_self
  have habove' : Above (s.proposed ++ [((s.nodes i).term, (s.nodes i).startupBound)])
      (s.nodes i).term (s.nodes i).clock.current.physical := by
    refine habove.append fun x hx => ?_
    obtain rfl := List.mem_singleton.mp hx
    exact le_refl _
  refine hI.propose hterm ⟨hN.nonneg, by simp, fun _ => ⟨hrole.2, h0, h45, habove'⟩, ?_, by simp, ?_⟩
    ⟨_, hmem, le_refl _, hlt⟩ habove h0 h45 ?_
  · intro b hb
    obtain rfl := Role.persisting.inj hb
    exact ⟨_, hmem, le_refl _, le_refl _⟩
  · exact fun b hu => (hN.update b hu).append _
  · show (s.nodes i).clock.current.logical + 1 ≤ 2^18
    rw [hl]
    decide

/-- A later bound of a term is proposed. -/
theorem TermsInv.commitWindow {readings : List ℤ} {upperBound : ℤ} {readTs : ℕ} {body : Body}
    (hI : TermsInv s) (ha : (s.nodes i).allocate readings = some n)
    (hd : Allocates (s.nodes i) readings) (hterm : (s.nodes i).term = s.term) :
    TermsInv (s.propose i { n with update := .proposed upperBound } upperBound readTs body) := by
  obtain ⟨hterm', -, hnode, ⟨x, hx, hle, hlt⟩, habove, h0, h45, hl⟩ := (hI.nodes i).allocate ha hd
  have hnode' : NodeInv (s.proposed ++ [(n.term, upperBound)]) n := by
    refine hnode.append fun x hx => ?_
    obtain rfl := List.mem_singleton.mp hx
    exact le_refl _
  rw [← hterm'] at hle habove
  refine hI.propose (hterm'.trans hterm) ⟨hnode'.nonneg, hnode'.loaded, hnode'.started,
    hnode'.persisting, hnode'.saved, ?_⟩ ⟨x, List.mem_append_left _ hx, hle, hlt⟩ habove h0 h45 hl
  intro b hb
  obtain rfl := Update.proposed.inj hb
  exact ⟨_, List.mem_append_right _ List.mem_cons_self, le_refl _, le_refl _⟩

/-- A step that meets the condition keeps the invariant. -/
theorem TermsInv.step (hI : TermsInv s) (hd : s.Durable a) (h : s.step M a = some t) :
    TermsInv t := by
  cases a with
  | elapse i d =>
    obtain rfl := Option.some.inj h
    have hN := hI.nodes i
    have hnow := hN.nonneg
    refine hI.setNode rfl ⟨?_, hN.loaded, fun hr => ?_, hN.persisting, hN.saved, hN.update⟩
    · show 0 ≤ (s.nodes i).now + d
      omega
    · obtain ⟨hcur, hrest⟩ := hN.started hr
      refine ⟨?_, hrest⟩
      show (s.nodes i).clock.current.physical ≤ (s.nodes i).now + d
      omega
  | elect i =>
    simp only [Cluster.step] at h
    split_ifs at h with hrole
    obtain rfl := Option.some.inj h
    have hN := hI.nodes i
    have hle := hI.term_le i
    -- A bound of `UpdateWindow` from an earlier term stays backed in the new one.
    refine hI.of_node rfl (Nat.le_succ _) (le_refl _) (List.append_nil _).symm (by simp)
      ⟨hN.nonneg, by simp, by simp, by simp, by simp, fun b hu => ?_⟩ fun y hy => .inl hy
    obtain ⟨x, hx, hterm, hb⟩ := hN.update b hu
    exact ⟨x, hx, show x.1 ≤ s.term + 1 by omega, hb⟩
  | resign i =>
    obtain rfl := Option.some.inj h
    have hN := hI.nodes i
    exact hI.setNode rfl ⟨hN.nonneg, by simp, by simp, by simp, by simp, hN.update⟩
  | restart i =>
    obtain rfl := Option.some.inj h
    have hN := hI.nodes i
    exact hI.setNode rfl ⟨hN.nonneg, by simp, by simp, by simp, by simp, by simp⟩
  | load i =>
    simp only [Cluster.step] at h
    split_ifs at h with hrole
    obtain ⟨n, hn, rfl⟩ := Option.map_eq_some_iff.mp h
    obtain ⟨hterm, hnode⟩ := (hI.nodes i).load hn hd
    exact hI.setNode hterm hnode
  | persist i =>
    obtain ⟨n, hn, rfl⟩ := Option.map_eq_some_iff.mp h
    exact hI.persist hn hd.1 hd.2
  | persisted i =>
    simp only [Cluster.step] at h
    split at h
    · rename_i upperBound hrole
      obtain rfl := Option.some.inj h
      have hN := hI.nodes i
      exact hI.setNode rfl ⟨hN.nonneg, by simp, fun _ => hN.started (.inl ⟨_, hrole⟩), by simp,
        fun _ => hN.persisting _ hrole, hN.update⟩
    · simp at h
  | allocate i readings =>
    obtain ⟨n, hn, rfl⟩ := Option.map_eq_some_iff.mp h
    exact hI.issue hn hd
  | readWindow i =>
    simp only [Cluster.step] at h
    split_ifs at h with hrole
    obtain rfl := Option.some.inj h
    have hN := hI.nodes i
    refine hI.setNode rfl ⟨hN.nonneg, hN.loaded, hN.started, hN.persisting, hN.saved, fun b hu => ?_⟩
    dsimp only at hu
    split at hu <;> simp at hu
  | commitWindow i readTs readings =>
    simp only [Cluster.step] at h
    split at h
    · obtain ⟨n, hn, rfl⟩ := Option.map_eq_some_iff.mp h
      exact hI.commitWindow hn hd.1 hd.2
    · simp at h
  | saveWindow i =>
    simp only [Cluster.step] at h
    split at h
    · rename_i upperBound hu
      obtain rfl := Option.some.inj h
      have hN := hI.nodes i
      exact hI.setNode rfl ⟨hN.nonneg, hN.loaded, hN.started, hN.persisting,
        fun _ => hN.update _ hu, by simp⟩
    · simp at h
  | updateFailed i =>
    obtain rfl := Option.some.inj h
    have hN := hI.nodes i
    exact hI.setNode rfl ⟨hN.nonneg, hN.loaded, hN.started, hN.persisting, hN.saved, by simp⟩
  | commit k =>
    obtain ⟨c, -, rfl⟩ := Option.map_eq_some_iff.mp h
    exact hI.of_log _ _
  | lose k =>
    obtain rfl := Option.some.inj h
    exact hI.of_log _ _
  | apply i env =>
    simp only [Cluster.step] at h
    split at h
    · simp at h
    · split at h
      · obtain rfl := Option.some.inj h
        have hN := hI.nodes i
        exact hI.setNode rfl ⟨hN.nonneg, hN.loaded, hN.started, hN.persisting, hN.saved, hN.update⟩
      · simp at h

omit [DecidableEq ν] in
/-- The cluster before its first term. The stores may have any contents. -/
structure Initial (s : Cluster ν) : Prop where
  /-- No node leads, and no clock is negative. -/
  nodes : ∀ i, (s.nodes i).role = .follower ∧ (s.nodes i).update = .idle ∧ 0 ≤ (s.nodes i).now ∧
    (s.nodes i).term ≤ s.term
  /-- No bound has been proposed. -/
  proposed : s.proposed = []
  /-- No timestamp has been issued. -/
  issued : s.issued = []

omit [DecidableEq ν] in
/-- Before the first term the invariant holds. -/
theorem Initial.termsInv (h : Initial s) : TermsInv s where
  term_le i := (h.nodes i).2.2.2
  nodes i := by
    obtain ⟨hrole, hupdate, hnow, -⟩ := h.nodes i
    exact ⟨hnow, by simp [hrole], by simp [hrole], by simp [hrole], by simp [hrole], by simp [hupdate]⟩
  issued := by simp [h.issued]

/-- In a run whose steps meet the condition, every timestamp of a later term is greater than every
timestamp of an earlier one. -/
theorem issued_lt_of_term_lt (h₀ : Initial s) (h : Reaches (step M) Durable s t)
    {y z : ℕ × TimeStamp} (hy : y ∈ t.issued) (hz : z ∈ t.issued) (hlt : y.1 < z.1) :
    y.2.compose < z.2.compose := by
  have hI : TermsInv t := h.invariant h₀.termsInv fun _ _ _ hI hd hs => hI.step hd hs
  have hY := hI.issued y hy
  have hZ := hI.issued z hz
  obtain ⟨x, hx, hterm, hbelow⟩ := hY.below
  -- The bound that the earlier timestamp is below lies between the two.
  have habove := hZ.above x hx (lt_of_le_of_lt hterm hlt)
  exact TimeStamp.compose_lt_of_gap hY.fits.1 hY.fits.2.1 hY.fits.2.2 hZ.fits.2.1 hZ.fits.2.2
    (by omega)

omit [DecidableEq ν] in
/-- `StartServing` leaves the oracle as a term starts, with the ticker a whole period ahead. -/
theorem started_of_persist {ι : Type*} (hl : n.clock.current.logical = 0) (hp : n.persist = some n')
    {now nextTick : ℤ} (hnow : n'.now ≤ now) (htick : now + defaultUpperBoundWindow ≤ nextTick) :
    OracleTerm.Started n.clock.current.physical
      (⟨now, n'.clock.resetSaved n.startupBound, none, .waiting, false, nextTick⟩ : OracleTerm ι) := by
  unfold TsoNode.persist at hp
  split_ifs at hp with hrole
  obtain rfl := Option.some.inj hp
  refine ⟨?_, rfl, le_trans hrole.2 hnow, rfl, rfl, rfl, htick⟩
  show TimeStamp.mk n.clock.current.physical (n.clock.current.logical + 1) = _
  rw [hl]

/-! ## Two runs -/

instance (n : TsoNode) (readings : List ℤ) : Decidable (Allocates n readings) := inferInstanceAs (Decidable (_ ∧ _))

instance (s : Cluster ν) : (a : TermAction ν) → Decidable (s.Durable a)
  | .load _ => inferInstanceAs (Decidable (∀ x ∈ s.proposed, _))
  | .persist _ => inferInstanceAs (Decidable (_ ∧ _))
  | .allocate i readings => inferInstanceAs (Decidable (Allocates (s.nodes i) readings))
  | .commitWindow _ _ _ => inferInstanceAs (Decidable (_ ∧ _))
  | .elapse .. | .elect _ | .resign _ | .restart _ | .persisted _ | .readWindow _ | .saveWindow _
  | .updateFailed _ | .commit _ | .lose _ | .apply .. => inferInstanceAs (Decidable True)

/-- A node that has never led, with nothing in its store. -/
def freshNode (now : ℤ) : TsoNode := ⟨now, [], 0, ⟨⟨0, 0⟩, ⟨0, 0⟩⟩, .follower, 0, .idle⟩

/-- Two such nodes, the clock of the second four seconds behind. -/
def twoNodes : Cluster Two where
  nodes
    | .first => freshNode 5000
    | .second => freshNode 1000
  term := 0
  pending := []
  committed := []
  proposed := []
  issued := []

/-- This is a cluster before its first term. -/
theorem initial_twoNodes : Initial twoNodes := ⟨by decide, rfl, rfl⟩

/-- The first node leads and issues two timestamps. Its bound is committed, and the second node has
applied it when it is elected. -/
def boundFound : List (TermAction Two) :=
  [.elect .first, .load .first, .persist .first, .persisted .first, .allocate .first [5001],
    .commit 0, .apply .second someEnv, .elect .second, .load .second, .elapse .second 6001,
    .persist .second]

/-- The cluster after that. -/
def afterBoundFound : Cluster Two :=
  final (guarded (step rejectDeltas) Durable) twoNodes boundFound (by decide)

/-- The second node starts above the first. -/
theorem issued_lt_of_term_lt_bound_found :
    (1, ⟨5001, 1⟩) ∈ afterBoundFound.issued ∧ (2, ⟨7001, 1⟩) ∈ afterBoundFound.issued ∧
      TimeStamp.compose ⟨5001, 1⟩ < TimeStamp.compose ⟨7001, 1⟩ := by
  have hreach : Reaches (step rejectDeltas) Durable twoNodes afterBoundFound := Reaches.final _
  have hy : (1, ⟨5001, 1⟩) ∈ afterBoundFound.issued := by decide +kernel
  have hz : (2, ⟨7001, 1⟩) ∈ afterBoundFound.issued := by decide +kernel
  have hterm : (1, (⟨5001, 1⟩ : TimeStamp)).1 < (2, (⟨7001, 1⟩ : TimeStamp)).1 := by decide
  have hlt := issued_lt_of_term_lt initial_twoNodes hreach hy hz hterm
  exact ⟨hy, hz, hlt⟩

/-- The first node leads and issues a timestamp, and its bound is lost before it is committed. -/
def boundLost : List (TermAction Two) :=
  [.elect .first, .load .first, .persist .first, .persisted .first, .lose 0, .elect .second,
    .load .second, .persist .second]

/-- The second node starts four seconds below the first. -/
theorem issued_not_lt_bound_lost :
    ∃ t, run (step rejectDeltas) twoNodes boundLost = some t ∧
      t.issued = [(1, ⟨5000, 1⟩), (2, ⟨1000, 1⟩)] ∧
      ¬TimeStamp.compose ⟨5000, 1⟩ < TimeStamp.compose ⟨1000, 1⟩ :=
  ⟨_, rfl, by decide, by decide⟩

end Cluster

end Omashu
