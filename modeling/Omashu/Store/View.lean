import Omashu.Lib.Lift
import Omashu.Store.Fsm
import Omashu.Store.Reads

/-!
# What a command sees decides what it writes

Inside a transaction the operations of a command see the live values `txn.lookup now`, a function of
the keys. Two transactions are `Alike` when they see the same values and have the same pending
writes, none of which expires. A command without a time to live keeps them alike (`perform_alike`),
whatever else the two stores hold and whatever the two clocks show. So the writes of such a command
are determined by the values that it sees at its read timestamp (`writes_congr`), and applying it
installs those writes (`apply_eq_install`).
-/

namespace Omashu

open Lib

/-- The entry does not expire. -/
def Entry.Lasting : Entry → Prop
  | .value _ expiresAt => expiresAt = 0
  | .tombstone => True

instance : (e : Entry) → Decidable e.Lasting
  | .value _ expiresAt => inferInstanceAs (Decidable (expiresAt = 0))
  | .tombstone => inferInstanceAs (Decidable True)

/-- No version of the store expires. -/
def Store.Lasting (db : Store) : Prop := ∀ x ∈ db, x.val.Lasting

/-- An entry that does not expire reads alike at all times. -/
theorem Entry.Lasting.live_eq {e : Entry} (h : e.Lasting) (now now' : ℤ) :
    e.live now = e.live now' := by
  cases e with
  | value b expiresAt =>
    obtain rfl : expiresAt = 0 := h
    rfl
  | tombstone => rfl

/-- The time to live that an operation carries. -/
def SubCommand.ttl : SubCommand → Option ℤ
  | .set _ _ ttl => ttl
  | .update _ _ _ _ ttl => ttl
  | _ => none

/-- No operation of the command carries a time to live. -/
def Command.Untimed (c : Command) : Prop := ∀ sub ∈ c.body.subCommands, sub.ttl = none

instance (c : Command) : Decidable c.Untimed :=
  inferInstanceAs (Decidable (∀ sub ∈ c.body.subCommands, sub.ttl = none))

namespace BTxn

variable {txn txn' : BTxn} {env env' : Env} {key : Key} {e : Entry}

/-- The transaction with one more pending write. -/
def withWrite (txn : BTxn) (key : Key) (e : Entry) : BTxn :=
  { txn with pendingWrites := (key, e) :: txn.pendingWrites }

/-- `txn.modify` adds the write of a key that passes its checks. -/
theorem modify_eq (txn : BTxn) (key : Key) (e : Entry) :
    txn.modify key e = (checkKey key).bind fun _ => .ok (txn.withWrite key e) := rfl

/-- A pending write is what the transaction sees of its key. -/
theorem lookup_withWrite (txn : BTxn) (key : Key) (e : Entry) (now : ℤ) :
    (txn.withWrite key e).lookup now = Function.update (txn.lookup now) key (e.live now) := by
  funext k
  unfold lookup entry withWrite
  rw [Versions.latest_cons]
  by_cases hk : key = k
  · subst hk
    simp
  · rw [if_neg hk, Function.update_of_ne (Ne.symm hk)]

/-- What a transaction on a store sees before it writes. -/
theorem lookup_eq_of_lasting {db : Store} (h : db.Lasting) (r : ℕ) (now now' : ℤ) :
    (newTransactionAt db r).lookup now = (newTransactionAt db r).lookup now' := by
  funext k
  rw [lookup_newTransactionAt, lookup_newTransactionAt]
  cases hn : Versions.newest db k r with
  | none => rfl
  | some x => exact (h x (Versions.newest_mem hn).1).live_eq now now'

/-- The transactions see the same values and have the same pending writes, which do not expire. -/
structure Alike (now now' : ℤ) (txn txn' : BTxn) : Prop where
  /-- The pending writes are the same. -/
  pendingWrites : txn.pendingWrites = txn'.pendingWrites
  /-- None of them expires. -/
  lasting : ∀ w ∈ txn.pendingWrites, w.2.Lasting
  /-- The same values are seen. -/
  lookup : txn.lookup now = txn'.lookup now'

/-- Transactions that have not written yet are alike where they see the same values. -/
theorem Alike.newTransactionAt {db db' : Store} {r : ℕ} {now now' : ℤ}
    (h : (newTransactionAt db r).lookup now = (newTransactionAt db' r).lookup now') :
    Alike now now' (newTransactionAt db r) (newTransactionAt db' r) :=
  ⟨rfl, fun _ hw => absurd hw List.not_mem_nil, h⟩

/-- Reads of transactions that are alike agree. -/
theorem Alike.getWithTxn (h : Alike env.now env'.now txn txn') (key : Key) :
    txn.getWithTxn env key = txn'.getWithTxn env' key := by
  unfold BTxn.getWithTxn
  rw [h.lookup]

/-- A write that does not expire keeps transactions alike. -/
theorem Alike.modify {now now' : ℤ} (h : Alike now now' txn txn') (he : e.Lasting) :
    LiftRel (Alike now now') (txn.modify key e) (txn'.modify key e) := by
  rw [modify_eq, modify_eq]
  apply LiftRel.bind_same
  intro _
  refine .ok ⟨?_, ?_, ?_⟩
  · exact congrArg ((key, e) :: ·) h.pendingWrites
  · intro w hw
    rcases List.mem_cons.mp hw with rfl | hw
    · exact he
    · exact h.lasting w hw
  · rw [lookup_withWrite, lookup_withWrite, h.lookup, he.live_eq now now']

/-- A set without a time to live keeps transactions alike. -/
theorem Alike.setWithTxn (h : Alike env.now env'.now txn txn') (value : Bytes) :
    LiftRel (Alike env.now env'.now) (txn.setWithTxn env key value none)
      (txn'.setWithTxn env' key value none) :=
  h.modify rfl

/-- An increment keeps transactions alike. -/
theorem Alike.incrByWithTxn (h : Alike env.now env'.now txn txn') (delta : UInt64) :
    LiftRel (Alike env.now env'.now) (txn.incrByWithTxn env key delta)
      (txn'.incrByWithTxn env' key delta) := by
  unfold BTxn.incrByWithTxn
  rw [h.getWithTxn]
  apply LiftRel.bind_same
  intro stored
  cases stored with
  | none => exact h.setWithTxn _
  | some b =>
    cases hb : bytesToUint64 b with
    | none => simp only [hb]; exact .error _
    | some currentVal => simp only [hb]; exact h.setWithTxn _

/-- A decrement keeps transactions alike. -/
theorem Alike.decrByWithTxn (h : Alike env.now env'.now txn txn') (delta : UInt64) :
    LiftRel (Alike env.now env'.now) (txn.decrByWithTxn env key delta)
      (txn'.decrByWithTxn env' key delta) := by
  unfold BTxn.decrByWithTxn
  rw [h.getWithTxn]
  apply LiftRel.bind_same
  intro stored
  cases stored with
  | none => exact h.setWithTxn _
  | some b =>
    cases hb : bytesToUint64 b with
    | none => simp only [hb]; exact .error _
    | some currentVal => simp only [hb]; exact h.setWithTxn _

/-- Deleting the same keys keeps transactions alike. -/
theorem Alike.deleteKeys {now now' : ℤ} {keys : List Key} (h : Alike now now' txn txn') :
    LiftRel (Alike now now') (txn.deleteKeys keys) (txn'.deleteKeys keys) := by
  induction keys generalizing txn txn' with
  | nil => exact .ok h
  | cons k keys ih => exact LiftRel.bind (h.modify trivial) fun _ _ h' => ih h'

/-- A prefix deletion keeps transactions alike, where the contexts are polled as often. -/
theorem Alike.deleteByPrefixWithTxn (h : Alike env.now env'.now txn txn')
    (hpolls : env.doneAfter = env'.doneAfter) (pre : Bytes) :
    LiftRel (Alike env.now env'.now) (txn.deleteByPrefixWithTxn env pre)
      (txn'.deleteByPrefixWithTxn env' pre) := by
  unfold BTxn.deleteByPrefixWithTxn BTxn.keysVisited
  rw [liveKeys_congr h.lookup, hpolls]
  exact h.deleteKeys

end BTxn

namespace Fsm

open BTxn (Alike)

variable {M : Merge} {txn txn' : BTxn} {env env' : Env} {db db' : Store} {c : Command}

/-- An update without a time to live keeps transactions alike. -/
theorem updateWithTxn_alike (h : Alike env.now env'.now txn txn') (key : Key) (delta : Bytes)
    (deltaType : UpdateDeltaType) (messageName : Bytes) :
    LiftRel (Alike env.now env'.now) (updateWithTxn M env txn key delta deltaType messageName none)
      (updateWithTxn M env' txn' key delta deltaType messageName none) := by
  cases deltaType with
  | unknownDelta => exact .error _
  | json =>
    apply LiftRel.bind_same
    intro _
    unfold updateJsonWithTxn
    rw [h.getWithTxn]
    exact LiftRel.bind_same fun stored => LiftRel.bind_same fun merged => h.setWithTxn _
  | protobuf =>
    apply LiftRel.bind_same
    intro _
    unfold updateProtobufWithTxn
    rw [h.getWithTxn]
    exact LiftRel.bind_same fun stored => LiftRel.bind_same fun merged => h.setWithTxn _

/-- A sub-command without a time to live keeps transactions alike. -/
theorem applySub_alike (h : Alike env.now env'.now txn txn') {sub : SubCommand}
    (httl : sub.ttl = none) :
    LiftRel (Alike env.now env'.now) (applySub M env txn sub) (applySub M env' txn' sub) := by
  cases sub with
  | set key value ttl =>
    obtain rfl : ttl = none := httl
    exact h.setWithTxn _
  | update key delta deltaType messageName ttl =>
    obtain rfl : ttl = none := httl
    exact updateWithTxn_alike h _ _ _ _
  | delete key => exact h.modify trivial
  | deleteByPrefix pre => exact .error _
  | incrBy key delta => exact h.incrByWithTxn _
  | decrBy key delta => exact h.decrByWithTxn _
  | unknown => exact .error _

/-- Sub-commands without a time to live keep transactions alike. -/
theorem applySubs_alike {subs : List SubCommand} (h : Alike env.now env'.now txn txn')
    (httl : ∀ sub ∈ subs, sub.ttl = none) :
    LiftRel (Alike env.now env'.now) (applySubs M env txn subs) (applySubs M env' txn' subs) := by
  induction subs generalizing txn txn' with
  | nil => exact .ok h
  | cons sub subs ih =>
    refine LiftRel.bind (applySub_alike h (httl sub List.mem_cons_self)) ?_
    intro txn₁ txn₁' h₁
    exact ih h₁ fun sub' hsub' => httl sub' (List.mem_cons_of_mem _ hsub')

/-- The operations of a command without a time to live keep transactions alike. -/
theorem perform_alike (h : Alike env.now env'.now txn txn')
    (hpolls : env.doneAfter = env'.doneAfter) (hc : c.Untimed) :
    LiftRel (Alike env.now env'.now) (perform M env txn c.body) (perform M env' txn' c.body) := by
  obtain ⟨readTs, commitTs, body⟩ := c
  cases body with
  | transaction subs => exact applySubs_alike h hc
  | single sub =>
    cases sub with
    | deleteByPrefix pre => exact h.deleteByPrefixWithTxn hpolls pre
    | _ =>
      rw [perform_single (by simp), perform_single (by simp)]
      exact applySub_alike h (hc _ List.mem_cons_self)

/-- The writes that a command installs. -/
def writes (M : Merge) (db : Store) (env : Env) (c : Command) : Except Err (List (Key × Entry)) :=
  (perform M env (BTxn.newTransactionAt db c.readTs) c.body).map BTxn.pendingWrites

/-- Applying a command installs its writes at its commit timestamp. -/
theorem apply_eq_install (db : Store) (env : Env) (c : Command) :
    apply M db env c = (writes M db env c).map (Versions.install db c.commitTs) := by
  rw [apply_eq_newTransactionAt]
  unfold Store.newTransactionAt writes
  dsimp only
  cases hp : perform M env (BTxn.newTransactionAt db c.readTs) c.body with
  | error e => rfl
  | ok txn =>
    obtain ⟨hdb, -⟩ := perform_extends hp
    simp only [Except.map, BTxn.commitAt, hdb, BTxn.newTransactionAt]

/-- The writes of a command without a time to live are determined by the values that it sees. -/
theorem writes_congr (hc : c.Untimed) (hpolls : env.doneAfter = env'.doneAfter)
    (hview : (BTxn.newTransactionAt db c.readTs).lookup env.now =
      (BTxn.newTransactionAt db' c.readTs).lookup env'.now) :
    writes M db env c = writes M db' env' c :=
  (perform_alike (Alike.newTransactionAt hview) hpolls hc).map_eq fun _ _ h => h.pendingWrites

/-- A command without a time to live writes nothing that expires. -/
theorem writes_lasting {ws : List (Key × Entry)} (hc : c.Untimed) (h : writes M db env c = .ok ws) :
    ∀ w ∈ ws, w.2.Lasting := by
  -- The transaction is alike to itself.
  have halike : LiftRel (Alike env.now env.now)
      (perform M env (BTxn.newTransactionAt db c.readTs) c.body)
      (perform M env (BTxn.newTransactionAt db c.readTs) c.body) :=
    perform_alike (Alike.newTransactionAt rfl) rfl hc
  obtain ⟨txn, hp, rfl⟩ := map_eq_ok h
  rw [hp, LiftRel.ok_iff] at halike
  exact halike.lasting

/-- A command without a time to live leaves a store without expiring versions. -/
theorem lasting_apply (hdb : db.Lasting) (hc : c.Untimed) (h : apply M db env c = .ok db') :
    db'.Lasting := by
  rw [apply_eq_install] at h
  obtain ⟨ws, hw, rfl⟩ := map_eq_ok h
  intro x hx
  rcases Versions.mem_install hx with ⟨-, w, hws, -, hval⟩ | hx
  · rw [← hval]
    exact writes_lasting hc hw w hws
  · exact hdb x hx

end Fsm

end Omashu
