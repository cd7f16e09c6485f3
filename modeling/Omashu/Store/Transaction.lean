import Omashu.Store.Timed

/-!
# A transaction as a fold over its operations

`applyTransaction` performs the operations of a transaction one after the other on one managed Badger
transaction and commits that at the commit timestamp, or drops it at the first error. Seen from one
key, the operations on other keys do not matter: `SubCommand.onKey` is what an operation makes of the
entry of a key, and `allOnKey` performs a list of operations on it in order.

`applyTransaction_fold` says that this is all that a transaction does. It fails, and leaves the store,
exactly if the switch does not know one of the operations or the fold fails on some key. Otherwise each
key that is touched gets one version at the commit timestamp, the result of its fold from the entry that
is visible at the read timestamp, and every other version stays.
-/

namespace Omashu

open Lib

namespace SubCommand

variable {M : Merge} {env : Env} {values values' : Key → Option Bytes} {sub : SubCommand} {k : Key}

/-- The switch of `applyTransaction` has a case for the operation. -/
def Known : SubCommand → Prop
  | .deleteByPrefix _ => False
  | .unknown => False
  | _ => True

/-- What an operation makes of the entry of a key, or `none` where it fails on it. -/
def onKey (M : Merge) (env : Env) (k : Key) (e : Option Entry) (sub : SubCommand) :
    Option (Option Entry) :=
  if sub.Touches k then
    if AcceptsKey k then
      (sub.written M env fun _ => e.bind (·.live env.now)).map fun w => some w.2
    else none
  else some e

/-- What the operations of a list make of the entry of a key, one after the other. -/
def allOnKey (M : Merge) (env : Env) (k : Key) : Option Entry → List SubCommand → Option (Option Entry)
  | e, [] => some e
  | e, sub :: subs => (sub.onKey M env k e).bind fun e' => allOnKey M env k e' subs

/-- What an operation writes depends on the values of the keys that it touches. -/
theorem written_congr (h : ∀ k, sub.Touches k → values k = values' k) :
    sub.written M env values = sub.written M env values' := by
  cases sub with
  | update key delta deltaType messageName ttl | incrBy key delta | decrBy key delta =>
    simp only [written]
    rw [h key rfl]
  | _ => rfl

/-- An operation that the switch knows touches one key. -/
theorem Known.exists_touches (h : sub.Known) : ∃ key, ∀ k, sub.Touches k ↔ key = k := by
  cases sub with
  | deleteByPrefix | unknown => exact absurd h id
  | set key value ttl => exact ⟨key, fun _ => Iff.rfl⟩
  | update key delta deltaType messageName ttl => exact ⟨key, fun _ => Iff.rfl⟩
  | delete key | incrBy key delta | decrBy key delta => exact ⟨key, fun _ => Iff.rfl⟩

/-- An operation that writes something is one that the switch knows. -/
theorem known_of_written {w : Key × Entry} (h : sub.written M env values = some w) : sub.Known := by
  cases sub with
  | deleteByPrefix | unknown => exact absurd h (by simp [written])
  | _ => trivial

end SubCommand

namespace BTxn

/-- The entries that a transaction sees after one more pending write. -/
theorem entry_withWrite (txn : BTxn) (key : Key) (e : Entry) (k : Key) :
    (txn.withWrite key e).entry k = if key = k then some e else txn.entry k := by
  unfold entry withWrite
  rw [Versions.latest_cons]
  split_ifs with hk
  · rfl
  · rfl

end BTxn

namespace Fsm

open SubCommand (onKey allOnKey)

variable {M : Merge} {txn txn' : BTxn} {env : Env} {db db' : Store} {sub : SubCommand}
  {subs : List SubCommand} {k : Key}

/-- An operation on one key writes what it would write if it saw the value of that key everywhere. -/
theorem written_entry {key : Key} (htouches : ∀ k, sub.Touches k ↔ key = k) :
    (sub.written M env fun _ => (txn.entry key).bind (·.live env.now)) =
      sub.written M env (txn.lookup env.now) := by
  apply SubCommand.written_congr
  intro k hk
  obtain rfl := (htouches k).mp hk
  rfl

/-- An operation that succeeds leaves in each key what it makes of the entry. -/
theorem onKey_applySub (h : applySub M env txn sub = .ok txn') (k : Key) :
    sub.onKey M env k (txn.entry k) = some (txn'.entry k) := by
  obtain ⟨key, e, hw, hkey, rfl⟩ := applySub_eq_ok_iff.mp h
  obtain ⟨key', htouches⟩ := (SubCommand.known_of_written hw).exists_touches
  obtain rfl : key' = key := (htouches key).mp (SubCommand.touches_of_written hw)
  rw [BTxn.entry_withWrite, onKey]
  by_cases hk : key' = k
  · subst hk
    rw [if_pos ((htouches key').mpr rfl), if_pos hkey, written_entry htouches, hw, if_pos rfl]
    rfl
  · rw [if_neg (mt (htouches k).mp hk), if_neg hk]

/-- An operation succeeds exactly if the switch knows it and it fails on no key. -/
theorem exists_applySub_iff_onKey :
    (∃ txn', applySub M env txn sub = .ok txn') ↔
      sub.Known ∧ ∀ k, sub.onKey M env k (txn.entry k) ≠ none := by
  constructor
  · rintro ⟨txn', h⟩
    obtain ⟨key, e, hw, -, -⟩ := applySub_eq_ok_iff.mp h
    refine ⟨SubCommand.known_of_written hw, fun k => ?_⟩
    rw [onKey_applySub h k]
    exact Option.some_ne_none _
  · rintro ⟨hknown, h⟩
    obtain ⟨key, htouches⟩ := hknown.exists_touches
    have hkey := h key
    rw [onKey, if_pos ((htouches key).mpr rfl)] at hkey
    split_ifs at hkey with haccepts
    · rw [written_entry htouches] at hkey
      cases hw : sub.written M env (txn.lookup env.now) with
      | none => simp [hw] at hkey
      | some w =>
        obtain rfl := (htouches w.1).mp (SubCommand.touches_of_written hw)
        exact ⟨_, applySub_eq_ok_iff.mpr ⟨w.1, w.2, hw, haccepts, rfl⟩⟩
    · exact absurd rfl hkey

/-- Operations that all succeed leave in each key what they make of its entry in order. -/
theorem allOnKey_applySubs (h : applySubs M env txn subs = .ok txn') (k : Key) :
    allOnKey M env k (txn.entry k) subs = some (txn'.entry k) := by
  induction subs generalizing txn with
  | nil =>
    obtain rfl := Except.ok.inj h
    rfl
  | cons sub subs ih =>
    obtain ⟨txn₁, h₁, h⟩ := bind_eq_ok h
    rw [allOnKey, onKey_applySub h₁ k]
    exact ih h

/-- The operations of a transaction all succeed exactly if the switch knows them and they fail on no
key. -/
theorem exists_applySubs_iff_onKey :
    (∃ txn', applySubs M env txn subs = .ok txn') ↔
      (∀ sub ∈ subs, sub.Known) ∧ ∀ k, allOnKey M env k (txn.entry k) subs ≠ none := by
  induction subs generalizing txn with
  | nil => simp [applySubs, allOnKey]
  | cons sub subs ih =>
    constructor
    · rintro ⟨txn', h⟩
      obtain ⟨txn₁, h₁, h⟩ := bind_eq_ok h
      obtain ⟨hknown, -⟩ := exists_applySub_iff_onKey.mp ⟨txn₁, h₁⟩
      obtain ⟨hrest, hkeys⟩ := ih.mp ⟨txn', h⟩
      refine ⟨List.forall_mem_cons.mpr ⟨hknown, hrest⟩, fun k => ?_⟩
      rw [allOnKey, onKey_applySub h₁ k]
      exact hkeys k
    · rintro ⟨hknown, hkeys⟩
      obtain ⟨hknown, hrest⟩ := List.forall_mem_cons.mp hknown
      -- The fold cannot go on where the first operation fails.
      have hfirst : ∀ k, sub.onKey M env k (txn.entry k) ≠ none := by
        intro k hk
        apply hkeys k
        rw [allOnKey, hk]
        rfl
      obtain ⟨txn₁, h₁⟩ := exists_applySub_iff_onKey.mpr ⟨hknown, hfirst⟩
      have hkeys₁ : ∀ k, allOnKey M env k (txn₁.entry k) subs ≠ none := by
        intro k hk
        apply hkeys k
        rw [allOnKey, onKey_applySub h₁ k]
        exact hk
      obtain ⟨txn', h⟩ := ih.mpr ⟨hrest, hkeys₁⟩
      refine ⟨txn', ?_⟩
      rw [applySubs, h₁]
      exact h

/-- More pending writes leave a key with a pending write, if it has one. -/
theorem Extends.latest_ne_none {T : Key → Prop} (h : Extends T txn txn')
    (hk : Versions.latest txn.pendingWrites k ≠ none) : Versions.latest txn'.pendingWrites k ≠ none := by
  obtain ⟨-, -, ws, hws, -⟩ := h
  rw [hws, Versions.latest_append]
  intro hnone
  exact hk (Option.or_eq_none_iff.mp hnone).2

/-- The keys that operations touch have pending writes after them. -/
theorem latest_ne_none_of_touches (h : applySubs M env txn subs = .ok txn')
    (hk : ∃ sub ∈ subs, sub.Touches k) : Versions.latest txn'.pendingWrites k ≠ none := by
  induction subs generalizing txn with
  | nil =>
    obtain ⟨sub, hsub, -⟩ := hk
    exact absurd hsub List.not_mem_nil
  | cons sub subs ih =>
    obtain ⟨txn₁, h₁, h⟩ := bind_eq_ok h
    obtain ⟨sub', hsub', hk⟩ := hk
    rcases List.mem_cons.mp hsub' with rfl | hsub'
    · obtain ⟨key, e, hw, -, rfl⟩ := applySub_eq_ok_iff.mp h₁
      obtain ⟨key', htouches⟩ := (SubCommand.known_of_written hw).exists_touches
      obtain rfl := (htouches key).mp (SubCommand.touches_of_written hw)
      obtain rfl := (htouches k).mp hk
      apply (applySubs_extends h).latest_ne_none
      rw [BTxn.withWrite, Versions.latest_cons, if_pos rfl]
      exact Option.some_ne_none _
    · exact ih h ⟨sub', hsub', hk⟩

end Fsm

/-- The store after an application, which an error leaves as it was. -/
def Store.after (db : Store) : Except Err Store → Store
  | .ok db' => db'
  | .error _ => db

/-- What is in the store under a key at a read timestamp. -/
def Store.entryAt (db : Store) (k : Key) (readTs : ℕ) : Option Entry :=
  (Versions.newest db k readTs).map Version.val

namespace Fsm

open SubCommand (allOnKey)

/-- One of the operations fails on the entries that are visible at the read timestamp: the switch does not
know it, or the fold over its key ends at it. -/
def SomeFails (M : Merge) (env : Env) (db : Store) (readTs : ℕ) (subs : List SubCommand) : Prop :=
  (∃ sub ∈ subs, ¬sub.Known) ∨ ∃ k, allOnKey M env k (db.entryAt k readTs) subs = none

/-- The store `db'` is `db` with the operations performed: each key that one of them touches has exactly one
version at the commit timestamp, the result of its fold, and all other versions are kept. -/
structure Performed (M : Merge) (env : Env) (db : Store) (readTs commitTs : ℕ) (subs : List SubCommand)
    (db' : Store) : Prop where
  /-- The keys that are touched. -/
  touched : ∀ k, (∃ sub ∈ subs, sub.Touches k) →
    ∃ e, allOnKey M env k (db.entryAt k readTs) subs = some (some e) ∧
      Versions.writtenAt db' k commitTs = [⟨k, commitTs, e⟩]
  /-- The other keys and the other timestamps. -/
  kept : ∀ k ts, (¬∃ sub ∈ subs, sub.Touches k) ∨ ts ≠ commitTs →
    Versions.writtenAt db' k ts = Versions.writtenAt db k ts

/-- What a transaction that succeeds leaves. -/
theorem performed_commitAt {M : Merge} {env : Env} {db : Store} {readTs : ℕ} (commitTs : ℕ)
    {subs : List SubCommand} {txn : BTxn}
    (h : applySubs M env (BTxn.newTransactionAt db readTs) subs = .ok txn) :
    Performed M env db readTs commitTs subs (txn.commitAt commitTs) := by
  have hdb : txn.db = db := (applySubs_extends h).1
  constructor
  · intro k hk
    obtain ⟨e, he⟩ := Option.ne_none_iff_exists'.mp (latest_ne_none_of_touches h hk)
    have hentry : txn.entry k = some e := by rw [BTxn.entry, he]
    exact ⟨e, (allOnKey_applySubs h k).trans (congrArg some hentry), Versions.writtenAt_install he⟩
  · intro k ts hkept
    rw [BTxn.commitAt, hdb]
    apply Versions.writtenAt_install_of_ne
    exact hkept.imp (fun hk => (applySubs_extends h).latest_eq hk) Ne.symm

/-- A transaction of any operations, at any timestamps, on any store: if one of its operations fails, it
returns an error and leaves the store; otherwise it performs them, seen from each key one after the other. -/
theorem applyTransaction_fold (M : Merge) (db : Store) (env : Env) (readTs commitTs : ℕ)
    (subs : List SubCommand) :
    (SomeFails M env db readTs subs →
        (∃ err, applyTransaction M db env readTs commitTs subs = .error err) ∧
          db.after (applyTransaction M db env readTs commitTs subs) = db) ∧
      (¬SomeFails M env db readTs subs →
        ∃ db', applyTransaction M db env readTs commitTs subs = .ok db' ∧
          db.after (applyTransaction M db env readTs commitTs subs) = db' ∧
          Performed M env db readTs commitTs subs db') := by
  have hiff : (∃ txn, applySubs M env (BTxn.newTransactionAt db readTs) subs = .ok txn) ↔
      ¬SomeFails M env db readTs subs := by
    rw [exists_applySubs_iff_onKey, SomeFails, not_or]
    push Not
    rfl
  have htxn : applyTransaction M db env readTs commitTs subs =
      (applySubs M env (BTxn.newTransactionAt db readTs) subs).map (·.commitAt commitTs) := rfl
  rw [htxn]
  cases happ : applySubs M env (BTxn.newTransactionAt db readTs) subs with
  | error err =>
    have hfails : SomeFails M env db readTs subs := by
      by_contra hok
      obtain ⟨txn, h⟩ := hiff.mpr hok
      exact absurd (happ.symm.trans h) (by simp)
    exact ⟨fun _ => ⟨⟨err, rfl⟩, rfl⟩, fun hok => absurd hfails hok⟩
  | ok txn =>
    have hok := hiff.mp ⟨txn, happ⟩
    exact ⟨fun hfails => absurd hfails hok,
      fun _ => ⟨txn.commitAt commitTs, rfl, rfl, performed_commitAt commitTs happ⟩⟩

/-- A counter that is deleted and then counted twice in one transaction starts anew, in one version. -/
example : ∃ db', applyTransaction rejectDeltas [⟨[2], 1, .value (uint64ToBytes 7) 0⟩] someEnv 1 2
      [.delete [2], .incrBy [2] 3, .incrBy [2] 4] = .ok db' ∧
    Versions.writtenAt db' [2] 2 = [⟨[2], 2, .value (uint64ToBytes 7) 0⟩] :=
  ⟨_, rfl, by decide +kernel⟩

end Fsm

end Omashu
