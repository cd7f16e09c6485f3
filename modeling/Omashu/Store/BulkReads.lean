import Omashu.Lib.Ratchet
import Omashu.Store.Sequences

/-!
# Reading several keys at once

`BulkGet` looks its keys up one after the other in one transaction of `View`. On a single node this transaction reads
at the timestamp of the last commit, so that all lookups see the store as it was when the call began. The store of a
replica is managed, and there `View` opens the transaction at the greatest timestamp: each lookup finds the newest
version that has been applied by then. Nothing keeps the Ready loop from applying commands between two lookups.

`bulkGet_one_point_iff` says which calls still return the state of one point of the log, among the commands that are
applied while the call runs: those in which no two lookups are torn. A pair is torn if in between a command changes the
key that was looked up first, and this command or a later one changes the other. One transaction that writes both keys
is enough.
-/

namespace Omashu

open Lib

/-- `math.MaxUint64`, the read timestamp of `View` on a managed store. -/
def maxUint64 : ℕ := 2^64 - 1

/-- `Badger.BulkGet`, with the store that each lookup finds. -/
def bulkGet (env : Env) (readTs polls : ℕ) : List (Store × Key) → Except Err (List (Key × Bytes))
  | [] => .ok []
  | (db, key) :: rest =>
    -- The context is polled before each lookup.
    if env.doneAfter.any (· ≤ polls) then .error .ctxDone
    else do
      let value ← db.getAt env key readTs
      let result ← bulkGet env readTs (polls + 1) rest
      return (value.map (key, ·)).toList ++ result

namespace Fsm

variable {M : Merge} {db : Store} {cs : List (Env × Command)} {k : Key} {t : ℕ}

/-- The store after the first commands of a sequence. -/
def storeAt (M : Merge) (db : Store) (cs : List (Env × Command)) (t : ℕ) : Store := applyAll M db (cs.take t)

/-- The version of a key that a lookup finds there. -/
def versionAt (M : Merge) (db : Store) (cs : List (Env × Command)) (k : Key) (t : ℕ) : Option (Version Key Entry) :=
  Versions.newest (storeAt M db cs t) k maxUint64

/-- Every command has a commit timestamp of its own. -/
structure OwnTimestamps (db : Store) (cs : List (Env × Command)) : Prop where
  /-- It is not that of another command. -/
  nodup : (cs.map fun c => c.2.commitTs).Nodup
  /-- Nothing in the store has it. -/
  fresh : ∀ c ∈ cs, ∀ x ∈ db, x.ts ≠ c.2.commitTs

/-- The rank of what a lookup finds: the newer the version, the higher. -/
def versionRank : Option (Version Key Entry) → ℕ
  | none => 0
  | some x => x.ts + 1

/-! ## Lookups while commands are applied -/

/-- What is in the store was there before, or has the timestamp of one of the commands. -/
theorem mem_applyAll {x : Version Key Entry} (h : x ∈ applyAll M db cs) :
    x ∈ db ∨ ∃ c ∈ cs, x.ts = c.2.commitTs := by
  induction cs generalizing db with
  | nil => exact .inl h
  | cons c cs ih =>
    rcases ih h with h | ⟨c', hc', hts⟩
    · unfold applied at h
      cases happ : apply M db c.1 c.2 with
      | error e =>
        rw [happ] at h
        exact .inl h
      | ok db' =>
        rw [happ] at h
        obtain ⟨ws, rfl, -⟩ := apply_spec happ
        rcases Versions.mem_install h with ⟨hts, -⟩ | h
        · exact .inr ⟨c, List.mem_cons_self, hts⟩
        · exact .inl h
    · exact .inr ⟨c', List.mem_cons_of_mem _ hc', hts⟩

/-- A command whose timestamp nothing else has leaves what a lookup finds, or puts something newer there. -/
theorem newest_applied {c : Env × Command} (h : ∀ x ∈ db, x.ts ≠ c.2.commitTs) (r : ℕ) :
    Versions.newest (applied M db c) k r = Versions.newest db k r ∨
      versionRank (Versions.newest db k r) < versionRank (Versions.newest (applied M db c) k r) := by
  unfold applied
  cases happ : apply M db c.1 c.2 with
  | error e => exact .inl rfl
  | ok db' =>
    obtain ⟨ws, rfl, -⟩ := apply_spec happ
    show Versions.newest (Versions.install db c.2.commitTs ws) k r = _ ∨ _ <
      versionRank (Versions.newest (Versions.install db c.2.commitTs ws) k r)
    cases hlatest : Versions.latest ws k with
    | none =>
      have hother := Versions.latest_eq_none_iff.mp hlatest
      exact .inl (Versions.newest_congr (Versions.visible_install_of_notMem hother))
    | some e =>
      rcases Nat.lt_or_ge r c.2.commitTs with hlt | hr
      · exact .inl (Versions.newest_congr (Versions.visible_install_of_lt hlt))
      · cases hnewest : Versions.newest db k r with
        | none =>
          have hnone : Versions.visible db k r = [] := List.argmax_eq_none.mp hnewest
          rw [Versions.newest_install hr (fun x hx hk hle => ?_) hlatest]
          · exact .inr (Nat.succ_pos _)
          · have hmem : x ∈ Versions.visible db k r := Versions.mem_visible.mpr ⟨hx, hk, hle⟩
            rw [hnone] at hmem
            cases hmem
        | some m =>
          obtain ⟨hm, -, -⟩ := Versions.newest_mem hnewest
          rcases Nat.lt_or_gt_of_ne (h m hm) with hlt | hgt
          · rw [Versions.newest_install hr (fun x hx hk hle => ?_) hlatest]
            · exact .inr (Nat.succ_lt_succ hlt)
            · have hmax : x.ts ≤ m.ts :=
                List.le_of_mem_argmax (Versions.mem_visible.mpr ⟨hx, hk, hle⟩) hnewest
              exact hmax.trans hlt.le
          · exact .inl (Versions.newest_install_of_lt hnewest hgt)

/-- One command more. -/
theorem storeAt_succ {c : Env × Command} (h : cs[t]? = some c) :
    storeAt M db cs (t + 1) = applied M (storeAt M db cs t) c := by
  unfold storeAt applyAll
  rw [List.take_add_one, h, List.foldl_append]
  rfl

/-- After the last command nothing changes. -/
theorem storeAt_succ_of_none (h : cs[t]? = none) : storeAt M db cs (t + 1) = storeAt M db cs t := by
  have hlen : cs.length ≤ t := List.getElem?_eq_none_iff.mp h
  unfold storeAt
  rw [List.take_of_length_le hlen, List.take_of_length_le (Nat.le_succ_of_le hlen)]

/-- The timestamp of the next command is not in the store. -/
theorem OwnTimestamps.fresh_at (h : OwnTimestamps db cs) {c : Env × Command} (hc : cs[t]? = some c) :
    ∀ x ∈ storeAt M db cs t, x.ts ≠ c.2.commitTs := by
  intro x hx hts
  rcases mem_applyAll hx with hx | ⟨c', hc', hts'⟩
  · exact h.fresh c (List.mem_of_getElem? hc) x hx hts
  · -- The command with that timestamp comes before the next one, so it is another one.
    have hnodup := h.nodup
    rw [← List.take_append_drop t cs, List.map_append] at hnodup
    have hrest : c ∈ cs.drop t := by
      refine List.mem_of_getElem? (i := 0) ?_
      rw [List.getElem?_drop]
      exact hc
    refine List.disjoint_of_nodup_append hnodup (List.mem_map_of_mem hc') ?_
    rw [← hts', hts]
    exact List.mem_map_of_mem hrest

/-- What a lookup finds does not come back once it is replaced. -/
theorem OwnTimestamps.ratchet (h : OwnTimestamps db cs) (k : Key) : Ratchet versionRank (versionAt M db cs k) := by
  intro t
  unfold versionAt
  cases hc : cs[t]? with
  | none => exact .inl (congrArg (Versions.newest · k maxUint64) (storeAt_succ_of_none hc))
  | some c =>
    rw [storeAt_succ hc]
    exact newest_applied (h.fresh_at hc) maxUint64

/-- A lookup depends on the version that it finds. -/
theorem getAt_congr {db' : Store} {env : Env} {r : ℕ} (h : Versions.newest db k r = Versions.newest db' k r) :
    db.getAt env k r = db'.getAt env k r := by
  unfold Store.getAt BTxn.getWithTxn
  rw [lookup_newTransactionAt, lookup_newTransactionAt, h]

/-- A call depends on the versions that its lookups find. -/
theorem bulkGet_congr {α : Type} {stores stores' : α → Store} {key : α → Key} {env : Env} {r polls : ℕ} {l : List α}
    (h : ∀ a ∈ l, Versions.newest (stores a) (key a) r = Versions.newest (stores' a) (key a) r) :
    bulkGet env r polls (l.map fun a => (stores a, key a)) =
      bulkGet env r polls (l.map fun a => (stores' a, key a)) := by
  induction l generalizing polls with
  | nil => rfl
  | cons a l ih =>
    obtain ⟨ha, hl⟩ := List.forall_mem_cons.mp h
    simp only [List.map_cons, bulkGet]
    rw [getAt_congr ha, ih hl]

/-- `BulkGet` on a replica, with the number of commands that have been applied before each lookup, finds the versions
of one point of the log exactly if no two of its lookups are torn. It returns then what it returns at that point. -/
theorem bulkGet_one_point_iff (M : Merge) (hcs : OwnTimestamps db cs) (env : Env) {reads : List (ℕ × Key)}
    (hreads : ∀ r ∈ reads, r.1 ≤ cs.length) :
    ((∃ t ≤ cs.length, ∀ r ∈ reads, versionAt M db cs r.2 t = versionAt M db cs r.2 r.1) ↔
        ∀ r ∈ reads, ∀ r' ∈ reads, ¬Torn (versionAt M db cs) r r') ∧
      ((∀ r ∈ reads, ∀ r' ∈ reads, ¬Torn (versionAt M db cs) r r') → ∃ t ≤ cs.length,
        bulkGet env maxUint64 0 (reads.map fun r => (storeAt M db cs r.1, r.2)) =
          bulkGet env maxUint64 0 (reads.map fun r => (storeAt M db cs t, r.2))) := by
  have hiff := exists_common_point_iff (fun k => hcs.ratchet (M := M) k) (Nat.zero_le cs.length)
    (fun r _ => Nat.zero_le r.1) hreads
  constructor
  · rw [← hiff]
    exact exists_congr fun t => (and_iff_right (Nat.zero_le t)).symm
  · intro hpairs
    obtain ⟨t, -, ht, hpoint⟩ := hiff.mpr hpairs
    exact ⟨t, ht, bulkGet_congr fun r hr => (hpoint r hr).symm⟩

/-- A transaction that sets two keys. -/
def setBoth : List (Env × Command) :=
  [(⟨0, none⟩, ⟨1, 2, .transaction [.set [97] [1] none, .set [98] [2] none]⟩)]

/-- A call that looks up the first key before the transaction and the second one after it has found the versions of no
point. -/
theorem bulkGet_one_point_iff_setBoth :
    ¬∃ t ≤ setBoth.length, ∀ r ∈ [(0, [97]), (1, [98])],
      versionAt rejectDeltas [] setBoth r.2 t = versionAt rejectDeltas [] setBoth r.2 r.1 := by
  have hcs : OwnTimestamps [] setBoth := ⟨by decide, fun c _ x hx => absurd hx List.not_mem_nil⟩
  rw [(bulkGet_one_point_iff rejectDeltas hcs ⟨0, none⟩ (by decide)).1]
  intro h
  refine h (0, [97]) List.mem_cons_self (1, [98]) (List.mem_cons_of_mem _ List.mem_cons_self) ?_
  exact ⟨1, 1, Nat.one_pos, le_rfl, le_rfl, by decide, by decide⟩

end Fsm

end Omashu
