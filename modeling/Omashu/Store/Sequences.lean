import Mathlib.Data.Finset.Insert
import Omashu.Store.Transaction

/-!
# Sequences of commands

`applyAll` applies commands one after the other, each in its own surroundings, and goes on after one that
fails: a failed `Apply` leaves the store as it was.

A command writes at its commit timestamp only, so a read at an earlier timestamp returns the same before and
after (`snapshot_reads_repeatable`). Commands that write without reading (sets without a time to live,
deletions, and transactions of these) write the same whatever is in the store, so a store that has applied
them in one order has the same versions as one that has applied them in another, or some of them twice
(`blind_writes_commute`).
-/

namespace Omashu

open Lib

namespace Fsm

variable {M : Merge} {db : Store} {k : Key} {r : ℕ}

/-- The store after one application, whether it succeeds or fails. -/
def applied (M : Merge) (db : Store) (c : Env × Command) : Store := db.after (apply M db c.1 c.2)

/-- The store after the applications of a sequence. -/
def applyAll (M : Merge) (db : Store) (cs : List (Env × Command)) : Store := cs.foldl (applied M) db

/-- One application leaves what is visible below its commit timestamp. -/
theorem visible_applied_of_lt {c : Env × Command} (h : r < c.2.commitTs) :
    Versions.visible (applied M db c) k r = Versions.visible db k r := by
  unfold applied
  cases happ : apply M db c.1 c.2 with
  | error e => rfl
  | ok db' => exact visible_apply_of_lt happ h

/-- A sequence leaves what is visible below its commit timestamps. -/
theorem visible_applyAll_of_lt {cs : List (Env × Command)} (h : ∀ c ∈ cs, r < c.2.commitTs) :
    Versions.visible (applyAll M db cs) k r = Versions.visible db k r := by
  induction cs generalizing db with
  | nil => rfl
  | cons c cs ih =>
    obtain ⟨hc, hcs⟩ := List.forall_mem_cons.mp h
    calc Versions.visible (applyAll M (applied M db c) cs) k r
        = Versions.visible (applied M db c) k r := ih hcs
      _ = Versions.visible db k r := visible_applied_of_lt hc

end Fsm

/-- Transactions that see the same values read the same, where their contexts are polled as often. -/
theorem BTxn.reads_congr {txn txn' : BTxn} {env env' : Env}
    (hlookup : txn.lookup env.now = txn'.lookup env'.now) (hpolls : env.doneAfter = env'.doneAfter) :
    (∀ k, txn.getWithTxn env k = txn'.getWithTxn env' k) ∧
      (∀ p, txn.getByPrefixWithTxn env p = txn'.getByPrefixWithTxn env' p) ∧
      ∀ p, txn.getKeysByPrefixWithTxn env p = txn'.getKeysByPrefixWithTxn env' p := by
  have hkeys : ∀ p, txn.getKeysByPrefixWithTxn env p = txn'.getKeysByPrefixWithTxn env' p := by
    intro p
    unfold BTxn.getKeysByPrefixWithTxn
    rw [liveKeys_congr hlookup, hpolls]
  refine ⟨fun k => ?_, fun p => ?_, hkeys⟩
  · unfold BTxn.getWithTxn
    rw [hlookup]
  · unfold BTxn.getByPrefixWithTxn
    rw [hkeys p, hlookup]

/-- Reads at a timestamp are repeatable: a sequence of commands of any kind that commit above it, each of which
may succeed or fail, leaves every point read and every prefix read at the timestamp. The reads before and after
may be at different times, if no entry at or below the timestamp expires in between. -/
theorem Fsm.snapshot_reads_repeatable (M : Merge) (db : Store) (r : ℕ) {cs : List (Env × Command)}
    (habove : ∀ c ∈ cs, r < c.2.commitTs) {env env' : Env} (hpolls : env.doneAfter = env'.doneAfter)
    (hlive : ∀ x ∈ db, x.ts ≤ r → x.val.live env.now = x.val.live env'.now) :
    (∀ k, (applyAll M db cs).getAt env' k r = db.getAt env k r) ∧
      (∀ p, (applyAll M db cs).getByPrefixAt env' p r = db.getByPrefixAt env p r) ∧
      ∀ p, (applyAll M db cs).getKeysByPrefixAt env' p r = db.getKeysByPrefixAt env p r := by
  refine BTxn.reads_congr ?_ hpolls.symm
  funext k
  have hnewest : Versions.newest (applyAll M db cs) k r = Versions.newest db k r :=
    Versions.newest_congr (visible_applyAll_of_lt habove)
  rw [lookup_newTransactionAt, lookup_newTransactionAt, hnewest]
  cases hn : Versions.newest db k r with
  | none => rfl
  | some x =>
    obtain ⟨hx, -, hts⟩ := Versions.newest_mem hn
    exact (hlive x hx hts).symm

/-- A store with two keys. -/
def Store.twoKeys : Store := [⟨[1], 2, .value [7] 0⟩, ⟨[1, 2], 1, .value [8] 0⟩]

/-- A transaction, a prefix deletion, and an increment that fails. -/
def Fsm.threeCommands : List (Env × Command) :=
  [(someEnv, ⟨2, 3, .transaction [.set [1] [9] none, .delete [1, 2]]⟩),
    (someEnv, ⟨0, 4, .single (.deleteByPrefix [1])⟩), (someEnv, ⟨2, 5, .single (.incrBy [1] 1)⟩)]

/-- Reads below three commands. -/
theorem Fsm.snapshot_reads_repeatable_three :
    (applyAll rejectDeltas Store.twoKeys threeCommands).getAt ⟨5, none⟩ [1] 2 = .ok (some [7]) ∧
      (applyAll rejectDeltas Store.twoKeys threeCommands).getKeysByPrefixAt ⟨5, none⟩ [1] 2 =
        .ok [[1], [1, 2]] := by
  have habove : ∀ c ∈ threeCommands, 2 < c.2.commitTs := by decide
  have hpolls : someEnv.doneAfter = (⟨5, none⟩ : Env).doneAfter := rfl
  have hreads := snapshot_reads_repeatable rejectDeltas Store.twoKeys 2 habove hpolls (by decide)
  refine ⟨(hreads.1 [1]).trans ?_, (hreads.2.2 [1]).trans ?_⟩
  · decide +kernel
  · decide +kernel

/-! ## Writes that do not read -/

namespace SubCommand

/-- A `SET` without a time to live, or a `DELETE`: a blind write. -/
def WriteOnly : SubCommand → Prop
  | .set _ _ ttl => ttl = none
  | .delete _ => True
  | _ => False

instance : (sub : SubCommand) → Decidable sub.WriteOnly
  | .set _ _ ttl => inferInstanceAs (Decidable (ttl = none))
  | .delete _ => inferInstanceAs (Decidable True)
  | .update .. => inferInstanceAs (Decidable False)
  | .deleteByPrefix _ => inferInstanceAs (Decidable False)
  | .incrBy .. => inferInstanceAs (Decidable False)
  | .decrBy .. => inferInstanceAs (Decidable False)
  | .unknown => inferInstanceAs (Decidable False)

/-- What a blind operation writes. -/
def blindWrite : SubCommand → Option (Key × Entry)
  | .set key value _ => some (key, .value value 0)
  | .delete key => some (key, .tombstone)
  | _ => none

/-- A blind operation writes the same whatever it sees. -/
theorem WriteOnly.written_eq {sub : SubCommand} (h : sub.WriteOnly) (M : Merge) (env : Env)
    (values : Key → Option Bytes) : sub.written M env values = sub.blindWrite := by
  cases sub with
  | set key value ttl =>
    obtain rfl : ttl = none := h
    rfl
  | delete key => rfl
  | _ => exact absurd h id

end SubCommand

namespace Command

/-- A command of blind operations only. -/
def WriteOnly (c : Command) : Prop := ∀ sub ∈ c.body.subCommands, sub.WriteOnly

instance (c : Command) : Decidable c.WriteOnly :=
  inferInstanceAs (Decidable (∀ sub ∈ c.body.subCommands, sub.WriteOnly))

/-- What the blind operations of a command write, in their order. -/
def blindWrites (c : Command) : List (Key × Entry) := c.body.subCommands.filterMap SubCommand.blindWrite

/-- What the last operation of the command that touches the key writes. The command writes nothing at all if
Badger does not accept one of its keys. -/
def lastWrite (c : Command) (k : Key) : Option Entry :=
  if ∀ w ∈ c.blindWrites, AcceptsKey w.1 then Versions.latest c.blindWrites.reverse k else none

end Command

namespace Fsm

variable {M : Merge} {env : Env} {txn txn' : BTxn} {db : Store} {k : Key} {r : ℕ} {x : Version Key Entry}

/-- Blind operations in a transaction add their writes, if Badger accepts their keys. -/
theorem applySubs_blind {subs : List SubCommand} (h : ∀ sub ∈ subs, sub.WriteOnly) :
    applySubs M env txn subs = .ok txn' ↔
      (∀ w ∈ subs.filterMap SubCommand.blindWrite, AcceptsKey w.1) ∧
        txn' = { txn with
          pendingWrites := (subs.filterMap SubCommand.blindWrite).reverse ++ txn.pendingWrites } := by
  induction subs generalizing txn with
  | nil => simp [applySubs, eq_comm]
  | cons sub subs ih =>
    obtain ⟨hsub, hsubs⟩ := List.forall_mem_cons.mp h
    have hwritten := hsub.written_eq M env (txn.lookup env.now)
    cases hw : sub.blindWrite with
    | none =>
      cases sub with
      | set key value ttl => exact absurd hw (by simp [SubCommand.blindWrite])
      | delete key => exact absurd hw (by simp [SubCommand.blindWrite])
      | _ => exact absurd hsub id
    | some w =>
      rw [List.filterMap_cons_some hw, List.forall_mem_cons, List.reverse_cons, List.append_assoc]
      rw [hw] at hwritten
      constructor
      · intro happ
        obtain ⟨txn₁, h₁, happ⟩ := bind_eq_ok happ
        obtain ⟨key, e, hwe, hkey, rfl⟩ := applySub_eq_ok_iff.mp h₁
        obtain rfl := Option.some.inj (hwritten.symm.trans hwe)
        obtain ⟨hkeys, rfl⟩ := (ih hsubs).mp happ
        exact ⟨⟨hkey, hkeys⟩, rfl⟩
      · rintro ⟨⟨hkey, hkeys⟩, rfl⟩
        have h₁ : applySub M env txn sub = .ok (txn.withWrite w.1 w.2) :=
          applySub_eq_ok_iff.mpr ⟨w.1, w.2, hwritten, hkey, rfl⟩
        rw [applySubs, h₁]
        exact (ih hsubs).mpr ⟨hkeys, rfl⟩

variable (M db) in
/-- Applying a blind command installs its last write of each key. -/
theorem applied_blind {c : Env × Command} (h : c.2.WriteOnly) :
    ∃ ws, applied M db c = Versions.install db c.2.commitTs ws ∧
      ∀ k, Versions.latest ws k = c.2.lastWrite k := by
  obtain ⟨env, c⟩ := c
  have hperform : perform M env (BTxn.newTransactionAt db c.readTs) c.body =
      applySubs M env (BTxn.newTransactionAt db c.readTs) c.body.subCommands := by
    apply perform_eq_applySubs
    intro pre hb
    have hsub := h (.deleteByPrefix pre)
    rw [show c.body.subCommands = [.deleteByPrefix pre] from congrArg Body.subCommands hb] at hsub
    exact hsub List.mem_cons_self
  unfold applied
  rw [apply_eq_newTransactionAt, Store.newTransactionAt, hperform]
  by_cases hkeys : ∀ w ∈ c.blindWrites, AcceptsKey w.1
  · rw [(applySubs_blind h).mpr ⟨hkeys, rfl⟩]
    refine ⟨c.blindWrites.reverse, ?_, fun k => (if_pos hkeys).symm⟩
    show Versions.install db c.commitTs (c.blindWrites.reverse ++ []) = _
    rw [List.append_nil]
  · -- The transaction fails at the key that is not accepted.
    refine ⟨[], ?_, fun k => (if_neg hkeys).symm⟩
    cases happ : applySubs M env (BTxn.newTransactionAt db c.readTs) c.body.subCommands with
    | error e => rfl
    | ok txn => exact absurd ((applySubs_blind h).mp happ).1 hkeys

/-- The versions after a blind command. -/
theorem mem_applied_blind {c : Env × Command} (h : c.2.WriteOnly) :
    x ∈ applied M db c ↔
      (x.ts = c.2.commitTs ∧ c.2.lastWrite x.key = some x.val) ∨
        (x ∈ db ∧ ¬(x.ts = c.2.commitTs ∧ (c.2.lastWrite x.key).isSome = true)) := by
  obtain ⟨ws, happ, hlatest⟩ := applied_blind M db h
  rw [happ, Versions.mem_install_iff, hlatest]

/-- The versions after blind commands: the last write of each command to each key, and the old versions that
none of them replaces. -/
theorem mem_applyAll_blind {cs : List (Env × Command)} (h : ∀ c ∈ cs, c.2.WriteOnly)
    (hdistinct : ∀ c ∈ cs, ∀ c' ∈ cs, c.2.commitTs = c'.2.commitTs → c.2 = c'.2) :
    x ∈ applyAll M db cs ↔
      (∃ c ∈ cs, x.ts = c.2.commitTs ∧ c.2.lastWrite x.key = some x.val) ∨
        (x ∈ db ∧ ¬∃ c ∈ cs, x.ts = c.2.commitTs ∧ (c.2.lastWrite x.key).isSome = true) := by
  induction cs generalizing db with
  | nil => simp [applyAll]
  | cons c cs ih =>
    obtain ⟨hc, hcs⟩ := List.forall_mem_cons.mp h
    have hrest := fun c' hc' c'' hc'' =>
      hdistinct c' (List.mem_cons_of_mem _ hc') c'' (List.mem_cons_of_mem _ hc'')
    show x ∈ applyAll M (applied M db c) cs ↔ _
    rw [ih hcs hrest, mem_applied_blind hc]
    simp only [List.exists_mem_cons_iff]
    constructor
    · rintro (hlater | ⟨hnow | ⟨hx, hkept⟩, hnone⟩)
      · exact .inl (.inr hlater)
      · exact .inl (.inl hnow)
      · exact .inr ⟨hx, fun hor => hor.elim hkept hnone⟩
    · rintro ((hnow | hlater) | ⟨hx, hnone⟩)
      · by_cases hover : ∃ c' ∈ cs, x.ts = c'.2.commitTs ∧ (c'.2.lastWrite x.key).isSome = true
        · -- The command is applied again later, and writes the same.
          obtain ⟨c', hc', hts, -⟩ := hover
          have hsame : c.2 = c'.2 :=
            hdistinct c List.mem_cons_self c' (List.mem_cons_of_mem _ hc') (hnow.1.symm.trans hts)
          exact .inl ⟨c', hc', hts, hsame ▸ hnow.2⟩
        · exact .inr ⟨.inl hnow, hover⟩
      · exact .inl hlater
      · exact .inr ⟨.inr ⟨hx, fun hnow => hnone (.inl hnow)⟩, fun hlater => hnone (.inr hlater)⟩

/-- A blind command that does not write the key at or below `r` leaves what is visible of it. -/
theorem visible_applied_blind {c : Env × Command} (h : c.2.WriteOnly)
    (hk : c.2.lastWrite k ≠ none → r < c.2.commitTs) :
    Versions.visible (applied M db c) k r = Versions.visible db k r := by
  obtain ⟨ws, happ, hlatest⟩ := applied_blind M db h
  rw [happ]
  by_cases hlast : c.2.lastWrite k = none
  · exact Versions.visible_install_of_notMem (Versions.latest_eq_none_iff.mp ((hlatest k).trans hlast))
  · exact Versions.visible_install_of_lt (hk hlast)

/-- What is visible after commands, each of which has a last write of each key it writes: that of the command
with the greatest commit timestamp, or the old version if that is newer. -/
structure LastWins (db : Store) (cs : List Command) (db' : Store) : Prop where
  /-- The last command to write the key is not older than what was visible. -/
  written : ∀ k r e, ∀ c ∈ cs, c.lastWrite k = some e → c.commitTs ≤ r →
    (∀ c' ∈ cs, c'.lastWrite k ≠ none → c'.commitTs ≤ r → c'.commitTs ≤ c.commitTs) →
    (∀ x ∈ Versions.newest db k r, x.ts ≤ c.commitTs) →
    Versions.newest db' k r = some ⟨k, c.commitTs, e⟩
  /-- All commands that write the key are older. -/
  older : ∀ k r x, Versions.newest db k r = some x →
    (∀ c ∈ cs, c.lastWrite k ≠ none → c.commitTs ≤ r → c.commitTs < x.ts) →
    Versions.newest db' k r = some x
  /-- No command writes the key, and it was not there. -/
  absent : ∀ k r, Versions.newest db k r = none → (∀ c ∈ cs, c.lastWrite k ≠ none → r < c.commitTs) →
    Versions.newest db' k r = none

/-- A version that is newer than all blind writes stays the newest. -/
theorem newest_applyAll_of_newer {cs : List (Env × Command)} (h : ∀ c ∈ cs, c.2.WriteOnly)
    (hx : Versions.newest db k r = some x)
    (hcs : ∀ c ∈ cs, c.2.lastWrite k ≠ none → c.2.commitTs ≤ r → c.2.commitTs < x.ts) :
    Versions.newest (applyAll M db cs) k r = some x := by
  induction cs generalizing db with
  | nil => exact hx
  | cons c cs ih =>
    obtain ⟨hblind, hblinds⟩ := List.forall_mem_cons.mp h
    obtain ⟨hc, hcs⟩ := List.forall_mem_cons.mp hcs
    refine ih hblinds ?_ hcs
    by_cases hlast : c.2.lastWrite k ≠ none ∧ c.2.commitTs ≤ r
    · obtain ⟨ws, happ, -⟩ := applied_blind M db hblind
      rw [happ]
      exact Versions.newest_install_of_lt hx (hc hlast.1 hlast.2)
    · rw [← hx]
      refine Versions.newest_congr (visible_applied_blind hblind fun hk => ?_)
      exact not_le.mp fun hr => hlast ⟨hk, hr⟩

/-- Blind writes above `r` leave what is visible of the key. -/
theorem visible_applyAll_blind {cs : List (Env × Command)} (h : ∀ c ∈ cs, c.2.WriteOnly)
    (hcs : ∀ c ∈ cs, c.2.lastWrite k ≠ none → r < c.2.commitTs) :
    Versions.visible (applyAll M db cs) k r = Versions.visible db k r := by
  induction cs generalizing db with
  | nil => rfl
  | cons c cs ih =>
    obtain ⟨hblind, hblinds⟩ := List.forall_mem_cons.mp h
    obtain ⟨hc, hcs⟩ := List.forall_mem_cons.mp hcs
    calc Versions.visible (applyAll M (applied M db c) cs) k r
        = Versions.visible (applied M db c) k r := ih hblinds hcs
      _ = Versions.visible db k r := visible_applied_blind hblind hc

/-- Blind commands leave the last write visible. -/
theorem lastWins_applyAll {cs : List (Env × Command)} (h : ∀ c ∈ cs, c.2.WriteOnly)
    (hdistinct : ∀ c ∈ cs, ∀ c' ∈ cs, c.2.commitTs = c'.2.commitTs → c.2 = c'.2) :
    LastWins db (cs.map Prod.snd) (applyAll M db cs) := by
  constructor
  · simp only [List.forall_mem_map]
    intro k r e c hc hlast hr hgreatest hold
    apply Versions.newest_eq_of_lt (x := ⟨k, c.2.commitTs, e⟩)
    · exact (mem_applyAll_blind h hdistinct).mpr (.inl ⟨c, hc, rfl, hlast⟩)
    · rfl
    · exact hr
    · intro y hy hk hyr
      rcases (mem_applyAll_blind h hdistinct).mp hy with ⟨c', hc', hts, hlast'⟩ | ⟨hy, hkept⟩
      · rw [hk] at hlast'
        have hle : c'.2.commitTs ≤ c.2.commitTs :=
          hgreatest c' hc' (by simp [hlast']) (hts ▸ hyr)
        rcases hle.lt_or_eq with hlt | heq
        · exact .inl (hts.trans_lt hlt)
        · -- The same command, so the same write.
          have hsame := hdistinct c' hc' c hc heq
          rw [hsame, hlast] at hlast'
          obtain ⟨yk, yts, yval⟩ := y
          obtain rfl := Option.some.inj hlast'
          obtain rfl : yk = k := hk
          obtain rfl : yts = c.2.commitTs := hts.trans heq
          exact .inr rfl
      · -- An old version is below, as one at this timestamp would have been replaced.
        have hle : y.ts ≤ c.2.commitTs := by
          have hyv : y ∈ Versions.visible db k r := Versions.mem_visible.mpr ⟨hy, hk, hyr⟩
          cases hn : Versions.newest db k r with
          | none =>
            rw [Versions.newest, List.argmax_eq_none] at hn
            rw [hn] at hyv
            exact absurd hyv List.not_mem_nil
          | some m => exact (List.le_of_mem_argmax hyv hn).trans (hold m hn)
        rcases hle.lt_or_eq with hlt | heq
        · exact .inl hlt
        · exact absurd ⟨c, hc, heq, by rw [hk, hlast]; rfl⟩ hkept
  · simp only [List.forall_mem_map]
    intro k r x hx holder
    exact newest_applyAll_of_newer h hx holder
  · simp only [List.forall_mem_map]
    intro k r hx habove
    rw [← hx]
    exact Versions.newest_congr (visible_applyAll_blind h habove)

/-- Blind writes commute: two sequences of the commands of one set, in any orders and with any of them
applied more than once, leave the same versions, and the last write of each key is visible. -/
theorem blind_writes_commute (M : Merge) (db : Store) {S : Finset Command} (hblind : ∀ c ∈ S, c.WriteOnly)
    (hdistinct : ∀ c ∈ S, ∀ c' ∈ S, c.commitTs = c'.commitTs → c = c') {cs cs' : List (Env × Command)}
    (hcs : ∀ c, c ∈ cs.map Prod.snd ↔ c ∈ S) (hcs' : ∀ c, c ∈ cs'.map Prod.snd ↔ c ∈ S) :
    (∀ x, x ∈ applyAll M db cs ↔ x ∈ applyAll M db cs') ∧
      LastWins db (cs.map Prod.snd) (applyAll M db cs) := by
  have hmem : ∀ l : List (Env × Command), (∀ c, c ∈ l.map Prod.snd ↔ c ∈ S) → ∀ c ∈ l, c.2 ∈ S :=
    fun l hl c hc => (hl c.2).mp (List.mem_map_of_mem hc)
  have hapart : ∀ l : List (Env × Command), (∀ c, c ∈ l.map Prod.snd ↔ c ∈ S) →
      ∀ c ∈ l, ∀ c' ∈ l, c.2.commitTs = c'.2.commitTs → c.2 = c'.2 :=
    fun l hl c hc c' hc' => hdistinct _ (hmem l hl c hc) _ (hmem l hl c' hc')
  refine ⟨fun x => ?_, lastWins_applyAll (fun c hc => hblind _ (hmem cs hcs c hc)) (hapart cs hcs)⟩
  rw [mem_applyAll_blind (fun c hc => hblind _ (hmem cs hcs c hc)) (hapart cs hcs),
    mem_applyAll_blind (fun c hc => hblind _ (hmem cs' hcs' c hc)) (hapart cs' hcs')]
  -- What is said about the commands of a sequence only depends on which they are.
  have hexists : ∀ P : Command → Prop, (∃ c ∈ cs, P c.2) ↔ ∃ c ∈ cs', P c.2 := by
    intro P
    have h : ∀ l : List (Env × Command), (∀ c, c ∈ l.map Prod.snd ↔ c ∈ S) →
        ((∃ c ∈ l, P c.2) ↔ ∃ c ∈ S, P c) := by
      intro l hl
      constructor
      · rintro ⟨c, hc, hP⟩
        exact ⟨c.2, hmem l hl c hc, hP⟩
      · rintro ⟨c, hc, hP⟩
        obtain ⟨d, hd, rfl⟩ := List.mem_map.mp ((hl c).mpr hc)
        exact ⟨d, hd, hP⟩
    rw [h cs hcs, h cs' hcs']
  exact or_congr (hexists fun c => x.ts = c.commitTs ∧ c.lastWrite x.key = some x.val)
    (and_congr_right fun _ => not_congr
      (hexists fun c => x.ts = c.commitTs ∧ (c.lastWrite x.key).isSome = true))

/-- A transaction that sets a key twice. -/
def setsTwice : Command := ⟨0, 5, .transaction [.set [1] [8] none, .set [1] [9] none]⟩

/-- A deletion of the key that commits before it. -/
def deletesBefore : Command := ⟨0, 3, .single (.delete [1])⟩

/-- The deletion is applied first, or after the transaction, which is then applied once more. -/
theorem blind_writes_commute_two :
    (∀ x, x ∈ applyAll rejectDeltas Store.twoKeys [(someEnv, deletesBefore), (someEnv, setsTwice)] ↔
        x ∈ applyAll rejectDeltas Store.twoKeys
          [(someEnv, setsTwice), (someEnv, deletesBefore), (⟨5, none⟩, setsTwice)]) ∧
      Versions.newest (applyAll rejectDeltas Store.twoKeys
          [(someEnv, deletesBefore), (someEnv, setsTwice)]) [1] 7 = some ⟨[1], 5, .value [9] 0⟩ := by
  have hfirst : ∀ c, c ∈ [(someEnv, deletesBefore), (someEnv, setsTwice)].map Prod.snd ↔
      c ∈ ({setsTwice, deletesBefore} : Finset Command) := fun c => by simp [or_comm]
  have hlast : ∀ c, c ∈ [(someEnv, setsTwice), (someEnv, deletesBefore), (⟨5, none⟩, setsTwice)].map Prod.snd ↔
      c ∈ ({setsTwice, deletesBefore} : Finset Command) := fun c => by simp; tauto
  have hcommute := blind_writes_commute rejectDeltas Store.twoKeys (by decide) (by decide) hfirst hlast
  refine ⟨hcommute.1, hcommute.2.written [1] 7 (.value [9] 0) setsTwice ?_ ?_ ?_ ?_ ?_⟩
  all_goals decide +kernel

end Fsm

end Omashu
