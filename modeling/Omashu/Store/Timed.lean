import Omashu.Store.Applicable

/-!
# Times to live

A log without times to live is replayed alike at all clocks (`replay_eq_of_untimed`). The converse
holds for the logs that the leader is meant to write: their commit timestamps increase, their commands
touch no key twice, and they are applied without an error. There the first command with a time to
live leaves a version whose expiry time is the clock's (`mem_apply_timed`), no later command replaces
it (`mem_replay_iff`), and two replays with different clocks end with different stores.
-/

namespace Omashu

open Lib

namespace SubCommand

variable {M : Merge} {env : Env} {values values' : Key → Option Bytes} {sub : SubCommand} {k : Key}

/-- The two operations touch different keys. -/
def Apart (sub sub' : SubCommand) : Prop := ∀ k, sub.Touches k → ¬sub'.Touches k

/-- An operation writes a key that it touches. -/
theorem touches_of_written {key : Key} {e : Entry} (h : sub.written M env values = some (key, e)) :
    sub.Touches key := by
  cases sub with
  | set key' value ttl => exact congrArg Prod.fst (Option.some.inj h)
  | update key' delta deltaType messageName ttl =>
    simp only [written] at h
    cases hm : M.merged deltaType messageName (values key') delta with
    | error err => simp [hm] at h
    | ok merged =>
      rw [hm] at h
      exact congrArg Prod.fst (Option.some.inj h)
  | delete key' => exact congrArg Prod.fst (Option.some.inj h)
  | incrBy | decrBy => exact key_of_counterWrite h
  | deleteByPrefix | unknown => exact absurd h (by simp [written])

/-- An operation leaves the values of the keys that it does not touch. -/
theorem after_of_not_touches (hk : ¬sub.Touches k) : sub.after M env values k = values k := by
  unfold after
  cases hw : sub.written M env values with
  | none => rfl
  | some w =>
    refine Function.update_of_ne ?_ _ _
    rintro rfl
    exact hk (touches_of_written hw)

/-- Whether an operation can be performed depends on the values of the keys that it touches. -/
theorem applicable_congr (h : ∀ k, sub.Touches k → values k = values' k) :
    sub.Applicable M values ↔ sub.Applicable M values' := by
  cases sub with
  | update key delta deltaType messageName ttl | incrBy key delta | decrBy key delta =>
    simp only [Applicable]
    rw [h key rfl]
  | _ => exact Iff.rfl

/-- Operations that touch no key twice can be performed one after the other where each can be
performed alone. -/
theorem allApplicable_iff {subs : List SubCommand} (h : subs.Pairwise Apart) :
    AllApplicable M env values subs ↔ ∀ sub ∈ subs, sub.Applicable M values := by
  induction subs generalizing values with
  | nil => simp [AllApplicable]
  | cons sub subs ih =>
    obtain ⟨hsub, hsubs⟩ := List.pairwise_cons.mp h
    unfold AllApplicable
    rw [ih hsubs, List.forall_mem_cons]
    refine and_congr_right fun _ => forall₂_congr fun sub' hsub' => applicable_congr fun k hk => ?_
    exact after_of_not_touches fun hk' => hsub sub' hsub' k hk' hk

/-- An operation with a time to live has a key. -/
theorem exists_touches_of_ttl {d : ℤ} (hd : sub.ttl = some d) : ∃ k, sub.Touches k := by
  cases sub with
  | set key value ttl | update key delta deltaType messageName ttl => exact ⟨key, rfl⟩
  | _ => exact absurd hd (by simp [ttl])

/-- An operation with a time to live writes its key, with the expiry time by the clock. -/
theorem written_of_ttl {d : ℤ} {w : Key × Entry} (hd : sub.ttl = some d) (hk : sub.Touches k)
    (hw : sub.written M env values = some w) :
    ∃ value, w = (k, .value value (unixSecond (env.now + d))) := by
  cases sub with
  | set key value ttl =>
    obtain rfl : ttl = some d := hd
    obtain rfl : key = k := hk
    exact ⟨value, (Option.some.inj hw).symm⟩
  | update key delta deltaType messageName ttl =>
    obtain rfl : ttl = some d := hd
    obtain rfl : key = k := hk
    simp only [written] at hw
    cases hm : M.merged deltaType messageName (values key) delta with
    | error err => simp [hm] at hw
    | ok merged =>
      rw [hm] at hw
      exact ⟨merged, (Option.some.inj hw).symm⟩
  | _ => exact absurd hd (by simp [ttl])

end SubCommand

namespace Fsm

variable {M : Merge} {txn txn' : BTxn} {env : Env} {db db' : Store} {c : Command} {sub : SubCommand}
  {k : Key} {d : ℤ}

/-- A command with a time to live is performed as a transaction is. -/
theorem perform_of_ttl (hsub : sub ∈ c.body.subCommands) (hd : sub.ttl = some d) (txn : BTxn)
    (env : Env) : perform M env txn c.body = applySubs M env txn c.body.subCommands := by
  apply perform_eq_applySubs
  intro pre hb
  rw [hb] at hsub
  obtain rfl := List.mem_singleton.mp hsub
  exact absurd hd (by simp [SubCommand.ttl])

/-- After a transaction that touches no key twice, the latest write of the key of an operation with a
time to live is that operation's. -/
theorem latest_applySubs {subs : List SubCommand} (h : applySubs M env txn subs = .ok txn')
    (hapart : subs.Pairwise SubCommand.Apart) (hsub : sub ∈ subs) (hd : sub.ttl = some d)
    (hk : sub.Touches k) :
    ∃ value, Versions.latest txn'.pendingWrites k = some (.value value (unixSecond (env.now + d))) := by
  induction subs generalizing txn with
  | nil => exact absurd hsub List.not_mem_nil
  | cons sub' subs ih =>
    obtain ⟨txn₁, h₁, h⟩ := bind_eq_ok h
    obtain ⟨hsub', hsubs⟩ := List.pairwise_cons.mp hapart
    rcases List.mem_cons.mp hsub with rfl | hsub
    · -- It is written here, and the rest of the transaction writes other keys.
      obtain ⟨key, e, hw, -, rfl⟩ := applySub_eq_ok_iff.mp h₁
      obtain ⟨value, hvalue⟩ := SubCommand.written_of_ttl hd hk hw
      have hrest : ¬∃ sub' ∈ subs, sub'.Touches k := fun ⟨sub', hmem, hk'⟩ => hsub' sub' hmem k hk hk'
      refine ⟨value, ?_⟩
      rw [(applySubs_extends h).latest_eq hrest, BTxn.withWrite, hvalue, Versions.latest_cons, if_pos rfl]
    · exact ih h hsubs hsub

/-- The version that a command with a time to live leaves at its key. -/
theorem mem_apply_timed (h : apply M db env c = .ok db')
    (hapart : c.body.subCommands.Pairwise SubCommand.Apart) (hsub : sub ∈ c.body.subCommands)
    (hd : sub.ttl = some d) (hk : sub.Touches k) :
    ∃ value, ∀ e, ⟨k, c.commitTs, e⟩ ∈ db' ↔ e = .value value (unixSecond (env.now + d)) := by
  rw [apply_eq_install] at h
  obtain ⟨ws, hws, rfl⟩ := map_eq_ok h
  obtain ⟨txn, hp, rfl⟩ := map_eq_ok hws
  rw [perform_of_ttl hsub hd] at hp
  obtain ⟨value, hlatest⟩ := latest_applySubs hp hapart hsub hd hk
  refine ⟨value, fun e => ?_⟩
  rw [Versions.mem_install_iff]
  simp [hlatest, eq_comm]

/-- A command with a time to live that touches no key twice, and succeeds on a store without expiring
versions, succeeds there at all times. -/
theorem exists_apply_of_ttl (hdb : db.Lasting) {env' : Env}
    (hapart : c.body.subCommands.Pairwise SubCommand.Apart) (hsub : sub ∈ c.body.subCommands)
    (hd : sub.ttl = some d) (h : ∃ db', apply M db env c = .ok db') :
    ∃ db', apply M db env' c = .ok db' := by
  rw [exists_apply_iff, perform_of_ttl hsub hd, exists_applySubs_iff,
    SubCommand.allApplicable_iff hapart] at h ⊢
  rw [BTxn.lookup_eq_of_lasting hdb _ env'.now env.now]
  exact h

/-- A replay leaves the versions at timestamps that none of its commands commits at. -/
theorem mem_replay_iff {envs : ℕ → Env} {log : List Command} {x : Version Key Entry}
    (h : ∀ c ∈ log, c.commitTs ≠ x.ts) : x ∈ (replay M envs db log).1 ↔ x ∈ db := by
  induction log generalizing db envs with
  | nil => exact Iff.rfl
  | cons c log ih =>
    obtain ⟨hc, hlog⟩ := List.forall_mem_cons.mp h
    cases happ : apply M db (envs 0) c with
    | error e => rw [replay_cons_of_error happ]
    | ok db' =>
      rw [replay_cons_of_ok happ, ih hlog]
      obtain ⟨ws, rfl, -⟩ := apply_spec happ
      rw [Versions.mem_install_iff]
      simp [Ne.symm hc]

/-- The logs for which the converse is stated. -/
structure PlainLog (M : Merge) (polls : ℕ → Option ℕ) (db : Store) (log : List Command) : Prop where
  /-- The commit timestamps increase. -/
  commitTs_lt : log.Pairwise (·.commitTs < ·.commitTs)
  /-- No command touches a key twice. -/
  apart : ∀ c ∈ log, c.body.subCommands.Pairwise SubCommand.Apart
  /-- At some assignment of the clock, every command succeeds. -/
  succeeds : ∃ clock : ℕ → ℤ, ∀ r ∈ (replay M (surroundings clock polls) db log).2, r = none

/-- Two times that give different expiry times. -/
theorem exists_unixSecond_ne (d : ℤ) : ∃ now now' : ℤ, unixSecond (now + d) ≠ unixSecond (now' + d) := by
  refine ⟨-d, 10^9 - d, ?_⟩
  rw [neg_add_cancel, sub_add_cancel]
  decide

/-- A first command with a time to live makes the store depend on the clock. -/
theorem untimed_head {polls : ℕ → Option ℕ} {log : List Command} (hdb : db.Lasting)
    (hlog : PlainLog M polls db (c :: log)) (hc : ∃ db', apply M db env c = .ok db')
    (h : ∀ clock clock' : ℕ → ℤ, (replay M (surroundings clock polls) db (c :: log)).1 =
      (replay M (surroundings clock' polls) db (c :: log)).1) : c.Untimed := by
  intro sub hsub
  by_contra httl
  obtain ⟨d, hd⟩ := Option.ne_none_iff_exists'.mp httl
  obtain ⟨k, hk⟩ := SubCommand.exists_touches_of_ttl hd
  obtain ⟨now, now', hne⟩ := exists_unixSecond_ne d
  have hapart := hlog.apart c List.mem_cons_self
  -- At every time the command leaves a version with its own expiry time, and the rest keeps it.
  have hleaves : ∀ now : ℤ, ∃ value, ∀ e,
      ⟨k, c.commitTs, e⟩ ∈ (replay M (surroundings (fun _ => now) polls) db (c :: log)).1 ↔
        e = .value value (unixSecond (now + d)) := by
    intro now
    obtain ⟨db', happ⟩ : ∃ db', apply M db (surroundings (fun _ => now) polls 0) c = .ok db' :=
      exists_apply_of_ttl hdb hapart hsub hd hc
    obtain ⟨value, hvalue⟩ := mem_apply_timed happ hapart hsub hd hk
    refine ⟨value, fun e => ?_⟩
    rw [replay_cons_of_ok happ, mem_replay_iff, hvalue]
    · rfl
    · intro c' hc'
      exact ((List.pairwise_cons.mp hlog.commitTs_lt).1 c' hc').ne'
  obtain ⟨value, hvalue⟩ := hleaves now
  obtain ⟨value', hvalue'⟩ := hleaves now'
  have hmem := (hvalue _).mpr rfl
  rw [h _ fun _ => now', hvalue'] at hmem
  exact hne (Entry.value.inj hmem).2

/-- Where the store that a log leaves does not depend on the clock, its commands carry no times to
live. -/
theorem untimed_of_replay_eq {polls : ℕ → Option ℕ} {log : List Command} (hdb : db.Lasting)
    (hlog : PlainLog M polls db log)
    (h : ∀ clock clock' : ℕ → ℤ, (replay M (surroundings clock polls) db log).1 =
      (replay M (surroundings clock' polls) db log).1) : ∀ c ∈ log, c.Untimed := by
  induction log generalizing db polls with
  | nil => exact fun c hc => absurd hc List.not_mem_nil
  | cons c log ih =>
    obtain ⟨clock, hclock⟩ := hlog.succeeds
    obtain ⟨db', happ, hrest⟩ := exists_apply_of_replay_cons hclock
    have hc : c.Untimed := untimed_head hdb hlog ⟨db', happ⟩ h
    have hplain : PlainLog M (fun n => polls (n + 1)) db' log :=
      ⟨(List.pairwise_cons.mp hlog.commitTs_lt).2,
        fun c' hc' => hlog.apart c' (List.mem_cons_of_mem _ hc'), fun n => clock (n + 1), hrest⟩
    -- The first command does the same at all clocks, and the rest is replayed from there.
    have hreplay : ∀ clock' : ℕ → ℤ, (replay M (surroundings clock' fun n => polls (n + 1)) db' log).1 =
        (replay M (surroundings (fun n => n.casesOn 0 clock') polls) db (c :: log)).1 := by
      intro clock'
      have happ' : apply M db (surroundings (fun n => n.casesOn 0 clock') polls 0) c = .ok db' :=
        (apply_eq_of_now hdb hc _ _ _).trans happ
      rw [replay_cons_of_ok happ']
      rfl
    refine List.forall_mem_cons.mpr ⟨hc, ih (lasting_apply hdb hc happ) hplain ?_⟩
    intro clock₁ clock₂
    rw [hreplay clock₁, hreplay clock₂]
    exact h _ _

/-- Without times to live, two replays of a log at any two assignments of the clock to the
applications return the same results and end with the same store. And a log that is replayed to the
same store at all clocks has no times to live, if its commit timestamps increase, no command touches a
key twice, and all commands succeed. -/
theorem replay_clock_free (M : Merge) (polls : ℕ → Option ℕ) {db : Store} (hdb : db.Lasting)
    (log : List Command) :
    ((∀ c ∈ log, c.Untimed) → ∀ clock clock' : ℕ → ℤ,
        replay M (surroundings clock polls) db log = replay M (surroundings clock' polls) db log) ∧
      (PlainLog M polls db log →
        (∀ clock clock' : ℕ → ℤ, (replay M (surroundings clock polls) db log).1 =
          (replay M (surroundings clock' polls) db log).1) →
        ∀ c ∈ log, c.Untimed) :=
  ⟨fun hlog clock clock' => replay_eq_of_untimed M clock clock' polls hdb hlog,
    fun hplain h => untimed_of_replay_eq hdb hplain h⟩

/-- A counter set with a time to live of a second, and then incremented. -/
def timedCounter : List Command :=
  [⟨1, 2, .single (.set [1] (uint64ToBytes 5) (some (10^9)))⟩, ⟨2, 3, .single (.incrBy [1] 1)⟩]

/-- The counter without the time to live, applied at once or ten seconds apart, and the one with it,
which some two clocks tell apart. -/
theorem replay_clock_free_counter :
    replay rejectDeltas (surroundings (fun _ => 0) fun _ => none) []
        [⟨1, 2, .single (.set [1] (uint64ToBytes 5) none)⟩, ⟨2, 3, .single (.incrBy [1] 1)⟩] =
      replay rejectDeltas (surroundings (fun n => n * 10^10) fun _ => none) []
        [⟨1, 2, .single (.set [1] (uint64ToBytes 5) none)⟩, ⟨2, 3, .single (.incrBy [1] 1)⟩] ∧
    ¬∀ clock clock' : ℕ → ℤ,
      (replay rejectDeltas (surroundings clock fun _ => none) [] timedCounter).1 =
        (replay rejectDeltas (surroundings clock' fun _ => none) [] timedCounter).1 := by
  have hempty : Store.Lasting [] := fun _ hx => absurd hx List.not_mem_nil
  have hplain : PlainLog rejectDeltas (fun _ => none) [] timedCounter := by
    refine ⟨by decide, ?_, fun _ => 0, by decide +kernel⟩
    intro c hc
    obtain rfl | rfl := List.mem_pair.mp hc
    · exact List.pairwise_singleton _ _
    · exact List.pairwise_singleton _ _
  refine ⟨(replay_clock_free rejectDeltas _ hempty _).1 (by decide) _ _, fun h => ?_⟩
  exact absurd ((replay_clock_free rejectDeltas _ hempty _).2 hplain h) (by decide)

/-- A replica that applies the increment at once adds to the counter. One that applies it ten seconds
later finds the counter expired and starts from zero. -/
theorem replay_ne_of_ttl :
    (replay rejectDeltas (surroundings (fun _ => 0) fun _ => none) [] timedCounter).1.getAt
        someEnv [1] 3 = .ok (some (uint64ToBytes 6)) ∧
      (replay rejectDeltas (surroundings (fun n => n * 10^10) fun _ => none) [] timedCounter).1.getAt
        someEnv [1] 3 = .ok (some (uint64ToBytes 1)) ∧
      (replay rejectDeltas (surroundings (fun _ => 0) fun _ => none) [] timedCounter).1 ≠
        (replay rejectDeltas (surroundings (fun n => n * 10^10) fun _ => none) [] timedCounter).1 := by
  decide +kernel

end Fsm

end Omashu
