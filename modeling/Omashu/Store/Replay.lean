import Omashu.Store.View

/-!
# Replaying a log

The Ready loop applies the commands of the log in order, until one of them fails. `Fsm.replay` is
that loop over a whole log: the `n`-th command is applied in the surroundings `env n`, and the result
is the store at the end, with what each `Apply` returned. Two replicas, or a replica and its own
replay after a restart, are two replays of one log whose surroundings differ in the clock.

A command reads the clock in two places: to store an expiry time (`SetWithTxn` with a time to live),
and to tell whether an entry has expired. In a log without times to live neither matters, and
the two replays agree step by step.
-/

namespace Omashu

open Lib

/-- The surroundings of the `n`-th application. -/
def surroundings (clock : ℕ → ℤ) (polls : ℕ → Option ℕ) (n : ℕ) : Env := ⟨clock n, polls n⟩

namespace Fsm

variable {M : Merge}

/-- Applies the commands of a log until one fails: the store at the end, and the results. -/
def replay (M : Merge) (env : ℕ → Env) (db : Store) : List Command → Store × List (Option Err)
  | [] => (db, [])
  | c :: log =>
    match apply M db (env 0) c with
    | .error e => (db, [some e])
    | .ok db' =>
      let rest := replay M (fun n => env (n + 1)) db' log
      (rest.1, none :: rest.2)

/-- A replay stops at a command that fails. -/
theorem replay_cons_of_error {env : ℕ → Env} {db : Store} {c : Command} {log : List Command} {e : Err}
    (h : apply M db (env 0) c = .error e) : replay M env db (c :: log) = (db, [some e]) := by
  unfold replay
  rw [h]

/-- It goes on after a command that succeeds. -/
theorem replay_cons_of_ok {env : ℕ → Env} {db db' : Store} {c : Command} {log : List Command}
    (h : apply M db (env 0) c = .ok db') :
    replay M env db (c :: log) = ((replay M (fun n => env (n + 1)) db' log).1,
      none :: (replay M (fun n => env (n + 1)) db' log).2) := by
  rw [replay, h]

/-- In a replay without errors the first command succeeds, and the rest is replayed without errors. -/
theorem exists_apply_of_replay_cons {env : ℕ → Env} {db : Store} {c : Command} {log : List Command}
    (h : ∀ r ∈ (replay M env db (c :: log)).2, r = none) :
    ∃ db', apply M db (env 0) c = .ok db' ∧
      ∀ r ∈ (replay M (fun n => env (n + 1)) db' log).2, r = none := by
  cases happ : apply M db (env 0) c with
  | error e =>
    rw [replay_cons_of_error happ] at h
    exact absurd (h (some e) List.mem_cons_self) (by simp)
  | ok db' =>
    rw [replay_cons_of_ok happ] at h
    exact ⟨db', rfl, fun r hr => h r (List.mem_cons_of_mem _ hr)⟩

/-- A command without a time to live, on a store without expiring versions, does the same at all
times. -/
theorem apply_eq_of_now {db : Store} {c : Command} (hdb : db.Lasting) (hc : c.Untimed)
    (now now' : ℤ) (polls : Option ℕ) :
    apply M db ⟨now, polls⟩ c = apply M db ⟨now', polls⟩ c := by
  rw [apply_eq_install, apply_eq_install]
  congr 1
  exact writes_congr hc rfl (BTxn.lookup_eq_of_lasting hdb _ now now')

/-- Two replays of a log without times to live, at any two assignments of the clock to the
applications, return the same results and end with the same store. -/
theorem replay_eq_of_untimed (M : Merge) (clock clock' : ℕ → ℤ) (polls : ℕ → Option ℕ) {db : Store}
    (hdb : db.Lasting) {log : List Command} (hlog : ∀ c ∈ log, c.Untimed) :
    replay M (surroundings clock polls) db log = replay M (surroundings clock' polls) db log := by
  induction log generalizing db clock clock' polls with
  | nil => rfl
  | cons c log ih =>
    have hc := hlog c List.mem_cons_self
    have hstep : apply M db (surroundings clock polls 0) c =
        apply M db (surroundings clock' polls 0) c := apply_eq_of_now hdb hc _ _ _
    cases happ : apply M db (surroundings clock' polls 0) c with
    | error e => rw [replay_cons_of_error (hstep.trans happ), replay_cons_of_error happ]
    | ok db' =>
      -- The next store has no expiring version either, so the rest of the log is replayed alike.
      have hrest := ih (fun n => clock (n + 1)) (fun n => clock' (n + 1)) (fun n => polls (n + 1))
        (lasting_apply hdb hc happ) fun c' hc' => hlog c' (List.mem_cons_of_mem _ hc')
      rw [replay_cons_of_ok (hstep.trans happ), replay_cons_of_ok happ]
      exact congrArg (fun r : Store × List (Option Err) => (r.1, none :: r.2)) hrest

end Fsm

end Omashu
