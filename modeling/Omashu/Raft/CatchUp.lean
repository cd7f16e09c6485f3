import Omashu.Lib.Outcomes
import Omashu.Raft.Crash

/-!
# What a leader can send from its storage

A leader that sends a follower the log from some index on asks its storage for the term before it and for the entries.
If they are compacted it sends `Snapshot` in their place, and goes on after the index of the snapshot. So a follower
can be brought up to date from any index exactly if the log in memory begins no later than after the snapshot.

`SaveState` and `CreateSnapshot` keep the two together: where a snapshot is installed the log begins after it, and the
compaction of `CreateSnapshot` has nothing left to do. This is so in every state in which they end, also if the disk
fails in the middle. `Compact` is exported too, and does not look at the snapshot. `catchesUp_iff` says that a node can
bring every follower up to date as long as no `Compact` goes above the snapshot, and not from the first one on that
does.
-/

namespace Omashu

open Lib Std.Do

variable {δ : Type}

/-! ## What is sent -/

namespace Storage

variable {s : Storage δ} {size : RaftEntry → ℕ} {maxSize i : ℕ}

/-- A follower that has the log up to an index can be sent what comes after it: the term at the index is there, and
so are the entries above it, if there are any. -/
def Sendable (size : RaftEntry → ℕ) (maxSize : ℕ) (s : Storage δ) (i : ℕ) : Prop :=
  (∃ τ, s.term i = .ok τ) ∧
    (i < s.lastIndex → ∃ e es, s.entries size (i + 1) (s.lastIndex + 1) maxSize = .ok (e :: es))

/-- Wherever a follower is, it can be sent the entries, or the snapshot and after it the entries. -/
def CatchesUp (size : RaftEntry → ℕ) (maxSize : ℕ) (s : Storage δ) : Prop :=
  ∀ i ≤ s.lastIndex, s.Sendable size maxSize i ∨ i < s.snapshot.index ∧ s.Sendable size maxSize s.snapshot.index

/-- The log can be sent from the dummy entry on. -/
theorem sendable_of_le (hlo : s.memStorage.ents.offset ≤ i) (hhi : i ≤ s.lastIndex) : s.Sendable size maxSize i := by
  constructor
  · have hlast : ¬s.memStorage.ents.last < i := Nat.not_lt.mpr hhi
    unfold Storage.term MemoryStorage.term
    rw [if_neg (Nat.not_lt.mpr hlo), if_neg hlast]
    exact ⟨_, rfl⟩
  · intro hlt
    have hne : s.memStorage.ents.items ≠ [] := Suffix.items_ne_nil (hlo.trans_lt hlt)
    have hlen : i - s.memStorage.ents.offset < s.memStorage.ents.items.length := by
      have : i < s.memStorage.ents.offset + s.memStorage.ents.items.length := hlt
      omega
    -- The first of the entries is asked for, and `limitSize` keeps it.
    obtain ⟨e, es, hslice⟩ : ∃ e es, s.memStorage.ents.slice (i + 1) (s.lastIndex + 1) = e :: es := by
      refine List.exists_cons_of_length_pos ?_
      unfold Suffix.slice
      rw [List.length_take, List.length_drop]
      omega
    have hbounds : ¬(s.memStorage.ents.last + 1 < s.lastIndex + 1 ∨ s.lastIndex + 1 < i + 1) := by
      have hlast : s.lastIndex = s.memStorage.ents.last := rfl
      omega
    unfold Storage.entries MemoryStorage.entries
    rw [if_neg (Nat.not_le.mpr (Nat.lt_succ_of_le hlo)), if_neg hbounds, if_neg hne, hslice]
    exact ⟨e, _, rfl⟩

/-- Below the dummy entry nothing can be sent. -/
theorem not_sendable_of_lt (hlt : i < s.memStorage.ents.offset) : ¬s.Sendable size maxSize i := by
  rintro ⟨⟨τ, hτ⟩, -⟩
  exact absurd (MemoryStorage.bounds_of_term hτ).1 (Nat.not_le.mpr hlt)

end Storage

namespace MemoryStorage

variable {m m' : MemoryStorage δ}

/-- The log begins right after the snapshot. -/
def Joined (m : MemoryStorage δ) : Prop := m.ents.offset = m.snapshot.index

/-- A snapshot that is installed is joined by the log. -/
theorem joined_of_applySnapshot {snap : Snapshot δ} (h : m.applySnapshot snap = .ok m') : m'.Joined := by
  obtain ⟨-, hsnap, hents⟩ := applySnapshot_ok h
  unfold Joined
  rw [hents, hsnap]

/-- Entries are appended without a change of the beginning. -/
theorem Joined.append (h : m.Joined) {b : EntryBatch} (hm : m.append b = .ok m') : m'.Joined := by
  obtain ⟨hsnap, -, hents⟩ := append_ok hm
  unfold Joined
  rw [Suffix.offset_putAll hents, hsnap]
  exact h

end MemoryStorage

namespace Storage

variable {s : Storage δ} {size : RaftEntry → ℕ} {maxSize : ℕ}

/-- A log that begins right after the snapshot is enough for every follower. -/
theorem catchesUp_of_joined (h : s.memStorage.Joined) : s.CatchesUp size maxSize := by
  have hlast : s.memStorage.ents.offset ≤ s.lastIndex := Nat.le_add_right _ _
  intro i hi
  rcases Nat.lt_or_ge i s.memStorage.ents.offset with hlt | hge
  · exact .inr ⟨hlt.trans_eq h, sendable_of_le h.le (h.ge.trans hlast)⟩
  · exact .inl (sendable_of_le hge hi)

/-- A log that begins later leaves out a follower which is at the index of the snapshot. -/
theorem not_catchesUp_of_lt (h : s.snapshot.index < s.memStorage.ents.offset) : ¬s.CatchesUp size maxSize := by
  have hlast : s.memStorage.ents.offset ≤ s.lastIndex := Nat.le_add_right _ _
  intro hall
  rcases hall s.snapshot.index (h.le.trans hlast) with hsend | ⟨-, hsend⟩
  · exact not_sendable_of_lt h hsend
  · exact not_sendable_of_lt h hsend

/-! ## What the calls keep -/

/-- The write-ahead log does not change the memory storage, also where it fails. -/
theorem keeps_onWal {α : Type} (P : MemoryStorage δ → Prop) (x : EStateM StorageErr (Wal δ) α) :
    Keeps (fun s : Storage δ => P s.memStorage) (onWal x) := by
  rw [keeps_iff]
  intro s hs
  unfold onWal
  cases x s.wal with
  | ok | error => exact hs

/-- Nor does the lookup of a term. -/
theorem keeps_snapshotTerm (P : MemoryStorage δ → Prop) (i : ℕ) :
    Keeps (fun s : Storage δ => P s.memStorage) (snapshotTerm i) := by
  rw [keeps_iff]
  intro s hs
  unfold snapshotTerm
  cases s.memStorage.term i with
  | ok τ => exact hs
  | error e => exact hs

/-- A snapshot that is passed on without an error is in the memory storage, or an older one than that there. -/
theorem triple_applySnapshot (snap : Snapshot δ) (wrap : StorageErr → StorageErr) :
    ⦃fun s => ⌜s.memStorage.Joined⌝⦄ onMem (·.applySnapshot snap) .snapOutOfDate wrap
    ⦃post⟨fun _ s => ⌜s.memStorage.Joined ∧ snap.index ≤ s.memStorage.snapshot.index⌝,
      fun _ s => ⌜s.memStorage.Joined⌝⟩⦄ := by
  rw [triple_iff]
  intro s hs
  unfold onMem
  dsimp only
  cases happly : s.memStorage.applySnapshot snap with
  | ok m =>
    obtain ⟨-, hsnap, -⟩ := MemoryStorage.applySnapshot_ok happly
    exact ⟨MemoryStorage.joined_of_applySnapshot happly, (congrArg Snapshot.index hsnap).ge⟩
  | error e =>
    dsimp only
    split_ifs
    · exact ⟨hs, MemoryStorage.applySnapshot_error happly⟩
    · exact hs

/-- A compaction that does not go above the snapshot has nothing to do. -/
theorem compact_eq {i : ℕ} (hs : s.memStorage.Joined) (hi : i ≤ s.memStorage.snapshot.index) :
    compact i s = .ok () s := by
  have hold : s.memStorage.compact i = .error .compacted := dif_pos (hi.trans_eq hs.symm)
  unfold compact onMem
  dsimp only
  rw [hold]
  exact if_pos rfl

/-- `CreateSnapshot` keeps the log and the snapshot together: its compaction comes to the snapshot that has been
installed before it. -/
theorem keeps_createSnapshot (disk : DiskOp → Bool) (i : ℕ) (c : ConfState) (d : δ) :
    Keeps (fun s : Storage δ => s.memStorage.Joined) (createSnapshot disk i c d) := by
  unfold createSnapshot
  refine (keeps_snapshotTerm _ i).bind fun τ => (keeps_onWal _ _).bind fun _ => ?_
  refine Triple.bind _ _ (triple_applySnapshot ⟨i, τ, c, d⟩ .failedApply) fun _ => ?_
  -- From here on the snapshot in memory is not below the index.
  have hwal := fun x : EStateM StorageErr (Wal δ) Unit => keeps_onWal (fun m => m.Joined ∧ i ≤ m.snapshot.index) x
  have hcompact : Keeps (fun s : Storage δ => s.memStorage.Joined ∧ i ≤ s.memStorage.snapshot.index)
      (compact i) := by
    rw [keeps_iff]
    rintro s ⟨hs, hi⟩
    rw [compact_eq hs hi]
    exact ⟨hs, hi⟩
  have hrest := (hwal (Wal.sync disk)).bind fun _ => (hwal (Wal.release disk i)).bind fun _ => hcompact
  exact triple_mono hrest (fun _ _ hs => hs.1) fun _ hs => hs.1

end Storage

namespace DurableStorage

/-- An operation of the storage keeps what it keeps there. -/
theorem keeps_onStorage {P : MemoryStorage δ → Prop} {x : EStateM StorageErr (Storage δ) Unit}
    (hx : Keeps (fun s => P s.memStorage) x) : Keeps (fun s : DurableStorage δ => P s.memStorage) (onStorage x) := by
  rw [keeps_iff] at hx ⊢
  intro s hs
  have hend := hx s.toStorage hs
  unfold onStorage
  cases hres : x s.toStorage with
  | ok | error =>
    rw [hres] at hend
    exact hend

/-- `SaveState` keeps the log and the snapshot together. -/
theorem keeps_saveState (disk : DiskOp → Bool) (rd : StorageReady δ) :
    Keeps (fun s : DurableStorage δ => s.memStorage.Joined) (saveState disk rd) := by
  have happly : Keeps (fun s : Storage δ => s.memStorage.Joined)
      (Storage.onMem (·.applySnapshot rd.snapshot) .snapOutOfDate id) :=
    triple_mono (Storage.triple_applySnapshot rd.snapshot id) (fun _ _ hs => hs.1) fun _ hs => hs
  have happend : Keeps (fun s : Storage δ => s.memStorage.Joined) (Storage.append rd.batch) := by
    rw [keeps_iff]
    intro s hs
    unfold Storage.append
    cases hm : s.memStorage.append rd.batch with
    | ok m => exact hs.append hm
    | error e => exact hs
  have hhard : Keeps (fun s : DurableStorage δ => s.memStorage.Joined)
      (modify fun s => { s with hardState := rd.hardState } : EStateM StorageErr (DurableStorage δ) PUnit) :=
    keeps_iff.mpr fun _ hs => hs
  unfold saveState
  exact (keeps_onStorage (Storage.keeps_onWal _ _)).bind fun _ =>
    (keeps_onStorage happly).unless.bind fun _ => hhard.unless.bind fun _ => keeps_onStorage happend

/-- A storage that is opened has the log right after the snapshot. -/
theorem joined_of_initializeStorage [Inhabited δ] {w : Wal δ} {torn : Bool} {s : DurableStorage δ}
    (h : initializeStorage w torn = .ok s) : s.memStorage.Joined := by
  obtain ⟨⟨snapshot, r⟩, -, h⟩ := bind_eq_ok h
  obtain ⟨m, hload, h⟩ := bind_eq_ok h
  obtain ⟨m', happend, h⟩ := bind_eq_ok h
  obtain rfl := Except.ok.inj h
  obtain ⟨m₀, hload', hents, hsnap, -⟩ := exists_loadSnapshot snapshot
  obtain rfl : m₀ = m := Except.ok.inj (hload'.symm.trans (mapError_eq_ok hload))
  have hjoined : m₀.Joined := by
    unfold MemoryStorage.Joined
    rw [hents, hsnap]
  exact hjoined.append (mapError_eq_ok happend)

/-! ## Whole runs -/

/-- The calls that change a storage. -/
inductive Change (δ : Type)
  /-- `SaveState` or `CreateSnapshot`. -/
  | call (c : StorageCall δ)
  | compact (index : ℕ)

/-- The storage after a call that has returned, with or without an error. A panic ends the process. -/
def returned : EStateM.Result StorageErr (DurableStorage δ) Unit → Option (DurableStorage δ)
  | .ok _ t => some t
  | .error e t => if e = .panicked then none else some t

/-- A call that returns, with the operations of the disk that succeed. -/
def change (s : DurableStorage δ) : (DiskOp → Bool) × Change δ → Option (DurableStorage δ)
  | (disk, .call (.saveState rd)) => returned (saveState disk rd s)
  | (disk, .call (.createSnapshot index confState data)) =>
    returned (onStorage (Storage.createSnapshot disk index confState data) s)
  | (_, .compact index) => returned (onStorage (Storage.compact index) s)

/-- It does not compact the log above the snapshot. -/
def BelowSnapshot (s : DurableStorage δ) : (DiskOp → Bool) × Change δ → Prop
  | (_, .call _) => True
  | (_, .compact index) => index ≤ s.snapshot.index

instance (s : DurableStorage δ) : ∀ a, Decidable (BelowSnapshot s a)
  | (_, .call _) => inferInstanceAs (Decidable True)
  | (_, .compact index) => inferInstanceAs (Decidable (index ≤ s.snapshot.index))

variable {s t : DurableStorage δ}

/-- The state of a call that has returned is that in which it has ended. -/
theorem endState_of_returned {r : EStateM.Result StorageErr (DurableStorage δ) Unit} (h : returned r = some t) :
    endState r = t := by
  cases r with
  | ok a u => exact Option.some.inj h
  | error e u =>
    unfold returned at h
    dsimp only at h
    split_ifs at h with he
    exact Option.some.inj h

/-- A call keeps the log and the snapshot together unless it compacts above the snapshot. -/
theorem joined_change {a : (DiskOp → Bool) × Change δ} (hs : s.memStorage.Joined) (ha : BelowSnapshot s a)
    (h : s.change a = some t) : t.memStorage.Joined := by
  obtain ⟨disk, (rd | ⟨i, c, d⟩) | i⟩ := a
  · rw [← endState_of_returned h]
    exact keeps_iff.mp (keeps_saveState disk rd) s hs
  · rw [← endState_of_returned h]
    exact keeps_iff.mp (keeps_onStorage (P := MemoryStorage.Joined) (Storage.keeps_createSnapshot disk i c d)) s hs
  · rw [← endState_of_returned h]
    unfold onStorage
    rw [Storage.compact_eq hs ha]
    exact hs

/-- After one that does, the log begins above the snapshot. -/
theorem lt_offset_of_change {a : (DiskOp → Bool) × Change δ} (hs : s.memStorage.Joined) (ha : ¬BelowSnapshot s a)
    (h : s.change a = some t) : t.snapshot.index < t.memStorage.ents.offset := by
  obtain ⟨disk, c | i⟩ := a
  · exact absurd trivial ha
  · have hi : ¬i ≤ s.memStorage.ents.offset := fun hle => ha (hle.trans_eq hs)
    change returned (onStorage (Storage.onMem (·.compact i) .compacted id) s) = some t at h
    unfold onStorage Storage.onMem at h
    dsimp only at h
    cases hm : s.memStorage.compact i with
    | ok m =>
      rw [hm] at h
      obtain rfl := Option.some.inj h
      obtain ⟨-, -, hsnap, hents⟩ := MemoryStorage.compact_ok hm
      show m.snapshot.index < m.ents.offset
      rw [hsnap, hents]
      exact Nat.lt_of_not_le ha
    | error e =>
      -- The log does not reach as far: that is a panic, and the call does not return.
      unfold MemoryStorage.compact at hm
      rw [dif_neg hi] at hm
      split_ifs at hm with hlast
      obtain rfl := Except.error.inj hm
      rw [MemoryStorage.compact, dif_neg hi, if_pos hlast] at h
      cases h

/-- From the opening of a storage on, whatever the disk does: in all states that a sequence of calls passes, every
follower can be brought up to date from the storage, exactly if no call compacts the log above the snapshot. -/
theorem catchesUp_iff [Inhabited δ] {w : Wal δ} {torn : Bool} (hs : initializeStorage w torn = .ok s)
    {as : List ((DiskOp → Bool) × Change δ)} (h : run change s as = some t) (size : RaftEntry → ℕ) (maxSize : ℕ) :
    (∀ u, Passes change s as u → u.CatchesUp size maxSize) ↔ Along change BelowSnapshot s as := by
  have hiff := forall_passes_iff_along (C := BelowSnapshot) (I := fun u : DurableStorage δ => u.memStorage.Joined)
    (B := fun u => ¬u.CatchesUp size maxSize) (fun u a v hu ha hv => joined_change hu ha hv)
    (fun u a v hu ha hv => Storage.not_catchesUp_of_lt (lt_offset_of_change hu ha hv))
    (fun u hu => not_not_intro (Storage.catchesUp_of_joined hu)) (joined_of_initializeStorage hs) h
  simpa only [not_not] using hiff

/-- A snapshot is installed although the disk fails to sync, and a `Compact` below it does nothing. After two more
entries one goes above it. -/
def compactions : List ((DiskOp → Bool) × Change Unit) :=
  [(fun _ => true, .call (.saveState (.appendReady 1 3 1 2))),
    (fun op => op ≠ .sync, .call (.createSnapshot 3 ⟨[1], []⟩ ())), (fun _ => true, .compact 2),
    (fun _ => true, .call (.saveState (.appendReady 4 2 1 4))), (fun _ => true, .compact 4)]

/-- Up to the last call every follower can be brought up to date, and then not any more. -/
theorem catchesUp_iff_compactions :
    (∀ u, Passes change fresh (compactions.take 4) u → u.CatchesUp (fun e => e.data.length) 10) ∧
      ¬∀ u, Passes change fresh compactions u → u.CatchesUp (fun e => e.data.length) 10 := by
  have hrun : run change fresh (compactions.take 4) = some _ := run_final (by decide)
  have hrun' : run change fresh compactions = some _ := run_final (by decide)
  rw [catchesUp_iff initializeStorage_empty hrun, catchesUp_iff initializeStorage_empty hrun']
  decide

end DurableStorage

end Omashu
