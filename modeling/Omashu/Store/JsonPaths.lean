import Omashu.Store.Applicable
import Omashu.Store.JsonUpdates

/-!
# JSON updates through the log

`Badger.UpdateJson` merges the map that the caller passes. `DistributedBadger.UpdateJson` encodes the map for the log
(`Txn.UpdateJson`), and the state machine merges what it decodes (`UnmarshalUpdateDelta`, `applyUpdate`). The values
of the map can be of any type, and what comes out of the decoder are maps, slices, strings, Booleans and `float64`s.

So an update makes the same document of a stored one on both ways exactly if what the values of the delta are encoded
to survives being decoded and encoded once more (`logUpdateDoc_same_iff`): an integer beyond `2^53` is stored by the
one and rounded by the other.
-/

namespace Omashu

open Lib Lib.Json

/-- The map that `UpdateJsonWithTxn` starts from, where the key is absent, or its value is a document or no JSON
text. -/
def fullDoc : Option (Option JsonDoc) → Except Err (Option GoMap)
  | none => .ok (some ⟨.empty, trivial⟩)
  | some doc => GoMap.unmarshal doc

/-- `UpdateJsonWithTxn` from the map on. -/
def copyAndMarshal (full delta : Option GoMap) : Except Err JsonDoc := do
  let merged ← GoMap.copy full delta
  GoMap.marshal merged

/-- `Badger.UpdateJson`. -/
def updateDoc (stored : Option (Option JsonDoc)) (delta : Option GoMap) : Except Err JsonDoc := do
  let full ← fullDoc stored
  copyAndMarshal full delta

/-- `DistributedBadger.UpdateJson`: the delta is encoded by `Txn.UpdateJson`, and `UnmarshalUpdateDelta` decodes it for
`applyUpdate`. -/
def logUpdateDoc (stored : Option (Option JsonDoc)) (delta : Option GoMap) : Except Err JsonDoc := do
  let d ← GoMap.marshal delta
  let delta ← GoMap.unmarshal (some d)
  updateDoc stored delta

/-- The delta is the same after it has been encoded, decoded and encoded again. -/
def GoMap.Survives (delta : Option GoMap) : Prop :=
  ∀ n a d, GoMap.find delta n = some a → GoValue.marshal a = some d →
    d.InRange parseFloat ∧ d.meaning.Exact (Tree.Fixed parseFloat formatFloat)

section Documents

variable {full delta delta' merged merged' : GoMap} {ms ms' dms : Tree ℚ Empty .members}

/-- The value of a name in the document of a map. -/
theorem meaning_encode (hnames : merged.entries.NamesValid) (h : merged.entries.encode formatFloat id = some ms)
    (k : Str) : ms.meaning k = Value.ofOption (((merged.entries.lookup k).bind GoValue.marshal).map Tree.meaning) := by
  rw [Tree.meaning_members, Tree.lookup_encode h hnames]
  rfl

/-- The names of a map with others copied into it. -/
theorem namesValid_copy (hfull : full.entries.NamesValid) (hdelta : delta.entries.NamesValid)
    (hmerged : ∀ k, merged.entries.lookup k = (GoMap.find (some delta) k).or (full.entries.lookup k)) :
    merged.entries.NamesValid := by
  intro k hk
  rw [hmerged, Option.isSome_or, Bool.or_eq_true] at hk
  rcases hk with hk | hk
  · exact hdelta k hk
  · exact hfull k hk

/-- The value of a name after the delta was encoded and decoded is the one that it has without that, exactly if what
the delta has under the name is exact. -/
theorem meaning_copy_decoded_iff (hfull : full.entries.NamesValid) (hdelta : delta.entries.NamesValid)
    (hmerged : ∀ k, merged.entries.lookup k = (GoMap.find (some delta) k).or (full.entries.lookup k))
    (hmerged' : ∀ k, merged'.entries.lookup k = (GoMap.find (some delta') k).or (full.entries.lookup k))
    (hencode : delta.entries.encode formatFloat id = some dms)
    (hdecode : dms.decode parseFloat = some delta'.entries)
    (hms : merged.entries.encode formatFloat id = some ms) (hms' : merged'.entries.encode formatFloat id = some ms')
    (k : Str) :
    ms'.meaning k = ms.meaning k ↔
      ∀ d, dms.lookup k = some d → d.meaning.Exact (Tree.Fixed parseFloat formatFloat) := by
  have hvalid : dms.NamesValid := Tree.namesValid_encode hencode
  have hdelta' : delta'.entries.NamesValid := Tree.namesValid_decode hdecode
  have hdms : dms.lookup k = (delta.entries.lookup k).bind GoValue.marshal := Tree.lookup_encode hencode hdelta k
  have hdecoded : delta'.entries.lookup k = (dms.lookup k).bind (Tree.decode parseFloat) :=
    Tree.lookup_decode hdecode hvalid k
  rw [meaning_encode (namesValid_copy hfull hdelta' hmerged') hms',
    meaning_encode (namesValid_copy hfull hdelta hmerged) hms, hmerged, hmerged']
  show Value.ofOption ((((delta'.entries.lookup k).or (full.entries.lookup k)).bind GoValue.marshal).map Tree.meaning) =
    Value.ofOption ((((delta.entries.lookup k).or (full.entries.lookup k)).bind GoValue.marshal).map Tree.meaning) ↔ _
  rw [hdecoded]
  cases hk : delta.entries.lookup k with
  | none =>
    -- The delta does not have the name.
    rw [hk, Option.bind_none] at hdms
    rw [hdms]
    exact ⟨fun _ d hd => (Option.some_ne_none d hd.symm).elim, fun _ => rfl⟩
  | some a =>
    obtain ⟨d, hd⟩ : ∃ d, GoValue.marshal a = some d := Tree.exists_encode_of_lookup hencode hk
    rw [hk, Option.bind_some, hd] at hdms
    obtain ⟨b, hb⟩ : ∃ b : GoValue, d.decode parseFloat = some b := Tree.exists_decode_of_lookup hdecode hdms
    obtain ⟨d', hd'⟩ : ∃ d', GoValue.marshal b = some d' := Tree.exists_encode_of_decode d hb
    have hfaithful : d'.meaning = d.meaning ↔ d.meaning.Exact (Tree.Fixed parseFloat formatFloat) :=
      Tree.allFaithful d b d' hb hd'
    rw [hdms, Option.bind_some, hb, Option.some_or, Option.some_or, Option.bind_some, Option.bind_some, hd, hd']
    constructor
    · intro h d₁ hd₁
      obtain rfl := Option.some.inj hd₁
      exact hfaithful.mp (Value.present.inj h)
    · intro h
      exact congrArg Value.present (hfaithful.mpr (h d rfl))

/-- The same with a delta that is encoded and decoded first. -/
def recodeAndMarshal (full delta : Option GoMap) : Except Err JsonDoc := do
  let d ← GoMap.marshal delta
  let delta ← GoMap.unmarshal (some d)
  copyAndMarshal full delta

/-- A map whose entries are encoded is written as an object. -/
theorem marshal_of_encode (h : merged.entries.encode formatFloat id = some ms) :
    GoMap.marshal (some merged) = .ok (.obj ms) := by
  rw [GoMap.marshal, h]

/-- A copy is written if what it has under each name is. -/
theorem exists_copyAndMarshal
    (h : ∀ k a, (GoMap.find (some delta) k).or (full.entries.lookup k) = some a → ∃ d, GoValue.marshal a = some d) :
    ∃ (merged : GoMap) (ms : _), copyAndMarshal (some full) (some delta) = .ok (.obj ms) ∧
      merged.entries.encode formatFloat id = some ms ∧
      ∀ k, merged.entries.lookup k = (GoMap.find (some delta) k).or (full.entries.lookup k) := by
  obtain ⟨merged, hcopy, hmerged⟩ := exists_copy full (some delta)
  obtain ⟨ms, hms⟩ : ∃ ms, merged.entries.encode formatFloat id = some ms :=
    merged.unique.exists_encode fun k a ha => h k a ((hmerged k).symm.trans ha)
  refine ⟨merged, ms, ?_, hms, hmerged⟩
  show (GoMap.copy (some full) (some delta)).bind GoMap.marshal = _
  rw [hcopy]
  exact marshal_of_encode hms

/-- The document of a copy. -/
theorem copyAndMarshal_eq_ok {j : JsonDoc} (h : copyAndMarshal (some full) (some delta) = .ok j) :
    ∃ (merged : GoMap) (ms : _), j = .obj ms ∧ merged.entries.encode formatFloat id = some ms ∧
      ∀ k, merged.entries.lookup k = (GoMap.find (some delta) k).or (full.entries.lookup k) := by
  obtain ⟨m, hm, hmarshal⟩ : ∃ m, GoMap.copy (some full) (some delta) = .ok m ∧ GoMap.marshal m = .ok j := bind_eq_ok h
  obtain ⟨merged, hcopy, hmerged⟩ := exists_copy full (some delta)
  obtain rfl : some merged = m := Except.ok.inj (hcopy.symm.trans hm)
  obtain ⟨ms, hms⟩ := (exists_marshal_iff merged).mp ⟨j, hmarshal⟩
  refine ⟨merged, ms, ?_, hms, hmerged⟩
  exact Except.ok.inj (hmarshal.symm.trans (marshal_of_encode hms))

/-- A copy of the delta that was encoded and decoded is written, if one of the delta itself is. -/
theorem exists_copy_decoded (hdelta : delta.entries.NamesValid)
    (hmerged : ∀ k, merged.entries.lookup k = (GoMap.find (some delta) k).or (full.entries.lookup k))
    (hencode : delta.entries.encode formatFloat id = some dms)
    (hdecode : dms.decode parseFloat = some delta'.entries)
    (hms : merged.entries.encode formatFloat id = some ms) :
    ∃ (merged' : GoMap) (ms' : _), copyAndMarshal (some full) (some delta') = .ok (.obj ms') ∧
      merged'.entries.encode formatFloat id = some ms' ∧
      ∀ k, merged'.entries.lookup k = (GoMap.find (some delta') k).or (full.entries.lookup k) := by
  have hdms : ∀ k, delta'.entries.lookup k = (dms.lookup k).bind (Tree.decode parseFloat) :=
    Tree.lookup_decode hdecode (Tree.namesValid_encode hencode)
  have hlookup : ∀ k, dms.lookup k = (delta.entries.lookup k).bind GoValue.marshal :=
    Tree.lookup_encode hencode hdelta
  apply exists_copyAndMarshal
  intro k a ha
  rcases Option.or_eq_some_iff.mp ha with hk | ⟨hk, ha⟩
  · obtain ⟨d, -, hd⟩ := Option.bind_eq_some_iff.mp ((hdms k).symm.trans hk)
    exact Tree.exists_encode_of_decode d hd
  · -- The delta does not have the name either, and what the map has is written in the other copy.
    have hnone : delta.entries.lookup k = none := by
      by_contra hsome
      obtain ⟨a', ha'⟩ := Option.ne_none_iff_exists'.mp hsome
      obtain ⟨d, hd⟩ := Tree.exists_encode_of_lookup hencode ha'
      have hfound : dms.lookup k = some d := (hlookup k).trans (Option.bind_eq_some_iff.mpr ⟨a', ha', hd⟩)
      obtain ⟨b, hb⟩ : ∃ b : GoValue, d.decode parseFloat = some b := Tree.exists_decode_of_lookup hdecode hfound
      have hk' : delta'.entries.lookup k = some b := (hdms k).trans (Option.bind_eq_some_iff.mpr ⟨d, hfound, hb⟩)
      exact Option.some_ne_none b (hk'.symm.trans hk)
    refine Tree.exists_encode_of_lookup hms (k := k) ?_
    rw [hmerged, show GoMap.find (some delta) k = none from hnone, Option.none_or, ha]

/-- Encoding and decoding a delta first makes no difference exactly if the delta survives it. -/
theorem recodeAndMarshal_iff {j : JsonDoc} (hfull : full.entries.NamesValid) (hdelta : delta.entries.NamesValid)
    (h : copyAndMarshal (some full) (some delta) = .ok j) :
    (∃ j', recodeAndMarshal (some full) (some delta) = .ok j' ∧ j'.meaning = j.meaning) ↔
      GoMap.Survives (some delta) := by
  obtain ⟨merged, ms, rfl, hms, hmerged⟩ := copyAndMarshal_eq_ok h
  -- The values of the delta are in the merged map, which has been written.
  obtain ⟨dms, hencode⟩ : ∃ dms, delta.entries.encode formatFloat id = some dms := by
    refine delta.unique.exists_encode fun k a ha => Tree.exists_encode_of_lookup hms (k := k) ?_
    rw [hmerged, show GoMap.find (some delta) k = some a from ha, Option.some_or]
  have hlookup : ∀ k, dms.lookup k = (delta.entries.lookup k).bind GoValue.marshal :=
    Tree.lookup_encode hencode hdelta
  have hsurvives : GoMap.Survives (some delta) ↔
      ∀ k d, dms.lookup k = some d → d.InRange parseFloat ∧ d.meaning.Exact (Tree.Fixed parseFloat formatFloat) := by
    constructor
    · intro hs k d hd
      obtain ⟨a, ha, had⟩ := Option.bind_eq_some_iff.mp ((hlookup k).symm.trans hd)
      exact hs k a d ha had
    · intro hs k a d ha had
      exact hs k d ((hlookup k).trans (Option.bind_eq_some_iff.mpr ⟨a, ha, had⟩))
  have hrecode : recodeAndMarshal (some full) (some delta) =
      (GoMap.ofMembers dms).bind fun delta' => copyAndMarshal (some full) delta' := by
    show (GoMap.marshal (some delta)).bind (fun d => (GoMap.unmarshal (some d)).bind _) = _
    rw [marshal_of_encode hencode]
    rfl
  rw [hsurvives, hrecode]
  rcases ofMembers_cases dms with ⟨delta', hdecode, hof⟩ | ⟨hrange, hof⟩
  · -- The decoded delta is copied in the place of the delta.
    obtain ⟨merged', ms', hok, hms', hmerged'⟩ := exists_copy_decoded hdelta hmerged hencode hdecode hms
    have hslots := meaning_copy_decoded_iff hfull hdelta hmerged hmerged' hencode hdecode hms hms'
    rw [hof]
    constructor
    · rintro ⟨j', hj', hmeaning⟩
      obtain rfl : Tree.obj ms' = j' := Except.ok.inj (hok.symm.trans hj')
      intro k d hd
      have hexists : ∃ b : GoValue, d.decode parseFloat = some b := Tree.exists_decode_of_lookup hdecode hd
      exact ⟨(Tree.exists_decode_iff d).mp hexists, (hslots k).mp (congrFun (Value.obj.inj hmeaning) k) d hd⟩
    · intro hs
      exact ⟨_, hok, congrArg Value.obj (funext fun k => (hslots k).mpr fun d hd => (hs k d hd).2)⟩
  · -- A number is out of range, and the command cannot be applied.
    rw [hof]
    refine iff_of_false ?_ fun hs => hrange ?_
    · rintro ⟨j', hj', -⟩
      cases hj'
    · rw [← Tree.exists_decode_iff (ε := Option JsonDoc)]
      apply (delta.unique.encode hdelta hencode).exists_decode
      exact fun k d hd => (Tree.exists_decode_iff d).mpr (hs k d hd).1

/-- A delta without entries is the same after it has been encoded and decoded. -/
theorem recodeAndMarshal_of_empty {full delta : Option GoMap} (h : ∀ n, GoMap.find delta n = none) :
    recodeAndMarshal full delta = copyAndMarshal full delta := by
  cases delta with
  | none => rfl
  | some delta =>
    obtain ⟨entries, unique⟩ := delta
    cases entries with
    | empty => rfl
    | member n v ms =>
      have hn : (Tree.member n v ms).lookup n = none := h n
      rw [Tree.lookup_member, if_pos rfl] at hn
      exact absurd (Option.or_eq_none_iff.mp hn).2 (Option.some_ne_none v)

/-- Nothing is copied into a nil map. -/
theorem find_eq_none_of_copy {delta merged : Option GoMap} (h : GoMap.copy none delta = .ok merged) (n : Str) :
    GoMap.find delta n = none := by
  cases delta with
  | none => rfl
  | some delta =>
    obtain ⟨entries, unique⟩ := delta
    cases entries with
    | empty => rfl
    | member n v ms => cases h

end Documents

/-! ## The two ways -/

variable {stored : Option (Option JsonDoc)}

/-- The names of a stored document consist of characters when it is decoded. -/
theorem namesValid_fullDoc {full : GoMap} (h : fullDoc stored = .ok (some full)) : full.entries.NamesValid := by
  unfold fullDoc at h
  split at h
  · obtain rfl : (⟨.empty, trivial⟩ : GoMap) = full := Option.some.inj (Except.ok.inj h)
    exact fun k hk => absurd hk (by simp)
  · unfold GoMap.unmarshal at h
    split at h
    · cases h
    · rename_i ms
      rcases ofMembers_cases ms with ⟨g, hdecode, hof⟩ | ⟨-, hof⟩
      · obtain rfl : g = full := Option.some.inj (Except.ok.inj (hof.symm.trans h))
        exact Tree.namesValid_decode hdecode
      · cases hof.symm.trans h
    · cases h

/-- The update through the log, where the stored document is decoded. -/
theorem logUpdateDoc_eq {full : Option GoMap} (h : fullDoc stored = .ok full) (delta : Option GoMap) :
    logUpdateDoc stored delta = recodeAndMarshal full delta := by
  have hupdate : updateDoc stored = copyAndMarshal full := by
    funext delta
    show (fullDoc stored).bind _ = _
    rw [h]
    rfl
  rw [logUpdateDoc, hupdate]
  rfl

/-- Where an update on a single node succeeds, the update through the log stores a document with the same meaning
exactly if the delta survives being encoded and decoded. -/
theorem logUpdateDoc_same_iff {delta : Option GoMap} {j : JsonDoc}
    (hnames : ∀ n a, GoMap.find delta n = some a → n.Valid) (h : updateDoc stored delta = .ok j) :
    (∃ j', logUpdateDoc stored delta = .ok j' ∧ j'.meaning = j.meaning) ↔ GoMap.Survives delta := by
  obtain ⟨full, hfull, hj⟩ : ∃ full, fullDoc stored = .ok full ∧ copyAndMarshal full delta = .ok j := bind_eq_ok h
  rw [logUpdateDoc_eq hfull]
  by_cases hempty : ∀ n, GoMap.find delta n = none
  · -- There is nothing to lose.
    refine iff_of_true ⟨j, (recodeAndMarshal_of_empty hempty).trans hj, rfl⟩ ?_
    intro n a d ha
    exact absurd (ha.symm.trans (hempty n)) (Option.some_ne_none a)
  · cases full with
    | none =>
      obtain ⟨merged, hcopy, -⟩ : ∃ merged, GoMap.copy none delta = .ok merged ∧ GoMap.marshal merged = .ok j :=
        bind_eq_ok hj
      exact absurd (find_eq_none_of_copy hcopy) hempty
    | some full =>
      cases delta with
      | none => exact absurd (fun _ => rfl) hempty
      | some delta =>
        have hdelta : delta.entries.NamesValid := by
          intro n hn
          obtain ⟨a, ha⟩ := Option.isSome_iff_exists.mp hn
          exact hnames n a ha
        exact recodeAndMarshal_iff (namesValid_fullDoc hfull) hdelta hj

/-- The delta that sets `a` to the integer 9007199254740993. -/
def setsLargeA : GoMap := ⟨.member (letter 'a') (.other (some (.num 9007199254740993))) .empty, rfl, trivial⟩

/-- A single node stores the integer, and the log makes another number of it. -/
theorem logUpdateDoc_same_iff_large :
    updateDoc none (some setsLargeA) = .ok (.obj largeA) ∧
      ¬∃ j', logUpdateDoc none (some setsLargeA) = .ok j' ∧ j'.meaning = (Tree.obj largeA).meaning := by
  have hfind : ∀ n a, GoMap.find (some setsLargeA) n = some a →
      letter 'a' = n ∧ .other (some (.num 9007199254740993)) = a := by
    intro n a ha
    have hlookup : (if letter 'a' = n then some (Tree.other (some (.num 9007199254740993))) else none) = some a := ha
    split_ifs at hlookup with hn
    exact ⟨hn, Option.some.inj hlookup⟩
  have hnames : ∀ n a, GoMap.find (some setsLargeA) n = some a → n.Valid := by
    intro n a ha r hr
    obtain ⟨rfl, -⟩ := hfind n a ha
    exact ⟨'a', List.mem_singleton.mp hr⟩
  have hdirect : updateDoc none (some setsLargeA) = .ok (.obj largeA) := rfl
  refine ⟨hdirect, ?_⟩
  rw [logUpdateDoc_same_iff hnames hdirect]
  intro hsurvives
  have ha : GoMap.find (some setsLargeA) (letter 'a') = some (.other (some (.num 9007199254740993))) := by
    simp [GoMap.find, setsLargeA, Tree.lookup]
  have hexact := (hsurvives _ _ (.num 9007199254740993) ha rfl).2
  have hfixed : (parseFloat 9007199254740993).map formatFloat = some 9007199254740993 := hexact
  revert hfixed
  decide +kernel

/-! ## Texts -/

/-- `Txn.UpdateJson` and `applyUpdate` on texts, with the codecs of the state machine. -/
def JsonCodec.throughLog {G : Type} (C : JsonCodec G) (stored : Option Bytes) (delta : G) : Except Err Bytes := do
  let d ← C.marshal delta
  C.toMerge.merged .json [] stored d

section Texts

variable (scan : Bytes → Option JsonDoc) (print : JsonDoc → Bytes)

/-- `Badger.UpdateJson` on texts is the update of the documents in them. -/
theorem goJson_merge_eq (stored : Option Bytes) (delta : Option GoMap) :
    (goJson scan print).merge stored delta = (updateDoc (stored.map scan) delta).map print := by
  have hfull : (goJson scan print).fullMsg stored = fullDoc (stored.map scan) := by cases stored <;> rfl
  show ((goJson scan print).fullMsg stored).bind (fun full => (GoMap.copy full delta).bind fun merged =>
      (GoMap.marshal merged).map print) =
    ((fullDoc (stored.map scan)).bind fun full => copyAndMarshal full delta).map print
  rw [hfull]
  cases fullDoc (stored.map scan) with
  | error e => rfl
  | ok full =>
    show (GoMap.copy full delta).bind _ = ((GoMap.copy full delta).bind GoMap.marshal).map print
    cases GoMap.copy full delta with
    | error e => rfl
    | ok merged => rfl

/-- So is the update through the log, where the scanner finds the delta that the printer has printed. -/
theorem goJson_throughLog_eq (stored : Option Bytes) {delta : Option GoMap}
    (hprint : ∀ d, GoMap.marshal delta = .ok d → scan (print d) = some d) :
    (goJson scan print).throughLog stored delta = (logUpdateDoc (stored.map scan) delta).map print := by
  show ((GoMap.marshal delta).map print).bind _ =
    ((GoMap.marshal delta).bind fun d => (GoMap.unmarshal (some d)).bind (updateDoc (stored.map scan))).map print
  cases hmarshal : GoMap.marshal delta with
  | error e => rfl
  | ok d =>
    show ((GoMap.unmarshal (scan (print d))).map fun _ => ()).bind (fun _ => (GoMap.unmarshal (scan (print d))).bind
      ((goJson scan print).merge stored)) = ((GoMap.unmarshal (some d)).bind (updateDoc (stored.map scan))).map print
    rw [hprint d hmarshal]
    cases GoMap.unmarshal (some d) with
    | error e => rfl
    | ok delta' => exact goJson_merge_eq scan print stored delta'

end Texts

end Omashu
