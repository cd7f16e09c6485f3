import Mathlib.Data.List.MinMax
import Mathlib.Data.Nat.Log
import Mathlib.Data.Rat.Floor
import Omashu.Lib.Json
import Omashu.Store.Json

/-!
# JSON updates

`UpdateJsonWithTxn` decodes the stored document into a `map[string]any`, copies the delta into it and
encodes the result. What the delta does not mention makes a round trip through the values of the language: a
number becomes the nearest `float64` and is written with as few digits as identify it, and what is no
character in a string is replaced. A stored `null` decodes into a nil map, and a copy into a nil map panics.

`json_update_iff` says exactly when an update is the shallow merge that it is documented to be. The document
must not be `null`. If it is an object, its numbers must be in the range of `float64`, also those that are
overwritten; the delta must have an encoding, and keys of characters; and what the delta does not mention
must have numbers that survive, and strings and names of characters.

A text is represented by its syntax tree, which the scanner of `encoding/json` finds in the stored bytes
(`scan`). `goJson_merge` relates the update of trees to that of texts.
-/

namespace Omashu

open Lib Lib.Json

/-! ## Numbers -/

/-- The nearest integer, the even one of two. -/
def roundEven (q : ℚ) : ℤ :=
  if q - ⌊q⌋ < 1 / 2 ∨ q - ⌊q⌋ = 1 / 2 ∧ ⌊q⌋ % 2 = 0 then ⌊q⌋ else ⌊q⌋ + 1

/-- The exponent of the first digit of a number other than zero. -/
def leadingExponent (base : ℕ) (q : ℚ) : ℤ :=
  let e : ℤ := Nat.log base q.num.natAbs - Nat.log base q.den
  if |q| < (base : ℚ) ^ e then e - 1 else e

/-- `strconv.ParseFloat`: the nearest `float64`, with a significand of 53 bits and exponents from -1074 on; none
where that is out of range. -/
def parseFloat (q : ℚ) : Option ℚ :=
  let e := max (leadingExponent 2 q - 52) (-1074)
  let f := roundEven (q / 2 ^ e) * (2 : ℚ) ^ e
  if |f| < (2 ^ 1024 : ℕ) then some f else none

/-- The two decimals next to a number that have their last digit `n` places after the first digit. -/
def nextDecimals (f : ℚ) (n : ℕ) : List ℚ :=
  let unit : ℚ := 10 ^ (leadingExponent 10 f - n)
  [⌊f / unit⌋ * unit, (⌊f / unit⌋ + 1) * unit]

/-- `strconv.FormatFloat` with the smallest number of digits that identifies the `float64`. -/
def formatFloat (f : ℚ) : ℚ :=
  ((List.range 17).findSome? fun n =>
    ((nextDecimals f n).filter fun d => parseFloat d = some f).argmin fun d => |d - f|).getD f

/-- A tenth is written as it was read. -/
example : (parseFloat (1 / 10)).map formatFloat = some (1 / 10) := by decide +kernel

/-! ## The update -/

/-- Documents. -/
abbrev JsonDoc := Tree ℚ Empty .value

/-- Values of type `any`. Those that no document decodes into are represented by what `json.Marshal` makes
of them, which may be nothing. -/
abbrev GoValue := Tree ℚ (Option JsonDoc) .value

/-- A `map[string]any` that is not nil. -/
structure GoMap where
  /-- The entries, in the order of their keys. -/
  entries : Tree ℚ (Option JsonDoc) .members
  /-- Each key has one entry. -/
  unique : entries.Unique

/-- `json.Marshal` of a value. -/
def GoValue.marshal (a : GoValue) : Option JsonDoc := a.encode formatFloat id

namespace GoMap

/-- `json.Marshal`. A nil map is written as `null`. -/
def marshal : Option GoMap → Except Err JsonDoc
  | none => .ok .null
  | some m =>
    match m.entries.encode formatFloat id with
    | some ms => .ok (.obj ms)
    | none => .error .malformed

/-- The map that the members of an object are decoded into. -/
def ofMembers (ms : Tree ℚ Empty .members) : Except Err (Option GoMap) :=
  match h : ms.decode parseFloat with
  | some g => .ok (some ⟨g, Tree.unique_decode h⟩)
  | none => .error .malformed

/-- `json.Unmarshal` into a `map[string]any`. -/
def unmarshal : Option JsonDoc → Except Err (Option GoMap)
  -- The literal `null` sets the map to nil.
  | some .null => .ok none
  | some (.obj ms) => ofMembers ms
  | _ => .error .malformed

/-- `maps.Copy`. -/
def copy : (full delta : Option GoMap) → Except Err (Option GoMap)
  | full, none => .ok full
  | some full, some delta => .ok (some ⟨delta.entries.copyInto full.entries, full.unique.copyInto delta.entries⟩)
  | none, some delta =>
    match delta.entries with
    | .empty => .ok none
    -- An assignment to an entry of a nil map.
    | .member .. => .error .panicked

/-- The entry of a key. -/
def find (m : Option GoMap) (k : Str) : Option GoValue := m.bind fun m => m.entries.lookup k

end GoMap

/-- `UpdateJsonWithTxn` on the stored document: none if the bytes are no JSON text. -/
def updateJson (stored : Option JsonDoc) (delta : Option GoMap) : Except Err JsonDoc := do
  let fullMsg ← GoMap.unmarshal stored
  let merged ← GoMap.copy fullMsg delta
  GoMap.marshal merged

/-! ## The shallow merge -/

/-- The text is a JSON object. -/
def IsObject (stored : Option JsonDoc) : Prop := ∃ ms, stored = some (.obj ms)

/-- The members of the stored object. -/
def storedMembers : Option JsonDoc → Str → Value ℚ .slot
  | some (.obj ms) => ms.meaning
  | _ => fun _ => .absent

/-- The result of an update is a shallow merge. It never panics. Either the stored bytes are no object and
there is an error, or the new document is an object: the member for a key of the delta is the value of the
delta, and every other member is the stored one. -/
def ShallowMerge (stored : Option JsonDoc) (delta : Option GoMap) (result : Except Err JsonDoc) : Prop :=
  result ≠ .error .panicked ∧
    (¬IsObject stored ∧ (∃ e, result = .error e) ∨
      ∃ ms, result = .ok (.obj ms) ∧ ∀ n,
        (∀ a, GoMap.find delta n = some a → ∃ j, GoValue.marshal a = some j ∧ ms.meaning n = .present j.meaning) ∧
          (GoMap.find delta n = none → ms.meaning n = storedMembers stored n))

/-- What an object and a delta have to be for the merge: the numbers of the object are in range, each value
of the delta has an encoding and its key consists of characters, and the members that the delta does not
have survive a round trip. -/
structure Mergeable (ms : Tree ℚ Empty .members) (delta : Option GoMap) : Prop where
  /-- The numbers of the object. -/
  inRange : ms.InRange parseFloat
  /-- The values of the delta. -/
  encodes : ∀ n a, GoMap.find delta n = some a → n.Valid ∧ ∃ j, GoValue.marshal a = some j
  /-- The other members of the object. -/
  survives : ∀ n, GoMap.find delta n = none →
    (ms.meaning n ≠ .absent → n.Valid) ∧ (ms.meaning n).Exact (Tree.Fixed parseFloat formatFloat)

/-- The members of an object are decoded into a map if its numbers are in range. -/
theorem ofMembers_cases (ms : Tree ℚ Empty .members) :
    (∃ g, ms.decode parseFloat = some g.entries ∧ GoMap.ofMembers ms = .ok (some g)) ∨
      ¬ms.InRange parseFloat ∧ GoMap.ofMembers ms = .error .malformed := by
  unfold GoMap.ofMembers
  split
  · rename_i g hg
    exact .inl ⟨⟨g, Tree.unique_decode hg⟩, hg, rfl⟩
  · rename_i hnone
    refine .inr ⟨fun hrange => ?_, rfl⟩
    obtain ⟨g, hg⟩ := (Tree.exists_decode_iff ms).mpr hrange
    rw [hnone] at hg
    exact absurd hg (by simp)

/-- A copy into a map sets the entries of the delta. -/
theorem exists_copy (full : GoMap) (delta : Option GoMap) :
    ∃ merged, GoMap.copy (some full) delta = .ok (some merged) ∧
      ∀ k, merged.entries.lookup k = (GoMap.find delta k).or (full.entries.lookup k) := by
  cases delta with
  | none => exact ⟨full, by cases full; rfl, fun k => rfl⟩
  | some delta => exact ⟨_, rfl, Tree.lookup_copyInto delta.entries full.entries⟩

section Merged

variable {ms ms' : Tree ℚ Empty .members} {full merged : GoMap} {delta : Option GoMap}

/-- The names of the merged map consist of characters if those of the delta do. -/
theorem namesValid_merged (hfull : ms.decode parseFloat = some full.entries)
    (hmerged : ∀ k, merged.entries.lookup k = (GoMap.find delta k).or (full.entries.lookup k))
    (hdelta : ∀ n a, GoMap.find delta n = some a → n.Valid) : merged.entries.NamesValid := by
  intro k hk
  rw [hmerged, Option.isSome_or, Bool.or_eq_true] at hk
  rcases hk with hk | hk
  · obtain ⟨a, ha⟩ := Option.isSome_iff_exists.mp hk
    exact hdelta k a ha
  · exact Tree.namesValid_decode hfull k hk

/-- The merged map is written if the values of the delta have encodings. -/
theorem exists_encode_merged (hfull : ms.decode parseFloat = some full.entries)
    (hmerged : ∀ k, merged.entries.lookup k = (GoMap.find delta k).or (full.entries.lookup k))
    (hdelta : ∀ n a, GoMap.find delta n = some a → ∃ j, GoValue.marshal a = some j) :
    ∃ ms', merged.entries.encode formatFloat id = some ms' := by
  obtain ⟨msFull, hmsFull⟩ : ∃ j, full.entries.encode formatFloat id = some j :=
    Tree.exists_encode_of_decode ms hfull
  refine merged.unique.exists_encode fun k a ha => ?_
  rw [hmerged] at ha
  rcases Option.or_eq_some_iff.mp ha with hk | ⟨-, hk⟩
  · exact hdelta k a hk
  · exact Tree.exists_encode_of_lookup hmsFull hk

/-- The written document is the shallow merge exactly if the object and the delta can be merged. -/
theorem merged_iff (hfull : ms.decode parseFloat = some full.entries)
    (hmerged : ∀ k, merged.entries.lookup k = (GoMap.find delta k).or (full.entries.lookup k))
    (hwritten : merged.entries.encode formatFloat id = some ms') :
    (∀ n, (∀ a, GoMap.find delta n = some a → ∃ j, GoValue.marshal a = some j ∧ ms'.meaning n = .present j.meaning) ∧
        (GoMap.find delta n = none → ms'.meaning n = ms.meaning n)) ↔
      Mergeable ms delta := by
  -- The slots of the document, where the names of the delta consist of characters.
  have hslot : (∀ n a, GoMap.find delta n = some a → n.Valid) → ∀ n, ms'.meaning n =
      Value.ofOption ((((GoMap.find delta n).or (full.entries.lookup n)).bind
        (Tree.encode formatFloat id)).map Tree.meaning) := by
    intro hvalid n
    rw [Tree.meaning_members, Tree.lookup_encode hwritten (namesValid_merged hfull hmerged hvalid), hmerged]
  have hall : Tree.AllFaithful parseFloat formatFloat (id : Option JsonDoc → Option JsonDoc) ms := Tree.allFaithful ms
  have hfaithful := Tree.slot_faithful hall hfull
  constructor
  · intro h
    have hwrittenValid := Tree.namesValid_encode hwritten
    have hdelta : ∀ n a, GoMap.find delta n = some a → n.Valid := by
      intro n a ha
      obtain ⟨j, -, hj⟩ := (h n).1 a ha
      apply hwrittenValid
      rw [← Tree.meaning_ne_absent_iff, hj]
      simp
    have hvalid : ms.NamesValid := by
      intro n hn
      cases ha : GoMap.find delta n with
      | some a => exact hdelta n a ha
      | none =>
        apply hwrittenValid
        rwa [← Tree.meaning_ne_absent_iff, (h n).2 ha, Tree.meaning_ne_absent_iff]
    refine ⟨(Tree.exists_decode_iff ms).mp ⟨_, hfull⟩, fun n a ha => ?_, fun n hn => ?_⟩
    · obtain ⟨j, hj, -⟩ := (h n).1 a ha
      exact ⟨hdelta n a ha, j, hj⟩
    · refine ⟨fun hpresent => hvalid n (Tree.meaning_ne_absent_iff.mp hpresent), ?_⟩
      rw [← hfaithful hvalid, ← (h n).2 hn, hslot hdelta, hn, Option.none_or]
  · intro h
    have hdelta : ∀ n a, GoMap.find delta n = some a → n.Valid := fun n a ha => (h.encodes n a ha).1
    have hvalid : ms.NamesValid := by
      intro n hn
      cases ha : GoMap.find delta n with
      | some a => exact hdelta n a ha
      | none => exact (h.survives n ha).1 (Tree.meaning_ne_absent_iff.mpr hn)
    intro n
    rw [hslot hdelta]
    constructor
    · intro a ha
      obtain ⟨j, hj⟩ := (h.encodes n a ha).2
      have hencode : Tree.encode formatFloat id a = some j := hj
      refine ⟨j, hj, ?_⟩
      rw [ha, Option.some_or, Option.bind_some, hencode]
      rfl
    · intro hn
      rw [hn, Option.none_or]
      exact (hfaithful hvalid n).mpr (h.survives n hn).2

end Merged

/-- An update of an object is the shallow merge exactly if the object and the delta can be merged. -/
theorem updateJson_obj_iff (ms : Tree ℚ Empty .members) (delta : Option GoMap) :
    ShallowMerge (some (.obj ms)) delta (updateJson (some (.obj ms)) delta) ↔ Mergeable ms delta := by
  have hobject : IsObject (some (.obj ms)) := ⟨ms, rfl⟩
  rcases ofMembers_cases ms with ⟨full, hfull, hof⟩ | ⟨hrange, hof⟩
  · obtain ⟨merged, hcopy, hmerged⟩ := exists_copy full delta
    have hupdate : updateJson (some (.obj ms)) delta = GoMap.marshal (some merged) := by
      simp only [updateJson, GoMap.unmarshal, hof, hcopy, bind, Except.bind]
    rw [hupdate]
    cases hwritten : merged.entries.encode formatFloat id with
    | none =>
      -- There is an error, because a value of the delta has no encoding.
      have herror : GoMap.marshal (some merged) = .error .malformed := by simp only [GoMap.marshal, hwritten]
      rw [herror]
      constructor
      · rintro ⟨-, ⟨hnot, -⟩ | ⟨ms', hok, -⟩⟩
        · exact absurd hobject hnot
        · exact absurd hok (by simp)
      · intro h
        obtain ⟨ms', hms'⟩ := exists_encode_merged hfull hmerged fun n a ha => (h.encodes n a ha).2
        rw [hms'] at hwritten
        exact absurd hwritten (by simp)
    | some ms' =>
      have hok : GoMap.marshal (some merged) = .ok (.obj ms') := by simp only [GoMap.marshal, hwritten]
      rw [hok, ← merged_iff hfull hmerged hwritten]
      constructor
      · rintro ⟨-, ⟨hnot, -⟩ | ⟨ms₁, hok₁, h⟩⟩
        · exact absurd hobject hnot
        · obtain rfl := Tree.obj.inj (Except.ok.inj hok₁)
          exact h
      · exact fun h => ⟨by simp, .inr ⟨ms', rfl, h⟩⟩
  · have hupdate : updateJson (some (.obj ms)) delta = .error .malformed := by
      simp only [updateJson, GoMap.unmarshal, hof, bind, Except.bind]
    rw [hupdate]
    constructor
    · rintro ⟨-, ⟨hnot, -⟩ | ⟨ms', hok, -⟩⟩
      · exact absurd hobject hnot
      · exact absurd hok (by simp)
    · exact fun h => absurd h.inRange hrange

/-- An update of `null` is never the shallow merge: it writes `null`, or it panics. -/
theorem not_shallowMerge_null (delta : Option GoMap) :
    ¬ShallowMerge (some .null) delta (updateJson (some .null) delta) := by
  have hupdate : updateJson (some .null) delta = .ok .null ∨ updateJson (some .null) delta = .error .panicked := by
    simp only [updateJson, GoMap.unmarshal, bind, Except.bind]
    cases delta with
    | none => exact .inl rfl
    | some delta =>
      obtain ⟨entries, unique⟩ := delta
      cases entries with
      | empty => exact .inl rfl
      | member n v ms => exact .inr rfl
  rintro ⟨hpanic, ⟨-, e, herror⟩ | ⟨ms, hok, -⟩⟩
  · rcases hupdate with hnull | hpanicked
    · rw [hnull] at herror
      exact absurd herror (by simp)
    · exact hpanic hpanicked
  · rcases hupdate with hnull | hpanicked
    · rw [hnull] at hok
      exact absurd hok (by simp)
    · exact hpanic hpanicked

/-- For every stored text and every delta, an update is the shallow merge exactly if the stored document is not
`null` and, if it is an object, the object and the delta can be merged. -/
theorem json_update_iff (scan : Bytes → Option JsonDoc) (stored : Bytes) (delta : Option GoMap) :
    ShallowMerge (scan stored) delta (updateJson (scan stored) delta) ↔
      scan stored ≠ some .null ∧ ∀ ms, scan stored = some (.obj ms) → Mergeable ms delta := by
  generalize scan stored = doc
  -- Other documents are no objects, and are rejected.
  have hother : (∀ ms, doc ≠ some (.obj ms)) → updateJson doc delta = .error .malformed →
      ShallowMerge doc delta (updateJson doc delta) := by
    intro hnot hupdate
    rw [hupdate]
    exact ⟨by simp, .inl ⟨fun ⟨ms, hms⟩ => hnot ms hms, _, rfl⟩⟩
  cases doc with
  | none => exact ⟨fun _ => ⟨by simp, by simp⟩, fun _ => hother (by simp) rfl⟩
  | some v =>
    cases v with
    | null => exact ⟨fun h => absurd h (not_shallowMerge_null delta), fun h => absurd rfl h.1⟩
    | obj ms =>
      rw [updateJson_obj_iff]
      exact ⟨fun h => ⟨by simp, fun ms' hms' => by obtain rfl := Tree.obj.inj (Option.some.inj hms'); exact h⟩,
        fun h => h.2 ms rfl⟩
    | other x => exact x.elim
    | _ => exact ⟨fun _ => ⟨by simp, by simp⟩, fun _ => hother (by simp) rfl⟩

/-- The name that consists of one character. -/
def letter (c : Char) : Str := [.char c]

/-- The delta that sets `b` to true. -/
def setsB : GoMap := ⟨.member (letter 'b') (.bool true) .empty, rfl, trivial⟩

/-- The object whose member `a` is 9007199254740993. -/
def largeA : Tree ℚ Empty .members := .member (letter 'a') (.num 9007199254740993) .empty

/-- An update of a stored `null` panics. An update of `b` in an object whose member `a` is 9007199254740993
makes it 9007199254740992. -/
theorem json_update_panics :
    (updateJson (some .null) (some setsB) = .error .panicked ∧
        ¬ShallowMerge (some .null) (some setsB) (updateJson (some .null) (some setsB))) ∧
      (parseFloat 9007199254740993).map formatFloat = some 9007199254740992 ∧
        ¬ShallowMerge (some (.obj largeA)) (some setsB) (updateJson (some (.obj largeA)) (some setsB)) := by
  have hround : (parseFloat 9007199254740993).map formatFloat = some 9007199254740992 := by decide +kernel
  refine ⟨⟨rfl, not_shallowMerge_null _⟩, hround, ?_⟩
  rw [updateJson_obj_iff]
  intro h
  have hfind : GoMap.find (some setsB) (letter 'a') = none := by
    have hne : ¬letter 'b' = letter 'a' := by decide
    simp [GoMap.find, setsB, Tree.lookup, hne]
  have hexact := (h.survives (letter 'a') hfind).2
  have hslot : largeA.meaning (letter 'a') = .present (.num 9007199254740993) := by
    simp [largeA, Tree.meaning, Value.orElse]
  rw [hslot] at hexact
  have hfixed : (parseFloat 9007199254740993).map formatFloat = some 9007199254740993 := hexact
  rw [hround] at hfixed
  exact absurd hfixed (by decide)

/-! ## Texts -/

/-- A map is written exactly if its entries are. -/
theorem exists_marshal_iff (m : GoMap) :
    (∃ j, GoMap.marshal (some m) = .ok j) ↔ ∃ ms, m.entries.encode formatFloat id = some ms := by
  simp only [GoMap.marshal]
  cases m.entries.encode formatFloat id with
  | none | some => simp

/-- A map is written only if what was copied into it is. -/
theorem exists_marshal_of_copy {full delta merged : Option GoMap} {j : JsonDoc}
    (hcopy : GoMap.copy full delta = .ok merged) (hmarshal : GoMap.marshal merged = .ok j) :
    ∃ d, GoMap.marshal delta = .ok d := by
  cases delta with
  | none => exact ⟨.null, rfl⟩
  | some delta =>
    rw [exists_marshal_iff]
    apply delta.unique.exists_encode
    intro k a ha
    cases full with
    | none =>
      -- The delta has no entries, since there was no panic.
      obtain ⟨entries, unique⟩ := delta
      cases entries with
      | empty => exact absurd ha (by simp [Tree.lookup])
      | member n v ms => exact absurd hcopy (by simp [GoMap.copy])
    | some full =>
      obtain ⟨m, hm, hlookup⟩ := exists_copy full (some delta)
      obtain rfl : some m = merged := Except.ok.inj (hm.symm.trans hcopy)
      obtain ⟨ms, hms⟩ := (exists_marshal_iff m).mp ⟨j, hmarshal⟩
      refine Tree.exists_encode_of_lookup hms (k := k) ?_
      have hfind : GoMap.find (some delta) k = some a := ha
      rw [hlookup, hfind, Option.some_or]

/-- `encoding/json` on texts, given the syntax: a scanner and a printer of documents. -/
def goJson (scan : Bytes → Option JsonDoc) (print : JsonDoc → Bytes) : JsonCodec (Option GoMap) where
  marshal m := (GoMap.marshal m).map print
  unmarshal b := GoMap.unmarshal (scan b)
  empty := some ⟨.empty, trivial⟩
  copy := GoMap.copy
  marshal_copy full delta merged b hcopy hmarshal := by
    obtain ⟨j, hj, -⟩ := map_eq_ok hmarshal
    obtain ⟨d, hd⟩ := exists_marshal_of_copy hcopy hj
    exact ⟨print d, by rw [hd]; rfl⟩

/-- The update of a text is that of the document in it. -/
theorem goJson_merge (scan : Bytes → Option JsonDoc) (print : JsonDoc → Bytes) (stored : Bytes)
    (delta : Option GoMap) :
    (goJson scan print).merge (some stored) delta = (updateJson (scan stored) delta).map print := by
  unfold JsonCodec.merge updateJson
  show (GoMap.unmarshal (scan stored)).bind (fun full => (GoMap.copy full delta).bind fun merged =>
    (GoMap.marshal merged).map print) = _
  cases GoMap.unmarshal (scan stored) with
  | error e => rfl
  | ok full =>
    show (GoMap.copy full delta).bind (fun merged => (GoMap.marshal merged).map print) =
      ((GoMap.copy full delta).bind GoMap.marshal).map print
    cases GoMap.copy full delta with
    | error e => rfl
    | ok merged => rfl

end Omashu
