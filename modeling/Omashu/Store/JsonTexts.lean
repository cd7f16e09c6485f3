import Mathlib.Tactic.IntervalCases
import Omashu.Store.JsonUpdates

/-!
# JSON objects in texts

Members that are the same after `json.Unmarshal` and `json.Marshal` (`Kept`) make objects that an update changes as it
should: `goJsonObjects` reads the texts and maps of `encoding/json` as such objects, given a scanner that finds in a
text what the printer wrote.

The syntax is a parameter. For members whose name is a small letter and whose value is a digit, `scanPlain` and
`printPlain` are such a scanner and a printer.
-/

namespace Omashu

open Lib Lib.Json

/-- The member is the same after it has been decoded and encoded. -/
structure Kept (n : Str) (v : JsonDoc) : Prop where
  /-- The name consists of characters. -/
  name : n.Valid
  /-- The value is written as it was read. -/
  value : (v.decode parseFloat).bind GoValue.marshal = some v

section Objects

variable {scan : Bytes → Option JsonDoc} {print : JsonDoc → Bytes} (member : Str → JsonDoc → Prop)
  [∀ n v, Decidable (member n v)]

/-- The object in a text, if its members are in the class. -/
def textObject (scan : Bytes → Option JsonDoc) (b : Bytes) : Option (Str → Option JsonDoc) :=
  match scan b with
  | some (.obj ms) => if ms.Each member then some ms.lookup else none
  | _ => none

/-- The object that a map is written as, if its names consist of characters and the members are in the class. -/
def mapObject (m : Option GoMap) : Option (Str → Option JsonDoc) := do
  let m ← m
  let ms ← m.entries.encode formatFloat id
  if (m.entries.Each fun n _ => n.coerce = n) ∧ ms.Each member then some ms.lookup else none

variable {member} {m : Option GoMap} {g : GoMap} {b : Bytes} {o : Str → Option JsonDoc} {ms : Tree ℚ Empty .members}

/-- The text of an object. -/
theorem textObject_eq_some_iff :
    textObject member scan b = some o ↔ ∃ ms, scan b = some (.obj ms) ∧ ms.Each member ∧ ms.lookup = o := by
  unfold textObject
  constructor
  · intro h
    split at h
    · rename_i ms hscan
      split_ifs at h with heach
      exact ⟨ms, hscan, heach, Option.some.inj h⟩
    · cases h
  · rintro ⟨ms, hscan, heach, rfl⟩
    simp only [hscan, if_pos heach]

/-- The map of an object. -/
theorem mapObject_eq_some_iff :
    mapObject member m = some o ↔ ∃ (g : GoMap) (ms : _), m = some g ∧ g.entries.encode formatFloat id = some ms ∧
      g.entries.NamesValid ∧ ms.Each member ∧ ms.lookup = o := by
  have hnames : ∀ g : GoMap, (g.entries.Each fun n _ => n.coerce = n) ↔ g.entries.NamesValid := by
    intro g
    rw [Tree.each_iff]
    constructor
    · intro h n hn
      obtain ⟨v, hv⟩ := Option.isSome_iff_exists.mp hn
      exact Str.coerce_eq_self_iff.mp (h.2 n v hv)
    · exact fun h => ⟨g.unique, fun n v hv => Str.coerce_eq_self_iff.mpr (h n (by rw [hv]; rfl))⟩
  constructor
  · intro h
    obtain ⟨g, rfl, h⟩ := Option.bind_eq_some_iff.mp h
    obtain ⟨ms, hencode, h⟩ := Option.bind_eq_some_iff.mp h
    split_ifs at h with heach
    exact ⟨g, ms, rfl, hencode, (hnames g).mp heach.1, heach.2, Option.some.inj h⟩
  · rintro ⟨g, ms, rfl, hencode, hvalid, heach, rfl⟩
    show (g.entries.encode formatFloat id).bind _ = _
    rw [hencode]
    exact if_pos ⟨(hnames g).mpr hvalid, heach⟩

/-- A map whose values are written to members of the class stands for an object. -/
theorem exists_mapObject (hnames : g.entries.NamesValid)
    (h : ∀ k a, g.entries.lookup k = some a → ∃ v, GoValue.marshal a = some v ∧ member k v) :
    mapObject member (some g) = some fun k => (g.entries.lookup k).bind GoValue.marshal := by
  obtain ⟨ms, hencode⟩ : ∃ ms, g.entries.encode formatFloat id = some ms := by
    refine g.unique.exists_encode fun k a ha => ?_
    obtain ⟨v, hv, -⟩ := h k a ha
    exact ⟨v, hv⟩
  have hlookup : ∀ k, ms.lookup k = (g.entries.lookup k).bind GoValue.marshal := Tree.lookup_encode hencode hnames
  refine mapObject_eq_some_iff.mpr
    ⟨g, ms, rfl, hencode, hnames, Tree.each_iff.mpr ⟨?_, fun k v hv => ?_⟩, funext hlookup⟩
  · exact g.unique.encode hnames hencode
  · obtain ⟨a, ha, hv⟩ := Option.bind_eq_some_iff.mp ((hlookup k).symm.trans hv)
    obtain ⟨v', hv', hm⟩ := h k a ha
    obtain rfl := Option.some.inj (hv.symm.trans hv')
    exact hm

/-- The members of a map that stands for an object. -/
theorem lookup_of_mapObject (h : mapObject member (some g) = some o) (k : Str) :
    o k = (g.entries.lookup k).bind GoValue.marshal ∧
      ∀ a, g.entries.lookup k = some a → k.Valid ∧ ∃ v, GoValue.marshal a = some v ∧ member k v := by
  obtain ⟨_, ms, ⟨⟩, hencode, hnames, heach, rfl⟩ := mapObject_eq_some_iff.mp h
  have hlookup : ms.lookup k = (g.entries.lookup k).bind GoValue.marshal := Tree.lookup_encode hencode hnames k
  refine ⟨hlookup, fun a ha => ⟨hnames k (by rw [ha]; rfl), ?_⟩⟩
  obtain ⟨v, hv⟩ : ∃ v, GoValue.marshal a = some v := Tree.exists_encode_of_lookup hencode ha
  refine ⟨v, hv, (Tree.each_iff.mp heach).2 k v ?_⟩
  rw [hlookup, ha, Option.bind_some, hv]

/-- Texts and maps of `encoding/json` as objects with members of a class, which are the same after being decoded and
encoded, and which the scanner finds in what the printer writes. -/
def goJsonObjects (hkept : ∀ n v, member n v → Kept n v)
    (hprint : ∀ ms : Tree ℚ Empty .members, ms.Each member → scan (print (.obj ms)) = some (.obj ms)) :
    JsonObjects (goJson scan print) (Str → Option JsonDoc) where
  text := textObject member scan
  object := mapObject member
  empty _ := none
  merge full delta k := (delta k).or (full k)
  marshal_object := by
    intro m o h
    obtain ⟨g, ms, rfl, hencode, -, heach, rfl⟩ := mapObject_eq_some_iff.mp h
    refine ⟨print (.obj ms), ?_, textObject_eq_some_iff.mpr ⟨ms, hprint ms heach, heach, rfl⟩⟩
    show (GoMap.marshal (some g)).map print = _
    rw [GoMap.marshal, hencode]
    rfl
  unmarshal_text := by
    intro b o h
    obtain ⟨ms, hscan, heach, rfl⟩ := textObject_eq_some_iff.mp h
    obtain ⟨hunique, hmember⟩ := Tree.each_iff.mp heach
    have hvalue : ∀ k v, ms.lookup k = some v → (v.decode parseFloat).bind GoValue.marshal = some v :=
      fun k v hv => (hkept k v (hmember k v hv)).value
    have hvalid : ms.NamesValid := by
      intro k hk
      obtain ⟨v, hv⟩ := Option.isSome_iff_exists.mp hk
      exact (hkept k v (hmember k v hv)).name
    rcases ofMembers_cases ms with ⟨g, hdecode, hof⟩ | ⟨hrange, -⟩
    · have hlookup : ∀ k, g.entries.lookup k = (ms.lookup k).bind (Tree.decode parseFloat) :=
        Tree.lookup_decode hdecode hvalid
      refine ⟨some g, (congrArg GoMap.unmarshal hscan).trans hof, ?_⟩
      rw [exists_mapObject (Tree.namesValid_decode hdecode)]
      · refine congrArg some (funext fun k => ?_)
        rw [hlookup]
        cases hk : ms.lookup k with
        | none => rfl
        | some v => exact hvalue k v hk
      · intro k a ha
        obtain ⟨v, hv, hva⟩ := Option.bind_eq_some_iff.mp ((hlookup k).symm.trans ha)
        have hwritten := hvalue k v hv
        rw [hva] at hwritten
        exact ⟨v, hwritten, hmember k v hv⟩
    · refine absurd ?_ hrange
      refine (Tree.exists_decode_iff (ε := Option JsonDoc) ms).mp (hunique.exists_decode fun k v hv => ?_)
      obtain ⟨a, ha, -⟩ := Option.bind_eq_some_iff.mp (hvalue k v hv)
      exact ⟨a, ha⟩
  object_empty := exists_mapObject (fun k hk => absurd hk (by simp)) fun k a ha => absurd ha (by simp)
  object_copy := by
    intro full delta o w hfull hdelta
    obtain ⟨f, -, rfl, -⟩ := mapObject_eq_some_iff.mp hfull
    obtain ⟨d, -, rfl, -⟩ := mapObject_eq_some_iff.mp hdelta
    obtain ⟨merged, hcopy, hmerged⟩ := exists_copy f (some d)
    have hentry : ∀ k a, merged.entries.lookup k = some a → k.Valid ∧ ∃ v, GoValue.marshal a = some v ∧ member k v := by
      intro k a ha
      rcases Option.or_eq_some_iff.mp ((hmerged k).symm.trans ha) with hk | ⟨-, hk⟩
      · exact (lookup_of_mapObject hdelta k).2 a hk
      · exact (lookup_of_mapObject hfull k).2 a hk
    refine ⟨some merged, hcopy, ?_⟩
    rw [exists_mapObject]
    · refine congrArg some (funext fun k => ?_)
      rw [hmerged, (lookup_of_mapObject hfull k).1, (lookup_of_mapObject hdelta k).1]
      show ((d.entries.lookup k).or _).bind _ = _
      cases hk : d.entries.lookup k with
      | none => rfl
      | some a =>
        obtain ⟨-, v, hv, -⟩ := (lookup_of_mapObject hdelta k).2 a hk
        simp [hv]
    · intro k hk
      obtain ⟨a, ha⟩ := Option.isSome_iff_exists.mp hk
      exact (hentry k a ha).1
    · exact fun k a ha => (hentry k a ha).2

end Objects

/-! ## Plain objects -/

/-- The name of a letter. -/
def letterName (b : UInt8) : Str := letter (Char.ofNat b.toNat)

/-- The byte of a name that is a small letter, and the digit of a value. -/
def plainMember (n : Str) (v : JsonDoc) : Option (UInt8 × ℕ) :=
  match n, v with
  | [r], .num q =>
    let b := UInt8.ofNat r.code
    if (97 ≤ b ∧ b ≤ 122) ∧ letterName b = n ∧ q = (q.num.toNat : ℚ) ∧ q.num.toNat < 10 then some (b, q.num.toNat)
    else none
  | _, _ => none

/-- A member of a plain object. -/
def Plain (n : Str) (v : JsonDoc) : Prop := (plainMember n v).isSome = true

instance (n : Str) (v : JsonDoc) : Decidable (Plain n v) := inferInstanceAs (Decidable (_ = true))

/-- A plain member has a letter and a digit. -/
theorem Plain.exists_eq {n : Str} {v : JsonDoc} (h : Plain n v) :
    ∃ b d, plainMember n v = some (b, d) ∧ n = letterName b ∧ v = .num (d : ℚ) ∧ d < 10 := by
  obtain ⟨⟨b, d⟩, hbd⟩ := Option.isSome_iff_exists.mp h
  refine ⟨b, d, hbd, ?_⟩
  unfold plainMember at hbd
  split at hbd
  · dsimp only at hbd
    split_ifs at hbd with hplain
    obtain ⟨rfl, rfl⟩ := Prod.mk.inj (Option.some.inj hbd)
    exact ⟨hplain.2.1.symm, congrArg Tree.num hplain.2.2.1, hplain.2.2.2⟩
  · cases hbd

/-- The text of the members, and the closing brace. -/
def printMembers : {p : Part} → Tree ℚ Empty p → Bytes
  | _, .member n v ms =>
    let x := (plainMember n v).getD (0, 0)
    34 :: x.1 :: 34 :: 58 :: UInt8.ofNat (48 + x.2) :: (if ms.length = 0 then [125] else 44 :: printMembers ms)
  | _, _ => [125]

/-- The members in a text. -/
def scanMembers : Bytes → Option (Tree ℚ Empty .members)
  | 34 :: b :: 34 :: 58 :: d :: c :: bs =>
    if c = 44 then (scanMembers bs).map (.member (letterName b) (.num (d.toNat - 48 : ℕ)))
    else if c = 125 ∧ bs = [] then some (.member (letterName b) (.num (d.toNat - 48 : ℕ)) .empty)
    else none
  | _ => none

/-- The text of a plain object, or of `null`. -/
def printPlain : JsonDoc → Bytes
  | .obj ms => 123 :: printMembers ms
  | _ => [110, 117, 108, 108]

/-- The plain object in a text. -/
def scanPlain : Bytes → Option JsonDoc
  | [123, 125] => some (.obj .empty)
  | 123 :: bs => (scanMembers bs).map .obj
  | bs => if bs = [110, 117, 108, 108] then some .null else none

/-- The members of a plain object are found in the text. -/
theorem scanMembers_printMembers {ms : Tree ℚ Empty .members} (h : ms.Each Plain) (hne : ms.length ≠ 0) :
    scanMembers (printMembers ms) = some ms := by
  induction ms using Tree.members_induction with
  | empty => exact absurd rfl hne
  | member n v ms ih =>
    obtain ⟨b, d, hplain, rfl, rfl, hd⟩ := Plain.exists_eq h.1.2
    have hdigit : (UInt8.ofNat (48 + d)).toNat - 48 = d := by interval_cases d <;> rfl
    rw [printMembers, hplain]
    simp only [Option.getD_some]
    split_ifs with hlast
    · cases ms with
      | empty => rw [scanMembers, if_neg (by decide), if_pos ⟨rfl, rfl⟩, hdigit]
      | member n v ms => exact absurd hlast (Nat.succ_ne_zero _)
    · rw [scanMembers, if_pos rfl, ih h.2 hlast, hdigit]
      rfl

/-- A plain object is found in its text. -/
theorem scanPlain_printPlain {ms : Tree ℚ Empty .members} (h : ms.Each Plain) :
    scanPlain (printPlain (.obj ms)) = some (.obj ms) := by
  cases ms with
  | empty => rfl
  | member n v ms =>
    have hscan := scanMembers_printMembers h (Nat.succ_ne_zero _)
    have hfirst : ∃ b bs, printMembers (.member n v ms) = 34 :: b :: bs := ⟨_, _, rfl⟩
    obtain ⟨b, bs, hbs⟩ := hfirst
    show scanPlain (123 :: printMembers (.member n v ms)) = _
    rw [hbs] at hscan ⊢
    rw [scanPlain, hscan]
    · rfl
    · simp

/-- A digit is written as it was read. -/
theorem formatFloat_digit : ∀ d < 10, (parseFloat (d : ℕ)).map formatFloat = some (d : ℚ) := by
  decide +kernel

/-- Plain members are the same after being decoded and encoded. -/
theorem Plain.kept {n : Str} {v : JsonDoc} (h : Plain n v) : Kept n v := by
  obtain ⟨b, d, -, rfl, rfl, hd⟩ := h.exists_eq
  refine ⟨fun r hr => ⟨_, List.mem_singleton.mp hr⟩, ?_⟩
  obtain ⟨f, hf, hformat⟩ := Option.map_eq_some_iff.mp (formatFloat_digit d hd)
  show ((parseFloat d).map Tree.num).bind GoValue.marshal = _
  rw [hf]
  exact congrArg (fun q => some (Tree.num q)) hformat

/-- The plain objects. -/
def plainObjects : JsonObjects (goJson scanPlain printPlain) (Str → Option JsonDoc) :=
  goJsonObjects (fun _ _ => Plain.kept) fun _ => scanPlain_printPlain

end Omashu
