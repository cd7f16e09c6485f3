import Mathlib.Data.List.Basic
import Mathlib.Data.Option.Basic

/-!
# JSON documents and dynamic values

A document is a tree whose objects keep the order of their members and may have a name twice (`Tree`). What
it means does not depend on either: `meaning` gives for each name of an object the value of its last member
with that name.

A decoder turns a document into a dynamic value of the same shape. It converts the numbers, which can fail,
it replaces what is no character in a string, and of several members with one name it takes the last. An
encoder goes the other way. `faithful` says that a value has the same meaning after both exactly if its
numbers survive the conversion and its strings and names consist of characters, at every depth. Members that
are hidden by a later one with the same name do not count.
-/

namespace Omashu.Lib.Json

/-- An element of a string: a character, or what is none, such as a byte that is not UTF-8 or a surrogate
without its pair. -/
inductive Rune
  /-- A character. -/
  | char (c : Char)
  /-- No character. -/
  | broken (b : ℕ)
  deriving DecidableEq

/-- Strings. -/
abbrev Str := List Rune

/-- The replacement character stands for what is no character. -/
def Rune.coerce : Rune → Rune
  | .char c => .char c
  | .broken _ => .char (Char.ofNat 0xFFFD)

/-- The number by which strings are ordered. -/
def Rune.code : Rune → ℕ
  | .char c => c.toNat
  | .broken b => b

namespace Str

/-- The string with replacement characters. -/
def coerce (s : Str) : Str := s.map Rune.coerce

/-- The string consists of characters. -/
def Valid (s : Str) : Prop := ∀ r ∈ s, ∃ c, r = .char c

/-- A string is kept exactly if it consists of characters. -/
theorem coerce_eq_self_iff {s : Str} : coerce s = s ↔ Valid s := by
  have hrune : ∀ r : Rune, r.coerce = r ↔ ∃ c, r = .char c := by
    intro r
    cases r with
    | char c => exact ⟨fun _ => ⟨c, rfl⟩, fun _ => rfl⟩
    | broken b => simp [Rune.coerce]
  unfold coerce Valid
  simp only [← hrune]
  induction s with
  | nil => simp
  | cons r s ih =>
    rw [List.map_cons, List.cons.injEq, List.forall_mem_cons]
    exact and_congr_right' ih

/-- After the replacement, a string consists of characters. -/
theorem valid_coerce (s : Str) : Valid (coerce s) := by
  intro r hr
  obtain ⟨r', -, rfl⟩ := List.mem_map.mp hr
  cases r' with
  | char c => exact ⟨c, rfl⟩
  | broken b => exact ⟨_, rfl⟩

end Str

/-- The parts of a tree. -/
inductive Part
  | value
  /-- The elements of an array. -/
  | elems
  /-- The members of an object. -/
  | members

/-- Trees with numbers in `ν` and other leaves in `ε`. -/
inductive Tree (ν ε : Type) : Part → Type
  | null : Tree ν ε .value
  /-- A Boolean. -/
  | bool (b : Bool) : Tree ν ε .value
  /-- A number. -/
  | num (q : ν) : Tree ν ε .value
  | str (s : Str) : Tree ν ε .value
  /-- Another leaf. -/
  | other (x : ε) : Tree ν ε .value
  /-- An array. -/
  | arr (l : Tree ν ε .elems) : Tree ν ε .value
  /-- An object. -/
  | obj (ms : Tree ν ε .members) : Tree ν ε .value
  /-- No elements. -/
  | nil : Tree ν ε .elems
  /-- An element and those after it. -/
  | cons (v : Tree ν ε .value) (l : Tree ν ε .elems) : Tree ν ε .elems
  /-- No members. -/
  | empty : Tree ν ε .members
  /-- A member and those after it. -/
  | member (n : Str) (v : Tree ν ε .value) (ms : Tree ν ε .members) : Tree ν ε .members

/-! ## Members -/

namespace Tree

variable {ν ε : Type} {p : Part}

/-- The number of members. -/
def length : {p : Part} → Tree ν ε p → ℕ
  | _, .member _ _ ms => ms.length + 1
  | _, _ => 0

/-- The value of the last member with the name. -/
def lookup : {p : Part} → Tree ν ε p → Str → Option (Tree ν ε .value)
  | _, .member n v ms, k => (ms.lookup k).or (if n = k then some v else none)
  | _, _, _ => none

/-- The members, with a new one before the first that has a greater name. -/
def insert : {p : Part} → Tree ν ε p → Str → Tree ν ε .value → Tree ν ε p
  | _, .empty, n, v => .member n v .empty
  | _, .member n' v' ms, n, v =>
    if n.map Rune.code < n'.map Rune.code then .member n v (.member n' v' ms) else .member n' v' (ms.insert n v)
  | _, t, _, _ => t

/-- The members, with a new one if none has its name. -/
def insertNew (ms : Tree ν ε .members) (n : Str) (v : Tree ν ε .value) : Tree ν ε .members :=
  if (ms.lookup n).isSome then ms else ms.insert n v

/-- The members without those of the name. -/
def erase : {p : Part} → Tree ν ε p → Str → Tree ν ε p
  | _, .member n' v ms, n => if n' = n then ms.erase n else .member n' v (ms.erase n)
  | _, t, _ => t

/-- The members, with one that replaces those of its name. -/
def set (ms : Tree ν ε .members) (n : Str) (v : Tree ν ε .value) : Tree ν ε .members := (ms.erase n).insert n v

/-- The members of `full`, with those of the tree set one after the other. -/
def copyInto : {p : Part} → Tree ν ε p → Tree ν ε .members → Tree ν ε .members
  | _, .member n v ms, full => ms.copyInto (full.set n v)
  | _, _, full => full

/-- No two members have the same name. -/
def Unique : {p : Part} → Tree ν ε p → Prop
  | _, .member n _ ms => ms.lookup n = none ∧ ms.Unique
  | _, _ => True

/-- The names of the members consist of characters. -/
def NamesValid (ms : Tree ν ε .members) : Prop := ∀ n, (ms.lookup n).isSome = true → n.Valid

/-- Induction on the members of an object. -/
@[elab_as_elim]
theorem members_induction {motive : Tree ν ε .members → Prop} (empty : motive .empty)
    (member : ∀ n v ms, motive ms → motive (.member n v ms)) : ∀ ms, motive ms
  | .empty => empty
  | .member n v ms => member n v ms (members_induction empty member ms)
termination_by ms => ms.length
decreasing_by exact Nat.lt_succ_self _

variable {n : Str} {v : Tree ν ε .value} {ms : Tree ν ε .members}

/-- Nothing is found without members. -/
@[simp]
theorem lookup_empty (k : Str) : (empty : Tree ν ε .members).lookup k = none := rfl

/-- Inserting the only member. -/
theorem insert_empty (n : Str) (v : Tree ν ε .value) : (empty : Tree ν ε .members).insert n v = member n v .empty :=
  rfl

/-- Inserting a member before or after the first one. -/
theorem insert_member (n' : Str) (v' : Tree ν ε .value) (ms : Tree ν ε .members) (n : Str) (v : Tree ν ε .value) :
    (member n' v' ms).insert n v =
      if n.map Rune.code < n'.map Rune.code then member n v (member n' v' ms) else member n' v' (ms.insert n v) :=
  rfl

/-- Erasing a name, by the first member. -/
theorem erase_member (n' : Str) (v : Tree ν ε .value) (ms : Tree ν ε .members) (n : Str) :
    (member n' v ms).erase n = if n' = n then ms.erase n else member n' v (ms.erase n) := rfl

/-- The last member with a name, by the first member. -/
theorem lookup_member (n : Str) (v : Tree ν ε .value) (ms : Tree ν ε .members) (k : Str) :
    (member n v ms).lookup k = (ms.lookup k).or (if n = k then some v else none) := rfl

/-- What is found is found in the other members or is the value of the first one. -/
theorem lookup_eq_some {k : Str} {w : Tree ν ε .value}
    (h : (ms.lookup k).or (if n = k then some v else none) = some w) : ms.lookup k = some w ∨ v = w := by
  rcases Option.or_eq_some_iff.mp h with hlater | ⟨-, hfirst⟩
  · exact .inl hlater
  · split_ifs at hfirst
    exact .inr (Option.some.inj hfirst)

/-- A name is found in the first member or in the others. -/
theorem isSome_lookup_member (n : Str) (v : Tree ν ε .value) (ms : Tree ν ε .members) (k : Str) :
    ((member n v ms).lookup k).isSome = true ↔ (ms.lookup k).isSome = true ∨ n = k := by
  rw [lookup_member, Option.isSome_or, Bool.or_eq_true]
  split_ifs with hn <;> simp [hn]

/-- The names of the members, by the first member. -/
theorem namesValid_member : (member n v ms).NamesValid ↔ n.Valid ∧ ms.NamesValid := by
  simp only [NamesValid, isSome_lookup_member]
  constructor
  · exact fun h => ⟨h n (.inr rfl), fun k hk => h k (.inl hk)⟩
  · rintro ⟨hn, hms⟩ k (hk | rfl)
    · exact hms k hk
    · exact hn

/-- A new member is found under its name, and the others as before. -/
theorem lookup_insert (h : ms.lookup n = none) (k : Str) :
    (ms.insert n v).lookup k = if n = k then some v else ms.lookup k := by
  induction ms using members_induction with
  | empty => rw [insert_empty, lookup_member, lookup_empty, Option.none_or]
  | member n' v' ms ih =>
    rw [lookup_member, Option.or_eq_none_iff] at h
    rw [insert_member]
    split_ifs with hlt hk
    · rw [lookup_member, lookup_member, ← hk, h.1, h.2, if_pos rfl]
      rfl
    · rw [lookup_member, if_neg hk, Option.or_none]
    · rw [lookup_member, ih h.1, if_pos ‹_›]
      rfl
    · rw [lookup_member, ih h.1, if_neg ‹_›, lookup_member]

/-- A member that may be new is found where its name is not found before. -/
theorem lookup_insertNew (ms : Tree ν ε .members) (n : Str) (v : Tree ν ε .value) (k : Str) :
    (ms.insertNew n v).lookup k = (ms.lookup k).or (if n = k then some v else none) := by
  unfold insertNew
  split_ifs with hsome hk hk
  · obtain ⟨w, hw⟩ := Option.isSome_iff_exists.mp hsome
    rw [← hk, hw, Option.some_or]
  · rw [Option.or_none]
  · have hnone : ms.lookup n = none := Option.not_isSome_iff_eq_none.mp hsome
    rw [lookup_insert hnone, if_pos hk, ← hk, hnone, Option.none_or]
  · rw [lookup_insert (Option.not_isSome_iff_eq_none.mp hsome), if_neg hk, Option.or_none]

/-- An erased name is not found, and the others as before. -/
theorem lookup_erase (ms : Tree ν ε .members) (n k : Str) :
    (ms.erase n).lookup k = if n = k then none else ms.lookup k := by
  induction ms using members_induction with
  | empty => exact (ite_self _).symm
  | member n' v ms ih =>
    rw [erase_member]
    by_cases hn : n' = n
    · rw [if_pos hn, ih, lookup_member]
      split_ifs with hk hk'
      · rfl
      · exact absurd (hn.symm.trans hk') hk
      · rw [Option.or_none]
    · rw [if_neg hn, lookup_member, ih, lookup_member]
      split_ifs with hk hk'
      · exact absurd (hk'.trans hk.symm) hn
      · rfl
      · rfl
      · rfl

/-- A member that is set is found under its name, and the others as before. -/
theorem lookup_set (ms : Tree ν ε .members) (n : Str) (v : Tree ν ε .value) (k : Str) :
    (ms.set n v).lookup k = if n = k then some v else ms.lookup k := by
  have habsent : (ms.erase n).lookup n = none := by rw [lookup_erase, if_pos rfl]
  rw [set, lookup_insert habsent, lookup_erase]
  split_ifs <;> rfl

/-- A new name keeps the names different. -/
theorem Unique.insert (h : ms.Unique) (hn : ms.lookup n = none) : (ms.insert n v).Unique := by
  induction ms using members_induction with
  | empty => exact ⟨rfl, trivial⟩
  | member n' v' ms ih =>
    have hname : n ≠ n' := by
      rintro rfl
      simp [lookup_member] at hn
    have hrest : ms.lookup n = none := (Option.or_eq_none_iff.mp hn).1
    rw [insert_member]
    split_ifs
    · exact ⟨hn, h⟩
    · refine ⟨?_, ih h.2 hrest⟩
      rw [lookup_insert hrest, if_neg hname]
      exact h.1

/-- A member that may be new keeps the names different. -/
theorem Unique.insertNew (h : ms.Unique) (n : Str) (v : Tree ν ε .value) : (ms.insertNew n v).Unique := by
  unfold Tree.insertNew
  split_ifs with hsome
  · exact h
  · exact h.insert (Option.not_isSome_iff_eq_none.mp hsome)

/-- Erasing a name keeps the names different. -/
theorem Unique.erase (h : ms.Unique) (n : Str) : (ms.erase n).Unique := by
  induction ms using members_induction with
  | empty => trivial
  | member n' v ms ih =>
    rw [erase_member]
    split_ifs with hn
    · exact ih h.2
    · refine ⟨?_, ih h.2⟩
      rw [lookup_erase, h.1, ite_self]

/-- Setting a member keeps the names different. -/
theorem Unique.set (h : ms.Unique) (n : Str) (v : Tree ν ε .value) : (ms.set n v).Unique := by
  apply (h.erase n).insert
  rw [lookup_erase, if_pos rfl]

/-- What is copied is found first. -/
theorem lookup_copyInto (delta full : Tree ν ε .members) (k : Str) :
    (delta.copyInto full).lookup k = (delta.lookup k).or (full.lookup k) := by
  induction delta using members_induction generalizing full with
  | empty => rfl
  | member n v delta ih =>
    show (delta.copyInto (full.set n v)).lookup k = _
    rw [ih, lookup_set, lookup_member, Option.or_assoc]
    split_ifs
    · rfl
    · rw [Option.none_or]

/-- A copy keeps the names different. -/
theorem Unique.copyInto {full : Tree ν ε .members} (h : full.Unique) (delta : Tree ν ε .members) :
    (delta.copyInto full).Unique := by
  induction delta using members_induction generalizing full with
  | empty => exact h
  | member n v delta ih => exact ih (h.set n v)

end Tree

/-! ## What a document means -/

/-- What a value is: an item, the items of an array, or the value of a name. -/
inductive Role
  | item
  /-- The items of an array. -/
  | items
  /-- The value of a name, if it has one. -/
  | slot

/-- The values that documents stand for. An object is a function of the names. -/
inductive Value (ν : Type) : Role → Type
  | null : Value ν .item
  /-- A Boolean. -/
  | bool (b : Bool) : Value ν .item
  /-- A number. -/
  | num (q : ν) : Value ν .item
  | str (s : Str) : Value ν .item
  /-- An array. -/
  | arr (l : Value ν .items) : Value ν .item
  /-- An object. -/
  | obj (members : Str → Value ν .slot) : Value ν .item
  /-- No items. -/
  | nil : Value ν .items
  /-- An item and those after it. -/
  | cons (v : Value ν .item) (l : Value ν .items) : Value ν .items
  /-- The name has no value. -/
  | absent : Value ν .slot
  /-- The value of the name. -/
  | present (v : Value ν .item) : Value ν .slot

/-- What a part of a document stands for. -/
abbrev Meaning (ν : Type) : Part → Type
  | .value => Value ν .item
  | .elems => Value ν .items
  | .members => Str → Value ν .slot

/-- The value of a name. -/
def Value.ofOption {ν : Type} : Option (Value ν .item) → Value ν .slot
  | none => .absent
  | some v => .present v

/-- The first value, or the second one if there is none. -/
def Value.orElse {ν : Type} : Value ν .slot → Value ν .slot → Value ν .slot
  | .absent, s => s
  | .present v, _ => .present v

/-- Numbers survive by `fixed`, and strings and names consist of characters. -/
def Value.Exact {ν : Type} (fixed : ν → Prop) : {r : Role} → Value ν r → Prop
  | _, .null => True
  | _, .bool _ => True
  | _, .num q => fixed q
  | _, .str s => s.Valid
  | _, .arr l => l.Exact fixed
  | _, .obj members => ∀ n, (members n ≠ .absent → n.Valid) ∧ (members n).Exact fixed
  | _, .nil => True
  | _, .cons v l => v.Exact fixed ∧ l.Exact fixed
  | _, .absent => True
  | _, .present v => v.Exact fixed

namespace Tree

variable {ν φ ε : Type}

/-- What a document stands for. -/
def meaning : {p : Part} → Tree ν Empty p → Meaning ν p
  | _, .null => Value.null
  | _, .bool b => Value.bool b
  | _, .num q => Value.num q
  | _, .str s => Value.str s
  | _, .other x => x.elim
  | _, .arr l => Value.arr l.meaning
  | _, .obj ms => Value.obj ms.meaning
  | _, .nil => Value.nil
  | _, .cons v l => Value.cons v.meaning l.meaning
  | _, .empty => fun _ => Value.absent
  | _, .member n v ms => fun k => (ms.meaning k).orElse (if n = k then .present v.meaning else .absent)

/-- The members of an object stand for the values that are found under their names. -/
theorem meaning_members (ms : Tree ν Empty .members) (k : Str) :
    ms.meaning k = Value.ofOption ((ms.lookup k).map meaning) := by
  induction ms using members_induction with
  | empty => rfl
  | member n v ms ih =>
    show (ms.meaning k).orElse _ = _
    rw [ih, lookup_member]
    cases ms.lookup k with
    | some w => rfl
    | none =>
      rw [Option.none_or]
      split_ifs <;> rfl

/-! ## Decoding and encoding -/

/-- Decoding, with numbers converted by `nearest`. Of several members with one name, the last is taken. -/
def decode (nearest : ν → Option φ) : {p : Part} → Tree ν Empty p → Option (Tree φ ε p)
  | _, .null => some .null
  | _, .bool b => some (.bool b)
  | _, .num q => (nearest q).map .num
  | _, .str s => some (.str s.coerce)
  | _, .other x => x.elim
  | _, .arr l => (l.decode nearest).map .arr
  | _, .obj ms => (ms.decode nearest).map .obj
  | _, .nil => some .nil
  | _, .cons v l => do
    let v ← v.decode nearest
    let l ← l.decode nearest
    return .cons v l
  | _, .empty => some .empty
  | _, .member n v ms => do
    let v ← v.decode nearest
    let ms ← ms.decode nearest
    -- A later member with the name has been decoded already.
    return ms.insertNew n.coerce v

/-- Encoding, with numbers converted by `format` and other leaves by `ext`. -/
def encode (format : φ → ν) (ext : ε → Option (Tree ν Empty .value)) : {p : Part} → Tree φ ε p → Option (Tree ν Empty p)
  | _, .null => some .null
  | _, .bool b => some (.bool b)
  | _, .num f => some (.num (format f))
  | _, .str s => some (.str s.coerce)
  | _, .other x => ext x
  | _, .arr l => (l.encode format ext).map .arr
  | _, .obj ms => (ms.encode format ext).map .obj
  | _, .nil => some .nil
  | _, .cons v l => do
    let v ← v.encode format ext
    let l ← l.encode format ext
    return .cons v l
  | _, .empty => some .empty
  | _, .member n v ms => do
    let v ← v.encode format ext
    let ms ← ms.encode format ext
    return .member n.coerce v ms

/-- Every number of the document is converted by `nearest`. -/
def InRange (nearest : ν → Option φ) : {p : Part} → Tree ν Empty p → Prop
  | _, .num q => (nearest q).isSome = true
  | _, .arr l => l.InRange nearest
  | _, .obj ms => ms.InRange nearest
  | _, .cons v l => v.InRange nearest ∧ l.InRange nearest
  | _, .member _ v ms => v.InRange nearest ∧ ms.InRange nearest
  | _, _ => True

section Codec

variable {nearest : ν → Option φ} {format : φ → ν} {ext : ε → Option (Tree ν Empty .value)}

/-- Decoding a member. -/
theorem decode_member_eq_some {n : Str} {v : Tree ν Empty .value} {ms : Tree ν Empty .members}
    {g : Tree φ ε .members} :
    (member n v ms).decode nearest = some g ↔
      ∃ a g', v.decode nearest = some a ∧ ms.decode nearest = some g' ∧ g'.insertNew n.coerce a = g := by
  show ((v.decode nearest).bind fun a => (ms.decode nearest).bind fun g' => some (g'.insertNew n.coerce a)) =
    some g ↔ _
  simp only [Option.bind_eq_some_iff, Option.some.injEq, exists_and_left]

/-- Decoding an element. -/
theorem decode_cons_eq_some {v : Tree ν Empty .value} {l : Tree ν Empty .elems} {g : Tree φ ε .elems} :
    (cons v l).decode nearest = some g ↔
      ∃ a g', v.decode nearest = some a ∧ l.decode nearest = some g' ∧ cons a g' = g := by
  show ((v.decode nearest).bind fun a => (l.decode nearest).bind fun g' => some (cons a g')) = some g ↔ _
  simp only [Option.bind_eq_some_iff, Option.some.injEq, exists_and_left]

/-- Encoding a member. -/
theorem encode_member_eq_some {n : Str} {a : Tree φ ε .value} {g : Tree φ ε .members}
    {ms : Tree ν Empty .members} :
    (member n a g).encode format ext = some ms ↔
      ∃ v ms', a.encode format ext = some v ∧ g.encode format ext = some ms' ∧ member n.coerce v ms' = ms := by
  show ((a.encode format ext).bind fun v => (g.encode format ext).bind fun ms' => some (member n.coerce v ms')) =
    some ms ↔ _
  simp only [Option.bind_eq_some_iff, Option.some.injEq, exists_and_left]

/-- Encoding an element. -/
theorem encode_cons_eq_some {a : Tree φ ε .value} {g : Tree φ ε .elems} {l : Tree ν Empty .elems} :
    (cons a g).encode format ext = some l ↔
      ∃ v l', a.encode format ext = some v ∧ g.encode format ext = some l' ∧ cons v l' = l := by
  show ((a.encode format ext).bind fun v => (g.encode format ext).bind fun l' => some (cons v l')) = some l ↔ _
  simp only [Option.bind_eq_some_iff, Option.some.injEq, exists_and_left]

/-- Encoding an array. -/
theorem encode_arr {g : Tree φ ε .elems} {l : Tree ν Empty .elems} (h : g.encode format ext = some l) :
    (arr g).encode format ext = some (arr l) := congrArg (Option.map arr) h

/-- Encoding an object. -/
theorem encode_obj {g : Tree φ ε .members} {ms : Tree ν Empty .members} (h : g.encode format ext = some ms) :
    (obj g).encode format ext = some (obj ms) := congrArg (Option.map obj) h

/-- A conversion gives a value exactly if what it converts is one. -/
theorem exists_map_eq_some_iff {α β : Type} {f : α → β} {o : Option α} :
    (∃ b, o.map f = some b) ↔ ∃ a, o = some a := by
  cases o <;> simp

/-- A document is decoded exactly if all its numbers are converted. -/
theorem exists_decode_iff {p : Part} (t : Tree ν Empty p) :
    (∃ g : Tree φ ε p, t.decode nearest = some g) ↔ t.InRange nearest := by
  induction t with
  | num q => exact exists_map_eq_some_iff.trans Option.isSome_iff_exists.symm
  | other x => exact x.elim
  | arr l ih | obj ms ih => exact exists_map_eq_some_iff.trans ih
  | cons v l ihv ihl =>
    show _ ↔ v.InRange nearest ∧ l.InRange nearest
    rw [← ihv, ← ihl]
    simp [decode_cons_eq_some]
  | member n v ms ihv ihms =>
    show _ ↔ v.InRange nearest ∧ ms.InRange nearest
    rw [← ihv, ← ihms]
    simp [decode_member_eq_some]
  | _ => exact ⟨fun _ => trivial, fun _ => ⟨_, rfl⟩⟩

/-! ### Names -/

section Names

variable {ms ms' : Tree ν Empty .members} {g : Tree φ ε .members} {k : Str}

/-- The member that is found under a name has been decoded. -/
theorem exists_decode_of_lookup (h : ms.decode nearest = some g) {v : Tree ν Empty .value}
    (hv : ms.lookup k = some v) : ∃ a : Tree φ ε .value, v.decode nearest = some a := by
  induction ms using members_induction generalizing g with
  | empty => exact absurd hv (by simp)
  | member n w ms ih =>
    obtain ⟨a, g', hw, hms, -⟩ := decode_member_eq_some.mp h
    rcases lookup_eq_some hv with hlater | rfl
    · exact ih hms hlater
    · exact ⟨a, hw⟩

/-- The names of decoded members are different. -/
theorem unique_decode (h : ms.decode nearest = some g) : g.Unique := by
  induction ms using members_induction generalizing g with
  | empty =>
    obtain rfl := Option.some.inj h
    trivial
  | member n v ms ih =>
    obtain ⟨a, g', -, hms, rfl⟩ := decode_member_eq_some.mp h
    exact (ih hms).insertNew n.coerce a

/-- The names of decoded members consist of characters. -/
theorem namesValid_decode (h : ms.decode nearest = some g) : g.NamesValid := by
  induction ms using members_induction generalizing g with
  | empty =>
    obtain rfl := Option.some.inj h
    exact fun k hk => absurd hk (by simp)
  | member n v ms ih =>
    obtain ⟨a, g', -, hms, rfl⟩ := decode_member_eq_some.mp h
    intro k hk
    rw [lookup_insertNew, ← lookup_member, isSome_lookup_member] at hk
    rcases hk with hk | rfl
    · exact ih hms k hk
    · exact Str.valid_coerce n

/-- Where all names consist of characters, the decoded members are found under the same names. -/
theorem lookup_decode (h : ms.decode nearest = some g) (hvalid : ms.NamesValid) (k : Str) :
    g.lookup k = (ms.lookup k).bind (decode nearest) := by
  induction ms using members_induction generalizing g with
  | empty =>
    obtain rfl := Option.some.inj h
    rfl
  | member n v ms ih =>
    obtain ⟨a, g', hv, hms, rfl⟩ := decode_member_eq_some.mp h
    obtain ⟨hn, hrest⟩ := namesValid_member.mp hvalid
    rw [Str.coerce_eq_self_iff.mpr hn, lookup_insertNew, lookup_member, ih hms hrest]
    cases hk : ms.lookup k with
    | some w =>
      obtain ⟨b, hb⟩ := exists_decode_of_lookup hms hk
      rw [Option.some_or, Option.bind_some, hb, Option.some_or]
    | none =>
      rw [Option.none_or, Option.bind_none, Option.none_or]
      split_ifs
      · exact hv.symm
      · rfl

/-- The member that is found under a name has been encoded. -/
theorem exists_encode_of_lookup (h : g.encode format ext = some ms) {a : Tree φ ε .value} (ha : g.lookup k = some a) :
    ∃ v, a.encode format ext = some v := by
  induction g using members_induction generalizing ms with
  | empty => exact absurd ha (by simp)
  | member n b g ih =>
    obtain ⟨v, ms', hb, hms, -⟩ := encode_member_eq_some.mp h
    rcases lookup_eq_some ha with hlater | rfl
    · exact ih hms hlater
    · exact ⟨v, hb⟩

/-- Members with different names are encoded if what is found under each name is. -/
theorem Unique.exists_encode (hunique : g.Unique) (h : ∀ k a, g.lookup k = some a → ∃ v, a.encode format ext = some v) :
    ∃ ms, g.encode format ext = some ms := by
  induction g using members_induction with
  | empty => exact ⟨.empty, rfl⟩
  | member n a g ih =>
    obtain ⟨v, hv⟩ : ∃ v, a.encode format ext = some v := by
      apply h n
      rw [lookup_member, hunique.1, Option.none_or, if_pos rfl]
    obtain ⟨ms, hms⟩ : ∃ ms, g.encode format ext = some ms := by
      refine ih hunique.2 fun k b hb => h k b ?_
      rw [lookup_member, hb]
      rfl
    exact ⟨_, encode_member_eq_some.mpr ⟨v, ms, hv, hms, rfl⟩⟩

/-- Members with different names are decoded if what is found under each name is. -/
theorem Unique.exists_decode (hunique : ms.Unique)
    (h : ∀ k v, ms.lookup k = some v → ∃ a : Tree φ ε .value, v.decode nearest = some a) :
    ∃ g : Tree φ ε .members, ms.decode nearest = some g := by
  induction ms using members_induction with
  | empty => exact ⟨.empty, rfl⟩
  | member n v ms ih =>
    obtain ⟨a, ha⟩ : ∃ a : Tree φ ε .value, v.decode nearest = some a := by
      apply h n
      rw [lookup_member, hunique.1, Option.none_or, if_pos rfl]
    obtain ⟨g, hg⟩ : ∃ g : Tree φ ε .members, ms.decode nearest = some g := by
      refine ih hunique.2 fun k w hw => h k w ?_
      rw [lookup_member, hw]
      rfl
    exact ⟨_, decode_member_eq_some.mpr ⟨a, g, ha, hg, rfl⟩⟩

/-- Encoded members have names of characters. -/
theorem namesValid_encode (h : g.encode format ext = some ms) : ms.NamesValid := by
  induction g using members_induction generalizing ms with
  | empty =>
    obtain rfl := Option.some.inj h
    exact fun k hk => absurd hk (by simp)
  | member n a g ih =>
    obtain ⟨v, ms', -, hms, rfl⟩ := encode_member_eq_some.mp h
    exact namesValid_member.mpr ⟨Str.valid_coerce n, ih hms⟩

/-- Where all names consist of characters, the encoded members are found under the same names. -/
theorem lookup_encode (h : g.encode format ext = some ms) (hvalid : g.NamesValid) (k : Str) :
    ms.lookup k = (g.lookup k).bind (encode format ext) := by
  induction g using members_induction generalizing ms with
  | empty =>
    obtain rfl := Option.some.inj h
    rfl
  | member n a g ih =>
    obtain ⟨v, ms', ha, hms, rfl⟩ := encode_member_eq_some.mp h
    obtain ⟨hn, hrest⟩ := namesValid_member.mp hvalid
    rw [Str.coerce_eq_self_iff.mpr hn, lookup_member, lookup_member, ih hms hrest]
    cases hk : g.lookup k with
    | some b =>
      obtain ⟨w, hw⟩ := exists_encode_of_lookup hms hk
      rw [Option.some_or, Option.bind_some, hw, Option.some_or]
    | none =>
      rw [Option.none_or, Option.bind_none, Option.none_or]
      split_ifs
      · exact ha.symm
      · rfl

/-- Different names of characters are different in the encoding. -/
theorem Unique.encode (hunique : g.Unique) (hvalid : g.NamesValid) (h : g.encode format ext = some ms) : ms.Unique := by
  induction g using members_induction generalizing ms with
  | empty =>
    obtain rfl := Option.some.inj h
    trivial
  | member n a g ih =>
    obtain ⟨v, ms', -, hms, rfl⟩ := encode_member_eq_some.mp h
    obtain ⟨hn, hg⟩ := namesValid_member.mp hvalid
    refine ⟨?_, ih hunique.2 hg hms⟩
    rw [Str.coerce_eq_self_iff.mpr hn, lookup_encode hms hg, hunique.1]
    rfl

/-- What is decoded can be encoded. -/
theorem exists_encode_of_decode {p : Part} (t : Tree ν Empty p) {a : Tree φ ε p} (h : t.decode nearest = some a) :
    ∃ j, a.encode format ext = some j := by
  induction t with
  | num q =>
    obtain ⟨f, -, rfl⟩ := Option.map_eq_some_iff.mp h
    exact ⟨_, rfl⟩
  | other x => exact x.elim
  | arr l ih =>
    obtain ⟨g, hg, rfl⟩ := Option.map_eq_some_iff.mp h
    obtain ⟨j, hj⟩ := ih hg
    exact ⟨.arr j, encode_arr hj⟩
  | obj ms ih =>
    obtain ⟨g, hg, rfl⟩ := Option.map_eq_some_iff.mp h
    obtain ⟨j, hj⟩ := ih hg
    exact ⟨.obj j, encode_obj hj⟩
  | cons v l ihv ihl =>
    obtain ⟨b, g, hv, hl, rfl⟩ := decode_cons_eq_some.mp h
    obtain ⟨j, hj⟩ := ihv hv
    obtain ⟨j', hj'⟩ := ihl hl
    exact ⟨_, encode_cons_eq_some.mpr ⟨j, j', hj, hj', rfl⟩⟩
  | member n v ms ihv ihms =>
    obtain ⟨b, g, hv, hms, rfl⟩ := decode_member_eq_some.mp h
    obtain ⟨ms', hms'⟩ := ihms hms
    refine (unique_decode h).exists_encode fun k c hc => ?_
    rw [lookup_insertNew] at hc
    rcases lookup_eq_some hc with hlater | rfl
    · exact exists_encode_of_lookup hms' hlater
    · exact ihv hv
  | _ =>
    obtain rfl := Option.some.inj h
    exact ⟨_, rfl⟩

end Names

/-! ### The round trip -/

section RoundTrip

variable (nearest format ext)

/-- The number is the same after both conversions. -/
def Fixed (q : ν) : Prop := (nearest q).map format = some q

/-- A part of a document has the same meaning after decoding and encoding exactly if its numbers survive and its
strings consist of characters. -/
def Faithful {r : Role} {p : Part} (read : Tree ν Empty p → Value ν r) (t : Tree ν Empty p) : Prop :=
  ∀ (a : Tree φ ε p) j, t.decode nearest = some a → a.encode format ext = some j →
    (read j = read t ↔ (read t).Exact (Fixed nearest format))

/-- All values in a part of a document are faithful. -/
def AllFaithful : {p : Part} → Tree ν Empty p → Prop
  | .value, t => Faithful nearest format ext meaning t
  | .elems, t => Faithful nearest format ext meaning t
  | .members, t => ∀ k v, t.lookup k = some v → Faithful nearest format ext meaning v

variable {nearest format ext} {ms ms' : Tree ν Empty .members} {g : Tree φ ε .members}

/-- A name has a value exactly if it is found. -/
theorem meaning_ne_absent_iff {k : Str} : ms.meaning k ≠ .absent ↔ (ms.lookup k).isSome = true := by
  rw [meaning_members]
  cases ms.lookup k <;> simp [Value.ofOption]

/-- Where the names consist of characters, the value of a name is kept exactly if it is exact. -/
theorem slot_faithful (hall : AllFaithful nearest format ext ms) (h : ms.decode nearest = some g)
    (hvalid : ms.NamesValid) (k : Str) :
    Value.ofOption (((g.lookup k).bind (encode format ext)).map meaning) = ms.meaning k ↔
      (ms.meaning k).Exact (Fixed nearest format) := by
  rw [lookup_decode h hvalid, meaning_members]
  cases hk : ms.lookup k with
  | none => exact ⟨fun _ => trivial, fun _ => rfl⟩
  | some v =>
    obtain ⟨a, ha⟩ : ∃ a : Tree φ ε .value, v.decode nearest = some a := exists_decode_of_lookup h hk
    obtain ⟨j, hj⟩ : ∃ j, a.encode format ext = some j := exists_encode_of_decode v ha
    rw [Option.bind_some, ha, Option.bind_some, hj, Option.map_some, Option.map_some]
    show Value.present j.meaning = Value.present v.meaning ↔ _
    rw [Value.present.injEq]
    exact hall k v hk a j ha hj

/-- An object is kept exactly if its names consist of characters and its values are exact. -/
theorem members_faithful (hall : AllFaithful nearest format ext ms) (h : ms.decode nearest = some g)
    (h' : g.encode format ext = some ms') :
    ms'.meaning = ms.meaning ↔
      ∀ n, (ms.meaning n ≠ .absent → n.Valid) ∧ (ms.meaning n).Exact (Fixed nearest format) := by
  have hslot : ∀ k, ms'.meaning k = Value.ofOption (((g.lookup k).bind (encode format ext)).map meaning) := by
    intro k
    rw [meaning_members, lookup_encode h' (namesValid_decode h)]
  constructor
  · intro heq
    have hvalid : ms.NamesValid := by
      intro k hk
      apply namesValid_encode h'
      rwa [← meaning_ne_absent_iff, heq, meaning_ne_absent_iff]
    intro k
    refine ⟨fun hk => hvalid k (meaning_ne_absent_iff.mp hk), ?_⟩
    rw [← slot_faithful hall h hvalid, ← hslot, heq]
  · intro hexact
    have hvalid : ms.NamesValid := fun k hk => (hexact k).1 (meaning_ne_absent_iff.mpr hk)
    funext k
    rw [hslot, slot_faithful hall h hvalid]
    exact (hexact k).2

/-- A part that is kept and exact is faithful. -/
theorem Faithful.of_kept {r : Role} {p : Part} {read : Tree ν Empty p → Value ν r} {t : Tree ν Empty p}
    {a : Tree φ ε p} (hdecode : t.decode nearest = some a) (hencode : a.encode format ext = some t)
    (hexact : (read t).Exact (Fixed nearest format)) : Faithful nearest format ext read t := by
  intro b j hb hj
  obtain rfl : a = b := Option.some.inj (hdecode.symm.trans hb)
  obtain rfl : t = j := Option.some.inj (hencode.symm.trans hj)
  exact ⟨fun _ => hexact, fun _ => rfl⟩

/-- Every part of every document is faithful. -/
theorem allFaithful {p : Part} (t : Tree ν Empty p) : AllFaithful nearest format ext t := by
  induction t with
  | null | bool => exact Faithful.of_kept rfl rfl trivial
  | num q =>
    intro a j ha hj
    obtain ⟨f, hf, rfl⟩ := Option.map_eq_some_iff.mp ha
    obtain rfl := Option.some.inj hj
    show Value.num (format f) = Value.num q ↔ Fixed nearest format q
    rw [Fixed, hf, Option.map_some, Value.num.injEq, Option.some.injEq]
  | str s =>
    intro a j ha hj
    obtain rfl := Option.some.inj ha
    obtain rfl := Option.some.inj hj
    show Value.str s.coerce.coerce = Value.str s ↔ s.Valid
    rw [Str.coerce_eq_self_iff.mpr (Str.valid_coerce s), Value.str.injEq, Str.coerce_eq_self_iff]
  | other x => exact x.elim
  | arr l ih =>
    intro a j ha hj
    obtain ⟨g, hg, rfl⟩ := Option.map_eq_some_iff.mp ha
    obtain ⟨l', hl', rfl⟩ := Option.map_eq_some_iff.mp hj
    show Value.arr l'.meaning = Value.arr l.meaning ↔ _
    rw [Value.arr.injEq]
    exact ih g l' hg hl'
  | obj ms ih =>
    intro a j ha hj
    obtain ⟨g, hg, rfl⟩ := Option.map_eq_some_iff.mp ha
    obtain ⟨ms', hms', rfl⟩ := Option.map_eq_some_iff.mp hj
    show Value.obj ms'.meaning = Value.obj ms.meaning ↔ _
    rw [Value.obj.injEq]
    exact members_faithful ih hg hms'
  | nil => exact Faithful.of_kept rfl rfl trivial
  | cons v l ihv ihl =>
    intro a j ha hj
    obtain ⟨b, g, hv, hl, rfl⟩ := decode_cons_eq_some.mp ha
    obtain ⟨v', l', hv', hl', rfl⟩ := encode_cons_eq_some.mp hj
    show Value.cons v'.meaning l'.meaning = Value.cons v.meaning l.meaning ↔ _
    rw [Value.cons.injEq]
    exact and_congr (ihv b v' hv hv') (ihl g l' hl hl')
  | empty => exact fun k v hk => absurd hk (by simp)
  | member n v ms ihv ihms =>
    intro k w hw
    rcases lookup_eq_some hw with hlater | rfl
    · exact ihms k w hlater
    · exact ihv

end RoundTrip

end Codec

/-! ## Members of a class -/

/-- No two members have the same name, and each is in the class. -/
def Each (member : Str → Tree ν ε .value → Prop) : {p : Part} → Tree ν ε p → Prop
  | _, .member n v ms => (ms.lookup n = none ∧ member n v) ∧ ms.Each member
  | _, _ => True

instance (member : Str → Tree ν ε .value → Prop) [∀ n v, Decidable (member n v)] :
    {p : Part} → (t : Tree ν ε p) → Decidable (t.Each member)
  | _, .member n v ms =>
    have := instDecidableEach member ms
    decidable_of_iff (((ms.lookup n).isNone ∧ member n v) ∧ ms.Each member)
      (by rw [Option.isNone_iff_eq_none]; rfl)
  | _, .null | _, .bool _ | _, .num _ | _, .str _ | _, .other _ | _, .arr _ | _, .obj _ | _, .nil | _, .cons _ _
  | _, .empty => isTrue trivial

/-- The members are those that are found under their names. -/
theorem each_iff {member : Str → Tree ν ε .value → Prop} {ms : Tree ν ε .members} :
    ms.Each member ↔ ms.Unique ∧ ∀ k v, ms.lookup k = some v → member k v := by
  induction ms using members_induction with
  | empty => exact ⟨fun _ => ⟨trivial, fun k v h => absurd h (by simp)⟩, fun _ => trivial⟩
  | member n v ms ih =>
    constructor
    · rintro ⟨⟨hn, hm⟩, hms⟩
      obtain ⟨hunique, hall⟩ := ih.mp hms
      refine ⟨⟨hn, hunique⟩, fun k w hw => ?_⟩
      rw [lookup_member, Option.or_eq_some_iff] at hw
      rcases hw with hw | ⟨-, hw⟩
      · exact hall k w hw
      · split_ifs at hw with hk
        obtain rfl := Option.some.inj hw
        exact hk ▸ hm
    · rintro ⟨⟨hn, hunique⟩, hall⟩
      refine ⟨⟨hn, hall n v ?_⟩, ih.mpr ⟨hunique, fun k w hw => hall k w ?_⟩⟩
      · rw [lookup_member, hn, if_pos rfl, Option.none_or]
      · rw [lookup_member, hw, Option.some_or]

end Tree

end Omashu.Lib.Json
