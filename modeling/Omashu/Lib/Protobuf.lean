import Mathlib.Data.Finset.Basic
import Mathlib.Data.Nat.Notation

/-!
# Protobuf messages and their merge

A schema gives the fields of each message type. A field is a oneof, a list or a map, of scalars or of messages, so
message types may refer to each other and to themselves. A singular field by itself is a oneof with one case. `Value`
holds the values of a schema by construction: a field of a message has a value of its kind, at most one case of a oneof
is populated, and a map has finitely many keys. A message also has the fields that were not known when it was decoded,
as bytes.

A oneof is populated if one of its cases is set, a list if it is not empty. `merge` is `proto.Merge`: a populated
scalar overwrites, lists are appended, the entries of a map overwrite those with their key, a populated message is
merged field by field, the cases of a oneof replace each other, and unknown fields are appended.

Merging the same message again changes nothing exactly if nothing of it is appended, neither a list nor unknown fields,
at any depth below its singular messages (`merge_merge_iff`). Lists in the values of maps and in the elements of lists
do not count, since those values are not merged. What is not populated in a message is kept by its merge exactly if no
case of a oneof gives way to another one (`keeps_merge_iff`).
-/

namespace Omashu.Lib.Protobuf

/-- What a case of a oneof, an element of a list or a value of a map is. -/
inductive Elem (Message ScalarType : Type)
  /-- A scalar of the type. -/
  | scalar (t : ScalarType)
  /-- A message of the type. -/
  | message (m : Message)

/-- The kinds of fields. -/
inductive Kind (Message ScalarType : Type)
  /-- A oneof with its cases, or a singular field, which is the only case. -/
  | oneof (cases : ℕ) (elem : Fin cases → Elem Message ScalarType)
  | list (e : Elem Message ScalarType)
  | map (e : Elem Message ScalarType)

/-- A singular field. -/
abbrev Kind.singular {Message ScalarType : Type} (e : Elem Message ScalarType) : Kind Message ScalarType :=
  .oneof 1 fun _ => e

/-- The descriptors of message types. -/
structure Schema where
  /-- The message types. -/
  Message : Type
  /-- The scalar types. The one of a field with implicit presence is without the default value, with which the field is
  not populated. -/
  ScalarType : Type
  /-- The fields of a message type. -/
  Field : Message → Type
  /-- The kind of a field. -/
  kind : (m : Message) → Field m → Kind Message ScalarType
  /-- The scalars of a type. -/
  Scalar : ScalarType → Type
  MapKey : Type
  /-- The keys can be compared. -/
  decEqMapKey : DecidableEq MapKey

attribute [instance] Schema.decEqMapKey

/-- What a value is for: an element, or a field of a kind. -/
inductive Shape (Message ScalarType : Type)
  /-- An element. -/
  | elem (e : Elem Message ScalarType)
  | field (k : Kind Message ScalarType)

/-- The values of a schema. -/
inductive Value (S : Schema) : Shape S.Message S.ScalarType → Type
  | scalar {t : S.ScalarType} (v : S.Scalar t) : Value S (.elem (.scalar t))
  /-- A message, by the values of its fields and the unknown fields. -/
  | message {m : S.Message} (fields : (i : S.Field m) → Value S (.field (S.kind m i))) (unknown : List UInt8) :
    Value S (.elem (.message m))
  /-- A oneof that is not populated. -/
  | unset {n : ℕ} {elem : Fin n → Elem S.Message S.ScalarType} : Value S (.field (.oneof n elem))
  /-- A oneof with its populated case. -/
  | set {n : ℕ} {elem : Fin n → Elem S.Message S.ScalarType} (j : Fin n) (v : Value S (.elem (elem j))) :
    Value S (.field (.oneof n elem))
  /-- The empty list. -/
  | nil {e : Elem S.Message S.ScalarType} : Value S (.field (.list e))
  /-- A list with its first element. -/
  | cons {e : Elem S.Message S.ScalarType} (v : Value S (.elem e)) (vs : Value S (.field (.list e))) :
    Value S (.field (.list e))
  /-- A map: its keys and their values. -/
  | map {e : Elem S.Message S.ScalarType} (keys : Finset S.MapKey)
    (entries : {key // key ∈ keys} → Value S (.elem e)) : Value S (.field (.map e))

namespace Value

variable {S : Schema} {e : Elem S.Message S.ScalarType} {n : ℕ} {elem : Fin n → Elem S.Message S.ScalarType}

/-- A field that is not populated. -/
def unpopulated : (k : Kind S.Message S.ScalarType) → Value S (.field k)
  | .oneof _ _ => .unset
  | .list _ => .nil
  | .map _ => .map ∅ fun key => absurd key.2 (Finset.notMem_empty key.1)

/-- The message with no field populated. -/
def empty (m : S.Message) : Value S (.elem (.message m)) := .message (fun _ => unpopulated _) []

/-- The elements of the first list and then those of the second. -/
def append : {sh : Shape S.Message S.ScalarType} → Value S sh → Value S sh → Value S sh
  | _, .nil, ws => ws
  | _, .cons v vs, ws => .cons v (vs.append ws)
  -- The value is no list.
  | _, v, _ => v

/-- The value of a case of a oneof, if it is the populated one. -/
def member : Value S (.field (.oneof n elem)) → (j : Fin n) → Option (Value S (.elem (elem j)))
  | .unset, _ => none
  | .set j' v, j => if h : j' = j then some (h ▸ v) else none

/-- The value of a key of a map. -/
def entry : Value S (.field (.map e)) → S.MapKey → Option (Value S (.elem e))
  | .map keys entries, key => if h : key ∈ keys then some (entries ⟨key, h⟩) else none

/-- What a value is merged into where there is nothing: a new message, which `Mutable` sets. A scalar is overwritten. -/
def fresh : Value S (.elem e) → Value S (.elem e)
  | .scalar v => .scalar v
  | .message _ _ => .empty _

/-- `proto.Merge` of the second value into the first. -/
def merge : {sh : Shape S.Message S.ScalarType} → Value S sh → Value S sh → Value S sh
  | _, _, .scalar v => .scalar v
  | _, .message dst unknown, .message src unknown' => .message (fun i => (dst i).merge (src i)) (unknown ++ unknown')
  | _, dst, .unset => dst
  | _, dst, .set j src => .set j (((dst.member j).getD src.fresh).merge src)
  | _, dst, .nil => dst
  | _, dst, .cons v vs => dst.append (.cons v vs)
  | _, .map keys dst, .map keys' src =>
    .map (keys ∪ keys') fun key =>
      if h : key.1 ∈ keys' then src ⟨key.1, h⟩ else dst ⟨key.1, (Finset.mem_union.mp key.2).resolve_right h⟩

/-- There is nothing to append below singular messages: no list is populated, and there are no unknown fields. -/
def AppendsNothing : {sh : Shape S.Message S.ScalarType} → Value S sh → Prop
  | _, .scalar _ => True
  | _, .message fields unknown => unknown = [] ∧ ∀ i, (fields i).AppendsNothing
  | _, .unset => True
  | _, .set _ v => v.AppendsNothing
  | _, .nil => True
  | _, .cons _ _ => False
  | _, .map _ _ => True

/-- Every list that is populated in the first value, at any depth, is the corresponding list of the second. -/
def ListsIn : {sh : Shape S.Message S.ScalarType} → Value S sh → Value S sh → Prop
  | _, .scalar _, _ => True
  | _, .message src _, .message v _ => ∀ i, (src i).ListsIn (v i)
  | _, .unset, _ => True
  | _, .set j src, v => ∃ w, v.member j = some w ∧ src.ListsIn w
  | _, .nil, _ => True
  | _, .cons w ws, v => v = .cons w ws
  | _, .map keys src, v => ∀ key (h : key ∈ keys), ∃ w, v.entry key = some w ∧ (src ⟨key, h⟩).ListsIn w

/-- The fields that are not populated in `src`, at any depth below singular messages, the cases of oneofs among them,
and the keys that its maps do not have, have the same values in `v` as in `dst`, and so have the unknown fields, after
which come those of `src`. -/
def Keeps : {sh : Shape S.Message S.ScalarType} → (dst src v : Value S sh) → Prop
  | _, _, .scalar _, _ => True
  | _, .message dst unknown, .message src unknown', .message v unknown'' =>
    unknown'' = unknown ++ unknown' ∧ ∀ i, (dst i).Keeps (src i) (v i)
  | _, dst, .unset, v => v = dst
  | _, dst, .set j src, v =>
    (∀ j', j' ≠ j → v.member j' = dst.member j') ∧
      ∃ w, v.member j = some w ∧ ((dst.member j).getD src.fresh).Keeps src w
  | _, dst, .nil, v => v = dst
  | _, _, .cons _ _, _ => True
  | _, dst, .map keys _, v => ∀ key, key ∉ keys → v.entry key = dst.entry key

/-- Where a case of a oneof is populated in `src`, at any depth below singular messages, no other case is in `dst`. -/
def SameCases : {sh : Shape S.Message S.ScalarType} → (dst src : Value S sh) → Prop
  | _, _, .scalar _ => True
  | _, .message dst _, .message src _ => ∀ i, (dst i).SameCases (src i)
  | _, _, .unset => True
  | _, dst, .set j src =>
    (∀ j', j' ≠ j → dst.member j' = none) ∧ ((dst.member j).getD src.fresh).SameCases src
  | _, _, .nil => True
  | _, _, .cons _ _ => True
  | _, _, .map _ _ => True

/-! ## Lists, oneofs and maps -/

/-- The number of elements of a list. -/
def length : {sh : Shape S.Message S.ScalarType} → Value S sh → ℕ
  | _, .cons _ vs => vs.length + 1
  | _, _ => 0

/-- The number of elements of two lists. -/
theorem length_append (vs ws : Value S (.field (.list e))) : (vs.append ws).length = vs.length + ws.length := by
  cases vs with
  | nil => exact (Nat.zero_add _).symm
  | cons v vs =>
    have ih := length_append vs ws
    show (vs.append ws).length + 1 = vs.length + 1 + ws.length
    omega

/-- The populated case of a oneof. -/
@[simp]
theorem member_set_self (j : Fin n) (v : Value S (.elem (elem j))) : (Value.set j v).member j = some v :=
  dif_pos rfl

/-- The other cases. -/
theorem member_set_of_ne {j j' : Fin n} (h : j' ≠ j) (v : Value S (.elem (elem j))) :
    (Value.set j v).member j' = none :=
  dif_neg h.symm

/-- A map is determined by the values of its keys. -/
theorem map_ext {v w : Value S (.field (.map e))} (h : ∀ key, v.entry key = w.entry key) : v = w := by
  cases v with
  | map keys entries =>
    cases w with
    | map keys' entries' =>
      obtain rfl : keys = keys' := by
        ext key
        have hsome := congrArg Option.isSome (h key)
        by_cases hkey : key ∈ keys <;> by_cases hkey' : key ∈ keys' <;> simp_all [entry]
      refine congrArg (Value.map keys) (funext fun key => ?_)
      have hentry := h key.1
      simp only [entry, dif_pos key.2] at hentry
      exact Option.some.inj hentry

/-- The values of the keys of two maps that are merged. -/
theorem entry_merge (dst src : Value S (.field (.map e))) (key : S.MapKey) :
    (dst.merge src).entry key = (src.entry key).or (dst.entry key) := by
  cases dst with
  | map keys dst =>
    cases src with
    | map keys' src =>
      unfold merge entry
      by_cases hkey' : key ∈ keys'
      · simp [hkey']
      · by_cases hkey : key ∈ keys
        · simp [hkey, hkey']
        · simp [hkey, hkey']

/-! ## Merging -/

/-- A value has its own lists. -/
theorem listsIn_self {sh : Shape S.Message S.ScalarType} (v : Value S sh) : v.ListsIn v := by
  induction v with
  | scalar v => trivial
  | message fields unknown ih => exact ih
  | unset => trivial
  | set j v ih => exact ⟨v, member_set_self j v, ih⟩
  | nil => trivial
  | cons v vs => rfl
  | map keys entries ih => exact fun key hkey => ⟨entries ⟨key, hkey⟩, dif_pos hkey, ih ⟨key, hkey⟩⟩

/-- A oneof that is not populated leaves the value. -/
theorem merge_unset (dst : Value S (.field (.oneof n elem))) : dst.merge .unset = dst := by
  cases dst <;> rfl

/-- A populated case is merged into its value. -/
theorem merge_set (dst : Value S (.field (.oneof n elem))) (j : Fin n) (src : Value S (.elem (elem j))) :
    dst.merge (.set j src) = .set j (((dst.member j).getD src.fresh).merge src) := by
  cases dst <;> rfl

/-- An empty list leaves the list. -/
theorem merge_nil (dst : Value S (.field (.list e))) : dst.merge .nil = dst := by
  cases dst <;> rfl

/-- A list is appended. -/
theorem merge_cons (dst : Value S (.field (.list e))) (v : Value S (.elem e)) (vs : Value S (.field (.list e))) :
    dst.merge (.cons v vs) = dst.append (.cons v vs) := by
  cases dst <;> rfl

/-- What is kept of a oneof. -/
theorem keeps_set_iff {dst v : Value S (.field (.oneof n elem))} {j : Fin n} {src : Value S (.elem (elem j))} :
    dst.Keeps (.set j src) v ↔ (∀ j', j' ≠ j → v.member j' = dst.member j') ∧
      ∃ w, v.member j = some w ∧ ((dst.member j).getD src.fresh).Keeps src w := by
  cases dst <;> cases v <;> rfl

/-- Where no case gives way to the one that is set. -/
theorem sameCases_set_iff {dst : Value S (.field (.oneof n elem))} {j : Fin n} {src : Value S (.elem (elem j))} :
    dst.SameCases (.set j src) ↔
      (∀ j', j' ≠ j → dst.member j' = none) ∧ ((dst.member j).getD src.fresh).SameCases src := by
  cases dst <;> rfl

/-- What is kept of a map. -/
theorem keeps_map_iff {dst v : Value S (.field (.map e))} {keys : Finset S.MapKey}
    {src : {key // key ∈ keys} → Value S (.elem e)} :
    dst.Keeps (.map keys src) v ↔ ∀ key, key ∉ keys → v.entry key = dst.entry key := by
  cases dst
  cases v
  rfl

/-- A merge keeps what is not populated in the message that is merged exactly if no case of a oneof gives way to
another one. -/
theorem keeps_merge_iff {sh : Shape S.Message S.ScalarType} (dst src : Value S sh) :
    dst.Keeps src (dst.merge src) ↔ dst.SameCases src := by
  induction src with
  | scalar v => exact Iff.rfl
  | message src unknown ih =>
    cases dst with
    | message dst unknown' => exact (and_iff_right rfl).trans (forall_congr' fun i => ih i (dst i))
  | unset => exact iff_of_true (merge_unset dst) (by cases dst <;> trivial)
  | set j src ih =>
    rw [merge_set, keeps_set_iff, sameCases_set_iff, ← ih, member_set_self]
    refine and_congr (forall₂_congr fun j' hj' => ?_) ?_
    · rw [member_set_of_ne hj', eq_comm]
    · simp only [Option.some.injEq, exists_eq_left']
  | nil => exact iff_of_true (merge_nil dst) (by cases dst <;> trivial)
  | cons v vs => cases dst <;> exact Iff.rfl
  | map keys src =>
    refine iff_of_true ?_ (by cases dst; trivial)
    rw [keeps_map_iff]
    intro key hkey
    rw [entry_merge, entry, dif_neg hkey]
    rfl

/-- A message that appends nothing has no lists that could be missing in a merge. The lists in its maps come with their
entries. -/
theorem AppendsNothing.listsIn_merge {sh : Shape S.Message S.ScalarType} {src : Value S sh} (h : src.AppendsNothing)
    (dst : Value S sh) : src.ListsIn (dst.merge src) := by
  induction src with
  | scalar v => trivial
  | message src unknown ih =>
    cases dst with
    | message dst unknown' => exact fun i => ih i (h.2 i) (dst i)
  | unset => trivial
  | set j src ih =>
    rw [merge_set]
    exact ⟨_, member_set_self j _, ih h _⟩
  | nil => trivial
  | cons v vs => exact h.elim
  | map keys src =>
    intro key hkey
    refine ⟨src ⟨key, hkey⟩, ?_, listsIn_self _⟩
    rw [entry_merge, entry, dif_pos hkey]
    rfl

/-- Merging a message once more changes nothing exactly if it has nothing to append: a list would grow, and so would the
unknown fields. -/
theorem merge_merge_iff {sh : Shape S.Message S.ScalarType} (dst src : Value S sh) :
    (dst.merge src).merge src = dst.merge src ↔ src.AppendsNothing := by
  induction src with
  | scalar v => exact ⟨fun _ => trivial, fun _ => rfl⟩
  | message src unknown ih =>
    cases dst with
    | message dst unknown' =>
      show Value.message _ _ = Value.message _ _ ↔ unknown = [] ∧ ∀ i, (src i).AppendsNothing
      have hunknown : unknown' ++ unknown ++ unknown = unknown' ++ unknown ↔ unknown = [] := by simp
      rw [Value.message.injEq, funext_iff, and_comm, hunknown]
      exact and_congr_right' (forall_congr' fun i => ih i (dst i))
  | unset => exact ⟨fun _ => trivial, fun _ => by simp only [merge_unset]⟩
  | set j src ih =>
    rw [merge_set (dst.merge (.set j src)), merge_set, member_set_self]
    simp only [Value.set.injEq, heq_eq_eq, true_and]
    exact ih _
  | nil => exact ⟨fun _ => trivial, fun _ => by simp only [merge_nil]⟩
  | cons v vs =>
    refine ⟨fun h => ?_, False.elim⟩
    have hlength := congrArg length h
    simp only [merge_cons, length_append] at hlength
    have hpos : (Value.cons v vs).length = vs.length + 1 := rfl
    omega
  | map keys src =>
    refine ⟨fun _ => trivial, fun _ => map_ext fun key => ?_⟩
    simp only [entry_merge]
    cases (Value.map keys src).entry key with
    | none => rfl
    | some w => rfl

end Value

end Omashu.Lib.Protobuf
