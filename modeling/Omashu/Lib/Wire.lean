import Mathlib.Data.List.Basic
import Mathlib.Algebra.Order.Ring.Int
import Mathlib.Tactic.Ring

/-!
# The wire format of Protobuf

An encoded message is a sequence of fields. A field is a tag, which holds the number of the field and a wire
type, and a payload. Tags, lengths and integers are varints: seven bits in a byte, the low ones first, and the
high bit of a byte says that another one follows. `getVarint` refuses what does not fit in 64 bits, as
`protowire.ConsumeVarint` does, but takes an encoding that is longer than it need be.

A `Reader` takes a value from the front of the input. Those below are local (`Local`): where one succeeds it has
used some bytes, and it succeeds with the same value whatever comes after these.

A field that was read is a `Record`. It holds the bytes of its value, which are those that the field is read from, so
that a message can keep a field that it does not know and write it again. `getFields` reads the fields of a message. It
gives back the records that were written (`getFields_flatMap_put`), which fields of a message are too
(`exists_records`), and two encodings in a row are read one after the other (`getFields_append`).
-/

namespace Omashu.Lib.Wire

/-! ## Readers -/

/-- Takes a value from the front of the input, and leaves the rest. -/
abbrev Reader (α : Type) := StateT (List UInt8) Option α

/-- Takes one byte. -/
def byte : Reader UInt8
  | [] => none
  | b :: bs => some (b, bs)

/-- Takes `n` bytes. -/
def take (n : ℕ) : Reader (List UInt8) := fun bs =>
  if n ≤ bs.length then some (bs.take n, bs.drop n) else none

/-- Where it succeeds it has used some bytes, and what comes after these does not matter. -/
def Local {α : Type} (p : Reader α) : Prop :=
  ∀ bs a rest, p bs = some (a, rest) → ∃ used, bs = used ++ rest ∧ ∀ more, p (used ++ more) = some (a, more)

/-- Where it succeeds it takes at least one byte. -/
def Takes {α : Type} (p : Reader α) : Prop := ∀ bs a rest, p bs = some (a, rest) → rest.length < bs.length

section Combine

variable {α β : Type} {p : Reader α} {f : α → Reader β} {bs rest mid : List UInt8}

/-- Two readers one after the other, where the first one succeeds. -/
theorem bind_of_eq_some {a : α} (h : p bs = some (a, mid)) : (p >>= f) bs = f a mid := by
  show (p bs).bind _ = _
  rw [h]
  rfl

/-- Two readers one after the other succeed where both do. -/
theorem exists_of_bind_eq_some {b : β} (h : (p >>= f) bs = some (b, rest)) :
    ∃ a mid, p bs = some (a, mid) ∧ f a mid = some (b, rest) := by
  obtain ⟨⟨a, mid⟩, hp, hf⟩ := Option.bind_eq_some_iff.mp h
  exact ⟨a, mid, hp, hf⟩

/-- A local reader leaves no more than there was. -/
theorem Local.length_le (hp : Local p) {a : α} (h : p bs = some (a, rest)) : rest.length ≤ bs.length := by
  obtain ⟨used, rfl, -⟩ := hp bs a rest h
  rw [List.length_append]
  omega

/-- A value without reading is local. -/
theorem Local.pure (a : α) : Local (Pure.pure a : Reader α) := by
  rintro bs a' rest h
  obtain ⟨rfl, rfl⟩ := Prod.mk.inj (Option.some.inj h)
  exact ⟨[], rfl, fun more => rfl⟩

/-- Failure is local. -/
theorem Local.failure : Local (failure : Reader α) := by
  intro bs a rest h
  exact absurd h (Option.some_ne_none _).symm

/-- Local readers one after the other. -/
theorem Local.bind (hp : Local p) (hf : ∀ a, Local (f a)) : Local (p >>= f) := by
  intro bs b rest h
  obtain ⟨a, mid, ha, hb⟩ := exists_of_bind_eq_some h
  obtain ⟨used, rfl, hused⟩ := hp bs a mid ha
  obtain ⟨used', rfl, hused'⟩ := hf a mid b rest hb
  refine ⟨used ++ used', (List.append_assoc _ _ _).symm, fun more => ?_⟩
  rw [List.append_assoc, bind_of_eq_some (hused _), hused' more]

/-- A local reader under a condition. -/
theorem Local.ite {c : Prop} [Decidable c] {q : Reader α} (hp : Local p) (hq : Local q) :
    Local (if c then p else q) := by
  split_ifs
  · exact hp
  · exact hq

/-- A reader that takes a byte, and then a local one. -/
theorem Takes.bind (hp : Takes p) (hf : ∀ a, Local (f a)) : Takes (p >>= f) := by
  intro bs b rest h
  obtain ⟨a, mid, ha, hb⟩ := exists_of_bind_eq_some h
  exact ((hf a).length_le hb).trans_lt (hp bs a mid ha)

end Combine

/-- A byte is read locally. -/
theorem byte_local : Local byte := by
  intro bs b rest h
  match bs, h with
  | b' :: bs, h =>
    obtain ⟨rfl, rfl⟩ := Prod.mk.inj (Option.some.inj h)
    exact ⟨[b'], rfl, fun more => rfl⟩

/-- A byte is taken. -/
theorem byte_takes : Takes byte := by
  intro bs b rest h
  match bs, h with
  | b' :: bs, h =>
    obtain ⟨rfl, rfl⟩ := Prod.mk.inj (Option.some.inj h)
    exact Nat.lt_succ_self _

/-- Bytes are read locally. -/
theorem take_local (n : ℕ) : Local (take n) := by
  intro bs b rest h
  unfold take at h
  split_ifs at h with hn
  obtain ⟨rfl, rfl⟩ := Prod.mk.inj (Option.some.inj h)
  have hlen : (bs.take n).length = n := List.length_take_of_le hn
  refine ⟨bs.take n, (List.take_append_drop n bs).symm, fun more => ?_⟩
  rw [take, if_pos (by rw [List.length_append, hlen]; omega), List.take_left' hlen, List.drop_left' hlen]

/-! ## Varints -/

/-- The bytes of a number, at most `k + 1` of them. -/
def putVarintIn : ℕ → ℕ → List UInt8
  | 0, n => [UInt8.ofNat n]
  | k + 1, n =>
    if n < 128 then [UInt8.ofNat n] else UInt8.ofNat (n % 128 + 128) :: putVarintIn k (n / 128)

/-- `protowire.AppendVarint`. -/
def putVarint (v : UInt64) : List UInt8 := putVarintIn 9 v.toNat

/-- A number of at most `k + 1` bytes. The last byte that there may be holds one bit. -/
def getVarintIn : ℕ → Reader ℕ
  | 0 => do
    let b ← byte
    if b.toNat < 2 then return b.toNat else failure
  | k + 1 => do
    let b ← byte
    if b.toNat < 128 then return b.toNat else return b.toNat - 128 + 128 * (← getVarintIn k)

/-- `protowire.ConsumeVarint`. -/
def getVarint : Reader UInt64 := do return UInt64.ofNat (← getVarintIn 9)

/-- The byte of a small number. -/
theorem toNat_ofNat_of_lt {n : ℕ} (h : n < 256) : (UInt8.ofNat n).toNat = n := by
  rw [UInt8.toNat_ofNat']
  omega

/-- A number that has room is read back. -/
theorem getVarintIn_putVarintIn (k n : ℕ) (bs : List UInt8) (h : n < 2^(7 * k + 1)) :
    getVarintIn k (putVarintIn k n ++ bs) = some (n, bs) := by
  induction k generalizing n with
  | zero =>
    have hn : n < 2 := by simpa using h
    have hbyte := toNat_ofNat_of_lt (show n < 256 by omega)
    show (if (UInt8.ofNat n).toNat < 2 then _ else _ : Reader ℕ) bs = _
    rw [hbyte, if_pos hn]
    rfl
  | succ k ih =>
    by_cases hn : n < 128
    · have hbyte := toNat_ofNat_of_lt (show n < 256 by omega)
      rw [putVarintIn, if_pos hn]
      show (if (UInt8.ofNat n).toNat < 128 then _ else _ : Reader ℕ) bs = _
      rw [hbyte, if_pos hn]
      rfl
    · -- The low seven bits are in the first byte, and the others are a number with less room.
      have hbyte := toNat_ofNat_of_lt (show n % 128 + 128 < 256 by omega)
      have hroom : n / 128 < 2^(7 * k + 1) := by
        have hpow : 2^(7 * (k + 1) + 1) = 128 * 2^(7 * k + 1) := by ring
        rw [hpow] at h
        exact Nat.div_lt_of_lt_mul h
      have hsum : n % 128 + 128 - 128 + 128 * (n / 128) = n := by omega
      rw [putVarintIn, if_neg hn]
      show (if (UInt8.ofNat (n % 128 + 128)).toNat < 128 then _ else _ : Reader ℕ)
        (putVarintIn k (n / 128) ++ bs) = _
      rw [hbyte, if_neg (by omega), bind_of_eq_some (ih _ hroom), hsum]
      rfl

/-- A varint is read back. -/
theorem getVarint_putVarint (v : UInt64) (bs : List UInt8) :
    getVarint (putVarint v ++ bs) = some (v, bs) := by
  have hroom : v.toNat < 2^(7 * 9 + 1) := v.toNat_lt
  rw [getVarint, putVarint, bind_of_eq_some (getVarintIn_putVarintIn 9 _ bs hroom), UInt64.ofNat_toNat]
  rfl

/-- A varint is read locally. -/
theorem getVarintIn_local (k : ℕ) : Local (getVarintIn k) := by
  induction k with
  | zero => exact byte_local.bind fun b => .ite (.pure _) .failure
  | succ k ih => exact byte_local.bind fun b => .ite (.pure _) (ih.bind fun n => .pure _)

/-- A varint takes a byte. -/
theorem getVarintIn_takes (k : ℕ) : Takes (getVarintIn k) := by
  cases k with
  | zero => exact byte_takes.bind fun b => .ite (.pure _) .failure
  | succ k => exact byte_takes.bind fun b => .ite (.pure _) ((getVarintIn_local k).bind fun n => .pure _)

/-- A varint of 64 bits is read locally. -/
theorem getVarint_local : Local getVarint := (getVarintIn_local 9).bind fun _ => .pure _

/-- A varint of 64 bits takes a byte. -/
theorem getVarint_takes : Takes getVarint := (getVarintIn_takes 9).bind fun _ => .pure _

/-! ## Fields -/

/-- What a field holds. -/
inductive Payload
  | varint (v : UInt64)
  /-- Bytes with their length. -/
  | bytes (bs : List UInt8)
  /-- A number of fixed width or a group, of which only the bytes matter. -/
  | other
  deriving DecidableEq

/-- A field of a message. -/
@[ext]
structure Field where
  number : ℕ
  /-- What it holds. -/
  payload : Payload
  deriving DecidableEq

/-- The tag of a field. -/
def putTag (number wireType : ℕ) : List UInt8 := putVarint (UInt64.ofNat (number * 8 + wireType))

/-- The encoding of a field. -/
def Field.put (f : Field) : List UInt8 :=
  match f.payload with
  | .varint v => putTag f.number 0 ++ putVarint v
  | .bytes bs => putTag f.number 2 ++ (putVarint (UInt64.ofNat bs.length) ++ bs)
  | .other => []

/-- The encoding of the fields of a message. -/
def putFields (fs : List Field) : List UInt8 := fs.flatMap Field.put

/-- `protowire.ConsumeBytes`. -/
def getBytes : Reader (List UInt8) := do take (← getVarint).toNat

/-- How many groups may be open at once: `protowire.DefaultRecursionLimit`, and the outermost one. -/
def maxOpenGroups : ℕ := 10001

/-- Passes over the rest of the open groups, the innermost one first. Every turn takes at least the byte of a
tag, so there are no more turns than bytes. -/
def skipGroups : ℕ → List ℕ → Reader Unit
  | _, [] => return
  | 0, _ :: _ => failure
  | turns + 1, number :: outer => do
    let tag ← getVarint
    if tag.toNat / 8 < 1 ∨ 2^31 - 1 < tag.toNat / 8 then failure
    else match tag.toNat % 8 with
      | 0 => do
        let _ ← getVarint
        skipGroups turns (number :: outer)
      | 1 => do
        let _ ← take 8
        skipGroups turns (number :: outer)
      | 2 => do
        let _ ← getBytes
        skipGroups turns (number :: outer)
      | 3 =>
        if outer.length + 1 < maxOpenGroups then skipGroups turns (tag.toNat / 8 :: number :: outer)
        else failure
      | 4 => if tag.toNat / 8 = number then skipGroups turns outer else failure
      | 5 => do
        let _ ← take 4
        skipGroups turns (number :: outer)
      | _ => failure

/-- The payload of a field with the number and the wire type. -/
def getPayload (number wireType : ℕ) : Reader Payload :=
  match wireType with
  | 0 => return .varint (← getVarint)
  | 1 => do
    let _ ← take 8
    return .other
  | 2 => return .bytes (← getBytes)
  | 3 => do
    skipGroups (← get).length [number]
    return .other
  | 5 => do
    let _ ← take 4
    return .other
  -- The end of a group that was not opened, or a wire type that there is not.
  | _ => failure

/-- The largest number of a field, `protowire.MaxValidNumber`. -/
def maxValidNumber : ℕ := 2^29 - 1

/-! ## Reading in parts -/

/-- Bytes with their length are read locally. -/
theorem getBytes_local : Local getBytes := getVarint_local.bind fun _ => take_local _

/-- Groups are passed over locally. -/
theorem skipGroups_local (turns : ℕ) (groups : List ℕ) : Local (skipGroups turns groups) := by
  induction turns generalizing groups with
  | zero =>
    match groups with
    | [] => exact .pure _
    | _ :: _ => exact .failure
  | succ turns ih =>
    match groups with
    | [] => exact .pure _
    | number :: outer =>
      refine getVarint_local.bind fun tag => .ite .failure ?_
      split
      · exact getVarint_local.bind fun _ => ih _
      · exact (take_local 8).bind fun _ => ih _
      · exact getBytes_local.bind fun _ => ih _
      · exact .ite (ih _) .failure
      · exact .ite (ih _) .failure
      · exact (take_local 4).bind fun _ => ih _
      · exact .failure

/-- A reader that passes over an open group takes the byte of a tag. -/
theorem skipGroups_takes (turns number : ℕ) (outer : List ℕ) : Takes (skipGroups turns (number :: outer)) := by
  cases turns with
  | zero => exact fun _ _ _ h => absurd h (Option.some_ne_none _).symm
  | succ turns =>
    refine getVarint_takes.bind fun tag => .ite .failure ?_
    split
    · exact getVarint_local.bind fun _ => skipGroups_local _ _
    · exact (take_local 8).bind fun _ => skipGroups_local _ _
    · exact getBytes_local.bind fun _ => skipGroups_local _ _
    · exact .ite (skipGroups_local _ _) .failure
    · exact .ite (skipGroups_local _ _) .failure
    · exact (take_local 4).bind fun _ => skipGroups_local _ _
    · exact .failure

/-- Where one reader of groups leaves the rest of the input, another one does. -/
def Below (p q : Reader Unit) (bs rest : List UInt8) : Prop := p bs = some ((), rest) → q bs = some ((), rest)

/-- Readers under a condition. -/
theorem Below.ite {c : Prop} [Decidable c] {p p' q q' : Reader Unit} {bs rest : List UInt8}
    (hp : Below p p' bs rest) (hq : Below q q' bs rest) :
    Below (if c then p else q) (if c then p' else q') bs rest := by
  split_ifs
  · exact hp
  · exact hq

/-- A reader that passes over groups needs no more turns than it takes bytes. -/
theorem skipGroups_of_turns {turns turns' : ℕ} {groups : List ℕ} {bs rest : List UInt8}
    (h : skipGroups turns groups bs = some ((), rest)) (hturns : bs.length ≤ turns' + rest.length) :
    skipGroups turns' groups bs = some ((), rest) := by
  induction turns generalizing turns' groups bs with
  | zero =>
    match groups with
    | [] =>
      rw [skipGroups] at h ⊢
      exact h
    | _ :: _ => exact absurd h (Option.some_ne_none _).symm
  | succ turns ih =>
    match groups with
    | [] =>
      rw [skipGroups] at h ⊢
      exact h
    | number :: outer =>
      have hlt : rest.length < bs.length := skipGroups_takes _ _ _ bs () rest h
      obtain ⟨k, rfl⟩ : ∃ k, turns' = k + 1 := ⟨turns' - 1, by omega⟩
      rw [skipGroups] at h ⊢
      obtain ⟨tag, mid, htag, hbody⟩ := exists_of_bind_eq_some h
      rw [bind_of_eq_some htag]
      -- The tag takes a byte, so that there are fewer bytes for the turns that are left.
      have hmid : mid.length < bs.length := getVarint_takes bs tag mid htag
      have hthen : ∀ {α : Type} {p : Reader α} {groups : List ℕ}, Local p →
          Below (p >>= fun _ => skipGroups turns groups) (p >>= fun _ => skipGroups k groups) mid rest := by
        intro α p groups hp hskip
        obtain ⟨a, last, ha, hrest⟩ := exists_of_bind_eq_some hskip
        have hle := hp.length_le ha
        rw [bind_of_eq_some ha]
        exact ih hrest (by omega)
      have hnow : ∀ {groups : List ℕ}, Below (skipGroups turns groups) (skipGroups k groups) mid rest :=
        fun hskip => ih hskip (by omega)
      suffices hbelow : Below _ _ mid rest from hbelow hbody
      refine .ite (fun hfail => hfail) ?_
      split
      · exact hthen getVarint_local
      · exact hthen (take_local 8)
      · exact hthen getBytes_local
      · exact .ite hnow fun hfail => hfail
      · exact .ite hnow fun hfail => hfail
      · exact hthen (take_local 4)
      · exact fun hfail => hfail

/-- A payload is read locally. For a group the number of turns depends on the input, but those that it needs are no
more than the bytes that it takes. -/
theorem getPayload_local (number wireType : ℕ) : Local (getPayload number wireType) := by
  unfold getPayload
  split
  · exact getVarint_local.bind fun _ => .pure _
  · exact (take_local 8).bind fun _ => .pure _
  · exact getBytes_local.bind fun _ => .pure _
  · intro bs payload rest h
    have hskip : (skipGroups bs.length [number] >>= fun _ => pure Payload.other) bs = some (payload, rest) := h
    obtain ⟨⟨⟩, mid, hgroup, hpure⟩ := exists_of_bind_eq_some hskip
    obtain ⟨rfl, rfl⟩ := Prod.mk.inj (Option.some.inj hpure)
    obtain ⟨used, rfl, hused⟩ := skipGroups_local _ _ _ _ _ hgroup
    refine ⟨used, rfl, fun more => ?_⟩
    have hturns : skipGroups (used ++ more).length [number] (used ++ more) = some ((), more) :=
      skipGroups_of_turns (hused more) (by rw [List.length_append]; omega)
    show (skipGroups (used ++ more).length [number] >>= fun _ => pure Payload.other) (used ++ more) = _
    rw [bind_of_eq_some hturns]
    rfl
  · exact (take_local 4).bind fun _ => .pure _
  · exact .failure

/-! ## Records -/

/-- A field that was read, with the bytes of its value. -/
@[ext]
structure Record where
  /-- The number and the payload. -/
  field : Field
  wireType : ℕ
  /-- The bytes of the value. -/
  value : List UInt8
  /-- The number is not zero. -/
  pos : 1 ≤ field.number
  /-- The number is not too large. -/
  le : field.number ≤ maxValidNumber
  /-- The payload is what the bytes say. -/
  reads : getPayload field.number wireType value = some (field.payload, [])
  deriving DecidableEq

namespace Record

/-- The encoding of a record: the tag and the bytes of the value as they were. -/
def put (r : Record) : List UInt8 := putTag r.field.number r.wireType ++ r.value

/-- The payload of a record is read from its value. -/
theorem getPayload_append (r : Record) (bs : List UInt8) :
    getPayload r.field.number r.wireType (r.value ++ bs) = some (r.field.payload, bs) := by
  obtain ⟨used, hused, hlocal⟩ := getPayload_local _ _ _ _ _ r.reads
  rw [List.append_nil] at hused
  rw [hused, hlocal bs]

/-- Records are the same if their numbers, wire types and values are. -/
theorem ext_of_value {r r' : Record} (hnumber : r.field.number = r'.field.number) (hwire : r.wireType = r'.wireType)
    (hvalue : r.value = r'.value) : r = r' := by
  have hreads := r'.reads
  rw [← hnumber, ← hwire, ← hvalue, r.reads] at hreads
  have hpayload : r.field.payload = r'.field.payload := (Prod.mk.inj (Option.some.inj hreads)).1
  exact Record.ext (Field.ext hnumber hpayload) hwire hvalue

/-- There are eight wire types. -/
theorem wireType_lt (r : Record) : r.wireType < 8 := by
  by_contra hge
  have hnone : getPayload r.field.number r.wireType = failure := by
    unfold getPayload
    split <;> first | omega | rfl
  have hreads := r.reads
  rw [hnone] at hreads
  exact absurd hreads (Option.some_ne_none _).symm

end Record

/-- The bytes that a reader has used. -/
theorem take_used {used rest : List UInt8} : (used ++ rest).take ((used ++ rest).length - rest.length) = used := by
  rw [List.length_append, Nat.add_sub_cancel, List.take_left]

/-- What a reader of a payload has used is the value of a record. -/
theorem getPayload_used {number wireType : ℕ} {bs rest : List UInt8} {payload : Payload}
    (h : getPayload number wireType bs = some (payload, rest)) :
    getPayload number wireType (bs.take (bs.length - rest.length)) = some (payload, []) := by
  obtain ⟨used, rfl, hlocal⟩ := getPayload_local _ _ _ _ _ h
  have hused := hlocal []
  rw [List.append_nil] at hused
  rw [take_used, hused]

/-- The record with the number and the wire type. -/
def getValue (number wireType : ℕ) (hnumber : 1 ≤ number ∧ number ≤ maxValidNumber) : Reader Record := fun bs =>
  match h : getPayload number wireType bs with
  | none => none
  | some (payload, rest) =>
    some (⟨⟨number, payload⟩, wireType, bs.take (bs.length - rest.length), hnumber.1, hnumber.2, getPayload_used h⟩,
      rest)

/-- The next field of a message. -/
def getRecord : Reader Record := do
  let tag ← getVarint
  if h : 1 ≤ tag.toNat / 8 ∧ tag.toNat / 8 ≤ maxValidNumber then getValue (tag.toNat / 8) (tag.toNat % 8) h
  else failure

/-- The fields of a message, in so many turns at most. -/
def getFieldsIn : ℕ → List UInt8 → Option (List Record)
  | _, [] => some []
  | 0, _ :: _ => none
  | turns + 1, b :: bs => (getRecord (b :: bs)).bind fun r => (getFieldsIn turns r.2).map (r.1 :: ·)

/-- The fields of a message. -/
def getFields (bs : List UInt8) : Option (List Record) := getFieldsIn bs.length bs

/-- A record is read exactly from its value. -/
theorem getValue_eq_some_iff {number wireType : ℕ} {hnumber : 1 ≤ number ∧ number ≤ maxValidNumber} {r : Record}
    {bs rest : List UInt8} :
    getValue number wireType hnumber bs = some (r, rest) ↔
      r.field.number = number ∧ r.wireType = wireType ∧ bs = r.value ++ rest := by
  unfold getValue
  constructor
  · intro h
    split at h
    · cases h
    · rename_i payload rest' hpayload
      obtain ⟨rfl, rfl⟩ := Prod.mk.inj (Option.some.inj h)
      obtain ⟨used, rfl, -⟩ := getPayload_local _ _ _ _ _ hpayload
      exact ⟨rfl, rfl, congrArg (· ++ rest') take_used.symm⟩
  · rintro ⟨rfl, rfl, rfl⟩
    have hreads := r.getPayload_append rest
    split
    · rename_i hnone
      rw [hnone] at hreads
      cases hreads
    · rename_i payload rest' hpayload
      obtain ⟨rfl, rfl⟩ := Prod.mk.inj (Option.some.inj (hpayload.symm.trans hreads))
      exact congrArg (fun r => some (r, rest')) (Record.ext_of_value rfl rfl take_used)

/-- A value is read locally. -/
theorem getValue_local (number wireType : ℕ) (hnumber : 1 ≤ number ∧ number ≤ maxValidNumber) :
    Local (getValue number wireType hnumber) := by
  intro bs r rest h
  obtain ⟨hfield, hwire, rfl⟩ := getValue_eq_some_iff.mp h
  exact ⟨r.value, rfl, fun more => getValue_eq_some_iff.mpr ⟨hfield, hwire, rfl⟩⟩

/-- What follows the tag is read locally. -/
theorem getTagged_local (tag : UInt64) :
    Local (if h : 1 ≤ tag.toNat / 8 ∧ tag.toNat / 8 ≤ maxValidNumber then
      getValue (tag.toNat / 8) (tag.toNat % 8) h else failure) := by
  split_ifs with h
  · exact getValue_local _ _ h
  · exact .failure

/-- A field is read locally. -/
theorem getRecord_local : Local getRecord := getVarint_local.bind getTagged_local

/-- A field takes a byte. -/
theorem getRecord_takes : Takes getRecord := getVarint_takes.bind getTagged_local

/-- More turns than bytes do not matter. -/
theorem getFieldsIn_congr {turns turns' : ℕ} {bs : List UInt8} (h : bs.length ≤ turns)
    (h' : bs.length ≤ turns') : getFieldsIn turns bs = getFieldsIn turns' bs := by
  induction turns generalizing turns' bs with
  | zero =>
    obtain rfl := List.eq_nil_of_length_eq_zero (Nat.le_zero.mp h)
    rw [getFieldsIn, getFieldsIn]
  | succ turns ih =>
    match bs, turns', h, h' with
    | [], _, _, _ => rw [getFieldsIn, getFieldsIn]
    | b :: bs, turns' + 1, h, h' =>
      rw [getFieldsIn, getFieldsIn]
      -- Both loops read the first field, and the rest of the input is shorter.
      refine Option.bind_congr fun r hr => ?_
      have hlt : r.2.length < (b :: bs).length := getRecord_takes _ r.1 r.2 hr
      have heq : getFieldsIn turns r.2 = getFieldsIn turns' r.2 := ih (by omega) (by omega)
      rw [heq]

/-- The fields of a message, by its first one. -/
theorem getFields_of_getRecord {r : Record} {bs rest : List UInt8} (h : getRecord bs = some (r, rest)) :
    getFields bs = (getFields rest).map (r :: ·) := by
  have hlt := getRecord_takes bs r rest h
  match bs, h, hlt with
  | b :: bs, h, hlt =>
    rw [getFields, List.length_cons, getFieldsIn, h, Option.bind_some]
    have hlen : rest.length ≤ bs.length := Nat.le_of_lt_succ hlt
    rw [getFieldsIn_congr hlen le_rfl, getFields]

/-- Two encodings in a row are read one after the other. -/
theorem getFields_append {as : List UInt8} {rs : List Record} (h : getFields as = some rs) (bs : List UInt8) :
    getFields (as ++ bs) = (getFields bs).map (rs ++ ·) := by
  induction hn : as.length using Nat.strongRecOn generalizing as rs with
  | ind n ih =>
    match as, h, hn with
    | [], h, _ =>
      obtain rfl := Option.some.inj h
      simp
    | a :: as, h, hn =>
      rw [getFields, List.length_cons, getFieldsIn] at h
      obtain ⟨⟨r, rest⟩, hr, hrest⟩ := Option.bind_eq_some_iff.mp h
      obtain ⟨rs', hrs', rfl⟩ := Option.map_eq_some_iff.mp hrest
      have hlt : rest.length < (a :: as).length := getRecord_takes _ r rest hr
      rw [getFieldsIn_congr (Nat.le_of_lt_succ hlt) le_rfl] at hrs'
      obtain ⟨used, hused, happend⟩ := getRecord_local _ _ _ hr
      rw [hused, List.append_assoc, getFields_of_getRecord (happend _), ih rest.length (by omega) hrs' rfl,
        Option.map_map]
      rfl

/-! ## What is written is read back -/

/-- The tag of a field is read back. -/
theorem toNat_tag {number wireType : ℕ} (hnumber : number ≤ maxValidNumber) (hwire : wireType < 8) :
    (UInt64.ofNat (number * 8 + wireType)).toNat = number * 8 + wireType := by
  unfold maxValidNumber at hnumber
  rw [UInt64.toNat_ofNat']
  omega

/-- A record is read back. -/
theorem getRecord_put (r : Record) (bs : List UInt8) : getRecord (r.put ++ bs) = some (r, bs) := by
  have hwire := r.wireType_lt
  have hnat := toNat_tag r.le hwire
  have hdiv : (r.field.number * 8 + r.wireType) / 8 = r.field.number := by omega
  have hmod : (r.field.number * 8 + r.wireType) % 8 = r.wireType := by omega
  rw [getRecord, Record.put, List.append_assoc, putTag, bind_of_eq_some (getVarint_putVarint _ _), hnat]
  rw [dif_pos (by rw [hdiv]; exact ⟨r.pos, r.le⟩)]
  exact getValue_eq_some_iff.mpr ⟨hdiv.symm, hmod.symm, rfl⟩

/-- Records are read back. -/
theorem getFields_flatMap_put (rs : List Record) : getFields (rs.flatMap Record.put) = some rs := by
  induction rs with
  | nil => rfl
  | cons r rs ih =>
    rw [List.flatMap_cons, getFields_of_getRecord (getRecord_put r _), ih]
    rfl

/-- A field that can be written: its number is valid, and it holds a varint or bytes. -/
structure Field.Plain (f : Field) : Prop where
  /-- The number is not zero. -/
  pos : 1 ≤ f.number
  /-- The number is not too large. -/
  le : f.number ≤ maxValidNumber
  /-- The payload is kept. -/
  kept : f.payload ≠ .other

/-- Bytes with their length are read back. -/
theorem getBytes_put {b : List UInt8} (h : b.length < 2^64) :
    getBytes (putVarint (UInt64.ofNat b.length) ++ b) = some (b, []) := by
  have hlen : (UInt64.ofNat b.length).toNat = b.length := by
    rw [UInt64.toNat_ofNat']
    exact Nat.mod_eq_of_lt h
  rw [getBytes, bind_of_eq_some (getVarint_putVarint _ _), hlen, take, if_pos le_rfl, List.take_length,
    List.drop_length]

/-- A field that is written is a record. -/
theorem Field.Plain.exists_record {f : Field} (h : f.Plain) (hlen : f.put.length < 2^64) :
    ∃ r : Record, r.field = f ∧ r.put = f.put := by
  obtain ⟨number, payload⟩ := f
  obtain ⟨hpos, hle, hkept⟩ := h
  cases payload with
  | varint v =>
    have hreads : getPayload number 0 (putVarint v) = some (.varint v, []) := by
      have hget := getVarint_putVarint v []
      rw [List.append_nil] at hget
      rw [getPayload, bind_of_eq_some hget]
      rfl
    exact ⟨⟨⟨number, .varint v⟩, 0, _, hpos, hle, hreads⟩, rfl, rfl⟩
  | bytes b =>
    have hb : b.length < 2^64 := by
      simp only [Field.put, List.length_append] at hlen
      omega
    have hreads : getPayload number 2 (putVarint (UInt64.ofNat b.length) ++ b) = some (.bytes b, []) := by
      rw [getPayload, bind_of_eq_some (getBytes_put hb)]
      rfl
    exact ⟨⟨⟨number, .bytes b⟩, 2, _, hpos, hle, hreads⟩, rfl, rfl⟩
  | other => exact absurd rfl hkept

/-- The fields of a message are records. -/
theorem exists_records {fs : List Field} (h : ∀ f ∈ fs, f.Plain) (hlen : (putFields fs).length < 2^64) :
    ∃ rs : List Record, rs.map Record.field = fs ∧ rs.flatMap Record.put = putFields fs := by
  induction fs with
  | nil => exact ⟨[], rfl, rfl⟩
  | cons f fs ih =>
    have hcons : putFields (f :: fs) = f.put ++ putFields fs := List.flatMap_cons
    rw [hcons, List.length_append] at hlen
    obtain ⟨r, hr, hput⟩ := (h f List.mem_cons_self).exists_record (by omega)
    obtain ⟨rs, hrs, hputs⟩ := ih (fun g hg => h g (List.mem_cons_of_mem f hg)) (by omega)
    exact ⟨r :: rs, by rw [List.map_cons, hr, hrs], by rw [List.flatMap_cons, hput, hputs, hcons]⟩

/-- The bytes in a field are no longer than the encoding. -/
theorem length_le_putFields {fs : List Field} {number : ℕ} {bs : List UInt8} (h : ⟨number, .bytes bs⟩ ∈ fs) :
    bs.length ≤ (putFields fs).length := by
  induction fs with
  | nil => exact absurd h List.not_mem_nil
  | cons f fs ih =>
    have hcons : putFields (f :: fs) = f.put ++ putFields fs := List.flatMap_cons
    rw [hcons, List.length_append]
    rcases List.mem_cons.mp h with rfl | hmem
    · simp only [Field.put, List.length_append]
      omega
    · have := ih hmem
      omega

end Omashu.Lib.Wire
