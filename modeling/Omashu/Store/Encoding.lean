import Omashu.Lib.Wire
import Omashu.Store.Badger

/-!
# Encoded commands

A command goes into the Raft log as a Protobuf message (`Command` of `types/types.proto`). `marshal` is
`Command.Encode` and `decodeCommand` is `DecodeCommand` (`types/methods.go`). A message holds its fields in the
order of their numbers. A scalar that is zero and an empty string are left out, a nested message is there
exactly if its pointer is not nil, and the sub-commands are commands again, of any depth. The decoder takes
the fields in any order. Those that a message does not know, also those with an unexpected wire type, are put into its
`unknownFields` as they are, and are written after the others. The decoder refuses strings that are not UTF-8 and
messages that are nested too deeply.

`decodeCommand_marshal` says that a command is decoded from its encoding, with the fields that it does not know.
-/

namespace Omashu

open Lib

/-! ## Messages -/

/-- The fields that a message does not know, in the order in which they were read. `known` says what is known. -/
abbrev UnknownFields {κ : Type} (known : Wire.Field → Option κ) := List { r : Wire.Record // known r.field = none }

/-- The bytes of the unknown fields. -/
def UnknownFields.put {κ : Type} {known : Wire.Field → Option κ} (us : UnknownFields known) : Bytes :=
  (us.map Subtype.val).flatMap Wire.Record.put

/-- A field of `google.protobuf.Duration`. -/
inductive DurationField
  | seconds (v : UInt64)
  | nanos (v : UInt64)

/-- The field of a duration that a field is. -/
def DurationField.known (f : Wire.Field) : Option DurationField :=
  match f.number, f.payload with
  | 1, .varint v => some (.seconds v)
  | 2, .varint v => some (.nanos v)
  | _, _ => none

/-- `google.protobuf.Duration`. -/
structure Duration where
  /-- The whole seconds. -/
  seconds : Int64
  /-- The rest, in nanoseconds. -/
  nanos : Int32
  /-- The other fields. -/
  unknownFields : UnknownFields DurationField.known
  deriving DecidableEq

/-- A field of `types.UpdateMeta`. -/
inductive UpdateMetaField
  | updateDeltaType (v : UInt64)
  | messageName (bs : Bytes)

/-- The field of an `UpdateMeta` that a field is. -/
def UpdateMetaField.known (f : Wire.Field) : Option UpdateMetaField :=
  match f.number, f.payload with
  | 1, .varint v => some (.updateDeltaType v)
  | 3, .bytes bs => some (.messageName bs)
  | _, _ => none

/-- `types.UpdateMeta`. -/
structure UpdateMeta where
  /-- The number of the `UpdateDeltaType`. -/
  updateDeltaType : Int32
  /-- The name of the message that the delta is. -/
  messageName : Bytes
  /-- The other fields. -/
  unknownFields : UnknownFields UpdateMetaField.known
  deriving DecidableEq

/-- A field of `types.Command`. -/
inductive CommandField
  | id (bs : Bytes)
  | type (v : UInt64)
  | key (bs : Bytes)
  | value (bs : Bytes)
  /-- The prefix. -/
  | pre (bs : Bytes)
  | incrOrDecrDelta (v : UInt64)
  | ttl (bs : Bytes)
  | readTs (v : UInt64)
  | commitTs (v : UInt64)
  | updateMeta (bs : Bytes)
  /-- One of `sub_commands`. -/
  | subCommand (bs : Bytes)

/-- The field of a command that a field is. -/
def CommandField.known (f : Wire.Field) : Option CommandField :=
  match f.number, f.payload with
  | 1, .bytes bs => some (.id bs)
  | 2, .varint v => some (.type v)
  | 3, .bytes bs => some (.key bs)
  | 4, .bytes bs => some (.value bs)
  | 5, .bytes bs => some (.pre bs)
  | 6, .varint v => some (.incrOrDecrDelta v)
  | 7, .bytes bs => some (.ttl bs)
  | 8, .varint v => some (.readTs v)
  | 9, .varint v => some (.commitTs v)
  | 10, .bytes bs => some (.updateMeta bs)
  | 11, .bytes bs => some (.subCommand bs)
  | _, _ => none

/-- The fields of a `types.Command` beside its sub-commands. -/
structure CommandFields where
  /-- The id of the command. -/
  id : Bytes
  /-- The number of the `CommandType`. -/
  type : Int32
  key : Bytes
  /-- The value, or the delta of an update. -/
  value : Bytes
  /-- The prefix of a prefix deletion. -/
  pre : Bytes
  /-- The delta of a counter. -/
  incrOrDecrDelta : UInt64
  /-- The time to live. -/
  ttl : Option Duration
  /-- The timestamp it reads at. -/
  readTs : UInt64
  /-- The timestamp it commits at. -/
  commitTs : UInt64
  /-- What an update needs to know of its delta. -/
  updateMeta : Option UpdateMeta
  /-- The other fields. -/
  unknownFields : UnknownFields CommandField.known
  deriving DecidableEq

/-- No field is set. -/
def CommandFields.empty : CommandFields := ⟨[], 0, [], [], [], 0, none, 0, 0, none, []⟩

/-- `types.Command`. -/
inductive CommandMessage
  /-- The fields and the sub-commands. -/
  | mk (fields : CommandFields) (subCommands : List CommandMessage)

namespace CommandMessage

/-- The fields beside the sub-commands. -/
def fields : CommandMessage → CommandFields
  | .mk fields _ => fields

/-- The sub-commands. -/
def subCommands : CommandMessage → List CommandMessage
  | .mk _ subCommands => subCommands

/-- A property that a command has if its sub-commands do. -/
@[elab_as_elim]
theorem induction {P : CommandMessage → Prop} (mk : ∀ fields subs, (∀ m ∈ subs, P m) → P (.mk fields subs))
    (m : CommandMessage) : P m := by
  refine @CommandMessage.rec P (fun ms => ∀ m ∈ ms, P m) mk ?_ ?_ m
  · simp
  · intro m ms hm hms m' hm'
    rcases List.mem_cons.mp hm' with rfl | hm'
    · exact hm
    · exact hms m' hm'

end CommandMessage

/-! ## Encoding -/

section Fields

/-- Bytes or a string, which are written unless they are empty. -/
def bytesField (number : ℕ) (bs : Bytes) : List Wire.Field := if bs = [] then [] else [⟨number, .bytes bs⟩]

/-- A number, which is written unless it is zero. -/
def uint64Field (number : ℕ) (v : UInt64) : List Wire.Field := if v = 0 then [] else [⟨number, .varint v⟩]

/-- An integer of 64 bits is written as the unsigned number of the same bits. -/
def int64Field (number : ℕ) (v : Int64) : List Wire.Field := uint64Field number v.toUInt64

/-- An integer of 32 bits, or an enumeration, is written with 64 bits. -/
def int32Field (number : ℕ) (v : Int32) : List Wire.Field := int64Field number v.toInt64

/-- A nested message, if there is one. -/
def messageField (number : ℕ) (m : Option Bytes) : List Wire.Field := m.toList.map fun bs => ⟨number, .bytes bs⟩

end Fields

/-- The fields of a duration. -/
def Duration.toFields (d : Duration) : List Wire.Field := int64Field 1 d.seconds ++ int32Field 2 d.nanos

/-- The encoding of a duration. -/
def Duration.encode (d : Duration) : Bytes := Wire.putFields d.toFields ++ d.unknownFields.put

/-- The fields of the `UpdateMeta`. -/
def UpdateMeta.toFields (u : UpdateMeta) : List Wire.Field :=
  int32Field 1 u.updateDeltaType ++ bytesField 3 u.messageName

/-- The encoding of the `UpdateMeta`. -/
def UpdateMeta.encode (u : UpdateMeta) : Bytes := Wire.putFields u.toFields ++ u.unknownFields.put

/-- The fields of a command before its sub-commands. -/
def CommandFields.toFields (c : CommandFields) : List Wire.Field :=
  bytesField 1 c.id ++ (int32Field 2 c.type ++ (bytesField 3 c.key ++ (bytesField 4 c.value ++
    (bytesField 5 c.pre ++ (uint64Field 6 c.incrOrDecrDelta ++
    (messageField 7 (c.ttl.map Duration.encode) ++ (uint64Field 8 c.readTs ++ (uint64Field 9 c.commitTs ++
    messageField 10 (c.updateMeta.map UpdateMeta.encode)))))))))

mutual

/-- The encoding of a command. -/
def CommandMessage.encode : CommandMessage → Bytes
  | .mk fields subs => Wire.putFields (fields.toFields ++ CommandMessage.subFields subs) ++ fields.unknownFields.put

/-- The fields of the sub-commands. -/
def CommandMessage.subFields : List CommandMessage → List Wire.Field
  | [] => []
  | m :: ms => ⟨11, .bytes m.encode⟩ :: CommandMessage.subFields ms

end

/-- The strings of a command but those of its sub-commands are UTF-8. -/
def CommandFields.validStrings (c : CommandFields) : Bool :=
  utf8Valid c.id && utf8Valid c.key && utf8Valid c.pre && c.updateMeta.all fun u => utf8Valid u.messageName

mutual

/-- The strings of a command are UTF-8. -/
def CommandMessage.validStrings : CommandMessage → Bool
  | .mk fields subs => fields.validStrings && CommandMessage.allValidStrings subs

/-- The strings of the commands are UTF-8. -/
def CommandMessage.allValidStrings : List CommandMessage → Bool
  | [] => true
  | m :: ms => m.validStrings && CommandMessage.allValidStrings ms

end

/-- `Command.Encode`. -/
def CommandMessage.marshal (m : CommandMessage) : Except Err Bytes :=
  if m.validStrings then .ok m.encode else .error .malformed

mutual

/-- How deep the messages of a command are nested. -/
def CommandMessage.height : CommandMessage → ℕ
  | .mk fields subs =>
    max (if fields.ttl.isSome || fields.updateMeta.isSome then 1 else 0) (CommandMessage.heights subs) + 1

/-- How deep the messages of the commands are nested. -/
def CommandMessage.heights : List CommandMessage → ℕ
  | [] => 0
  | m :: ms => max m.height (CommandMessage.heights ms)

end

/-! ## Decoding -/

section Decoding

variable {α κ : Type} (known : Wire.Field → Option κ) (set : α → κ → Option α)
  (keep : α → UnknownFields known → α)

/-- A field is set, or kept if it is not known. -/
def setRecord (a : α) (r : Wire.Record) : Option α :=
  match h : known r.field with
  | some k => set a k
  | none => some (keep a [⟨r, h⟩])

/-- The fields of a message are set one after the other. -/
def decodeInto (a : α) (bs : Bytes) : Option α :=
  (Wire.getFields bs).bind fun rs => rs.foldlM (setRecord known set keep) a

end Decoding

/-- A field of a duration is set. -/
def Duration.set (d : Duration) : DurationField → Option Duration
  | .seconds v => some { d with seconds := v.toInt64 }
  | .nanos v => some { d with nanos := v.toInt64.toInt32 }

/-- Fields that a duration does not know are kept. -/
def Duration.keep (d : Duration) (us : UnknownFields DurationField.known) : Duration :=
  { d with unknownFields := d.unknownFields ++ us }

/-- A field of an `UpdateMeta` is set. -/
def UpdateMeta.set (u : UpdateMeta) : UpdateMetaField → Option UpdateMeta
  | .updateDeltaType v => some { u with updateDeltaType := v.toInt64.toInt32 }
  | .messageName bs => if utf8Valid bs then some { u with messageName := bs } else none

/-- Fields that an `UpdateMeta` does not know are kept. -/
def UpdateMeta.keep (u : UpdateMeta) (us : UnknownFields UpdateMetaField.known) : UpdateMeta :=
  { u with unknownFields := u.unknownFields ++ us }

/-- A field of a command is set. `depth` is how much deeper the messages may be nested, and `decodeSub` decodes a
sub-command. A nested message that is there already is merged with. -/
def CommandMessage.set (depth : ℕ) (decodeSub : Bytes → Option CommandMessage) (m : CommandMessage) :
    CommandField → Option CommandMessage
  | .id bs => if utf8Valid bs then some (.mk { m.fields with id := bs } m.subCommands) else none
  | .type v => some (.mk { m.fields with type := v.toInt64.toInt32 } m.subCommands)
  | .key bs => if utf8Valid bs then some (.mk { m.fields with key := bs } m.subCommands) else none
  | .value bs => some (.mk { m.fields with value := bs } m.subCommands)
  | .pre bs => if utf8Valid bs then some (.mk { m.fields with pre := bs } m.subCommands) else none
  | .incrOrDecrDelta v => some (.mk { m.fields with incrOrDecrDelta := v } m.subCommands)
  | .ttl bs =>
    if depth = 0 then none
    else (decodeInto _ Duration.set Duration.keep (m.fields.ttl.getD ⟨0, 0, []⟩) bs).map fun d =>
      .mk { m.fields with ttl := some d } m.subCommands
  | .readTs v => some (.mk { m.fields with readTs := v } m.subCommands)
  | .commitTs v => some (.mk { m.fields with commitTs := v } m.subCommands)
  | .updateMeta bs =>
    if depth = 0 then none
    else (decodeInto _ UpdateMeta.set UpdateMeta.keep (m.fields.updateMeta.getD ⟨0, [], []⟩) bs).map fun u =>
      .mk { m.fields with updateMeta := some u } m.subCommands
  | .subCommand bs => (decodeSub bs).map fun sub => .mk m.fields (m.subCommands ++ [sub])

/-- Fields that a command does not know are kept. -/
def CommandMessage.keep (m : CommandMessage) (us : UnknownFields CommandField.known) : CommandMessage :=
  .mk { m.fields with unknownFields := m.fields.unknownFields ++ us } m.subCommands

/-- Decodes a command whose messages are nested at most so deep. -/
def CommandMessage.decodeIn : ℕ → Bytes → Option CommandMessage
  | 0, _ => none
  | depth + 1, bs => decodeInto _ (set depth (decodeIn depth)) keep (.mk .empty []) bs

/-- `protowire.DefaultRecursionLimit`. -/
def recursionLimit : ℕ := 10000

/-- `DecodeCommand`. -/
def decodeCommand (data : Bytes) : Option CommandMessage := CommandMessage.decodeIn recursionLimit data

/-! ## What is encoded is decoded -/

section Fold

variable {α : Type} {set : α → Wire.Field → Option α} {a b : α} {r : Option α} {number : ℕ} {fs : List Wire.Field}

/-- Bytes are set, or are empty as before, and the other fields after them. -/
theorem foldlM_bytesField {bs : Bytes} (hset : set a ⟨number, .bytes bs⟩ = some b) (hskip : bs = [] → b = a)
    (hrest : fs.foldlM set b = r) : (bytesField number bs ++ fs).foldlM set a = r := by
  unfold bytesField
  split_ifs with h
  · rw [List.nil_append, ← hskip h, hrest]
  · rw [List.singleton_append, List.foldlM_cons, hset]
    exact hrest

/-- A number is set, or is zero as before. -/
theorem foldlM_uint64Field {v : UInt64} (hset : set a ⟨number, .varint v⟩ = some b) (hskip : v = 0 → b = a)
    (hrest : fs.foldlM set b = r) : (uint64Field number v ++ fs).foldlM set a = r := by
  unfold uint64Field
  split_ifs with h
  · rw [List.nil_append, ← hskip h, hrest]
  · rw [List.singleton_append, List.foldlM_cons, hset]
    exact hrest

/-- An integer of 64 bits is set, or is zero as before. -/
theorem foldlM_int64Field {v : Int64} (hset : set a ⟨number, .varint v.toUInt64⟩ = some b) (hskip : v = 0 → b = a)
    (hrest : fs.foldlM set b = r) : (int64Field number v ++ fs).foldlM set a = r := by
  refine foldlM_uint64Field hset (fun h => hskip ?_) hrest
  rw [← Int64.toInt64_toUInt64 v, h]
  rfl

/-- An integer of 32 bits is set, or is zero as before. -/
theorem foldlM_int32Field {v : Int32} (hset : set a ⟨number, .varint v.toInt64.toUInt64⟩ = some b)
    (hskip : v = 0 → b = a) (hrest : fs.foldlM set b = r) : (int32Field number v ++ fs).foldlM set a = r := by
  refine foldlM_int64Field hset (fun h => hskip ?_) hrest
  rw [← Int32.toInt32_toInt64 v, h]
  rfl

/-- A nested message is set, or is not there as before. -/
theorem foldlM_messageField {m : Option Bytes} (hset : ∀ bs, m = some bs → set a ⟨number, .bytes bs⟩ = some b)
    (hskip : m = none → b = a) (hrest : fs.foldlM set b = r) : (messageField number m ++ fs).foldlM set a = r := by
  cases m with
  | none =>
    rw [← hskip rfl]
    exact hrest
  | some bs =>
    show (set a ⟨number, .bytes bs⟩ >>= fun s => fs.foldlM set s) = r
    rw [hset bs rfl]
    exact hrest

end Fold

/-- An integer of 32 bits is read from the 64 bits that it is written with. -/
theorem int32_roundTrip (v : Int32) : v.toInt64.toUInt64.toInt64.toInt32 = v := by
  rw [Int64.toInt64_toUInt64, Int32.toInt32_toInt64]

section DecodeInto

variable {α κ : Type} {known : Wire.Field → Option κ} {set : α → κ → Option α}
  {keep : α → UnknownFields known → α}

/-- A field of a message that knows it is set. -/
def setField (known : Wire.Field → Option κ) (set : α → κ → Option α) (a : α) (f : Wire.Field) : Option α :=
  (known f).bind (set a)

/-- A known field is set. -/
theorem setRecord_of_known {r : Wire.Record} (h : (known r.field).isSome) (a : α) :
    setRecord known set keep a r = setField known set a r.field := by
  unfold setRecord setField
  split
  · rename_i k hk
    rw [hk, Option.bind_some]
  · rename_i hnone
    rw [hnone] at h
    cases h

/-- An unknown field is kept. -/
theorem setRecord_of_unknown {r : Wire.Record} (h : known r.field = none) (a : α) :
    setRecord known set keep a r = some (keep a [⟨r, h⟩]) := by
  unfold setRecord
  split
  · rename_i k hk
    rw [hk] at h
    cases h
  · rfl

/-- Known fields are set one after the other. -/
theorem foldlM_setRecord_of_known {rs : List Wire.Record} (h : ∀ f ∈ rs.map Wire.Record.field, (known f).isSome)
    (a : α) : rs.foldlM (setRecord known set keep) a = (rs.map Wire.Record.field).foldlM (setField known set) a := by
  induction rs generalizing a with
  | nil => rfl
  | cons r rs ih =>
    rw [List.map_cons, List.forall_mem_cons] at h
    rw [List.foldlM_cons, List.map_cons, List.foldlM_cons, setRecord_of_known h.1]
    congr 1
    funext a'
    exact ih h.2 a'

/-- Unknown fields are kept one after the other, or at once. -/
theorem foldlM_setRecord_of_unknown (hnil : ∀ a, keep a [] = a)
    (happend : ∀ a us us', keep (keep a us) us' = keep a (us ++ us')) (us : UnknownFields known) (a : α) :
    (us.map Subtype.val).foldlM (setRecord known set keep) a = some (keep a us) := by
  induction us generalizing a with
  | nil => exact congrArg some (hnil a).symm
  | cons u us ih =>
    rw [List.map_cons, List.foldlM_cons, setRecord_of_unknown u.2]
    show (us.map Subtype.val).foldlM (setRecord known set keep) (keep a [u]) = _
    rw [ih, happend, List.singleton_append]

/-- Fields that are written are set, and unknown ones behind them are kept. -/
theorem decodeInto_put (hnil : ∀ a, keep a [] = a) (happend : ∀ a us us', keep (keep a us) us' = keep a (us ++ us'))
    {fs : List Wire.Field} (hplain : ∀ f ∈ fs, f.Plain) (hknown : ∀ f ∈ fs, (known f).isSome)
    (hlen : (Wire.putFields fs).length < 2^64) (us : UnknownFields known) (a : α) :
    decodeInto known set keep a (Wire.putFields fs ++ us.put) =
      (fs.foldlM (setField known set) a).map fun a => keep a us := by
  obtain ⟨rs, rfl, hput⟩ := Wire.exists_records hplain hlen
  have hread : Wire.getFields (Wire.putFields (rs.map Wire.Record.field) ++ us.put) =
      some (rs ++ us.map Subtype.val) := by
    rw [← hput, Wire.getFields_append (Wire.getFields_flatMap_put rs), UnknownFields.put,
      Wire.getFields_flatMap_put, Option.map_some]
  rw [decodeInto, hread, Option.bind_some, List.foldlM_append, foldlM_setRecord_of_known hknown]
  cases (rs.map Wire.Record.field).foldlM (setField known set) a with
  | none => rfl
  | some a' => exact foldlM_setRecord_of_unknown hnil happend us a'

end DecodeInto

/-- A field that is written: it can be, and its message knows it. -/
structure Written {κ : Type} (known : Wire.Field → Option κ) (f : Wire.Field) : Prop where
  /-- It can be written. -/
  plain : f.Plain
  known : (known f).isSome

section Written

variable {κ : Type} {known : Wire.Field → Option κ} {number : ℕ}

/-- A field with a number of the format and a payload that is read. -/
theorem Written.mk_of_le {payload : Wire.Payload} (hnumber : 1 ≤ number ∧ number ≤ 11) (hpayload : payload ≠ .other)
    (hknown : (known ⟨number, payload⟩).isSome) : Written known ⟨number, payload⟩ := by
  have hmax : number ≤ Wire.maxValidNumber := by unfold Wire.maxValidNumber; omega
  exact ⟨⟨hnumber.1, hmax, hpayload⟩, hknown⟩

/-- Bytes are written to a field that is known. -/
theorem written_bytesField {bs : Bytes} (hnumber : 1 ≤ number ∧ number ≤ 11)
    (hknown : (known ⟨number, .bytes bs⟩).isSome) : ∀ f ∈ bytesField number bs, Written known f := by
  intro f hf
  unfold bytesField at hf
  split_ifs at hf
  · exact absurd hf List.not_mem_nil
  · obtain rfl := List.mem_singleton.mp hf
    exact .mk_of_le hnumber (by simp) hknown

/-- A number is written to a field that is known. -/
theorem written_uint64Field {v : UInt64} (hnumber : 1 ≤ number ∧ number ≤ 11)
    (hknown : (known ⟨number, .varint v⟩).isSome) : ∀ f ∈ uint64Field number v, Written known f := by
  intro f hf
  unfold uint64Field at hf
  split_ifs at hf
  · exact absurd hf List.not_mem_nil
  · obtain rfl := List.mem_singleton.mp hf
    exact .mk_of_le hnumber (by simp) hknown

/-- A nested message is written to a field that is known. -/
theorem written_messageField {m : Option Bytes} (hnumber : 1 ≤ number ∧ number ≤ 11)
    (hknown : ∀ bs, (known ⟨number, .bytes bs⟩).isSome) : ∀ f ∈ messageField number m, Written known f := by
  intro f hf
  obtain ⟨bs, -, rfl⟩ := List.mem_map.mp hf
  exact .mk_of_le hnumber (by simp) (hknown bs)

end Written

/-- The fields of a duration. -/
theorem Duration.written_toFields (d : Duration) : ∀ f ∈ d.toFields, Written DurationField.known f := by
  intro f hf
  rcases List.mem_append.mp hf with hf | hf
  · exact written_uint64Field (by decide) rfl f hf
  · exact written_uint64Field (by decide) rfl f hf

/-- The fields of an `UpdateMeta`. -/
theorem UpdateMeta.written_toFields (u : UpdateMeta) : ∀ f ∈ u.toFields, Written UpdateMetaField.known f := by
  intro f hf
  rcases List.mem_append.mp hf with hf | hf
  · exact written_uint64Field (by decide) rfl f hf
  · exact written_bytesField (by decide) rfl f hf

/-- The fields of a command. -/
theorem CommandFields.written_toFields (c : CommandFields) : ∀ f ∈ c.toFields, Written CommandField.known f := by
  intro f hf
  simp only [CommandFields.toFields, List.mem_append] at hf
  rcases hf with hf | hf | hf | hf | hf | hf | hf | hf | hf | hf
  · exact written_bytesField (by decide) rfl f hf
  · exact written_uint64Field (by decide) rfl f hf
  · exact written_bytesField (by decide) rfl f hf
  · exact written_bytesField (by decide) rfl f hf
  · exact written_bytesField (by decide) rfl f hf
  · exact written_uint64Field (by decide) rfl f hf
  · exact written_messageField (by decide) (fun _ => rfl) f hf
  · exact written_uint64Field (by decide) rfl f hf
  · exact written_uint64Field (by decide) rfl f hf
  · exact written_messageField (by decide) (fun _ => rfl) f hf

/-- The fields of the sub-commands. -/
theorem CommandMessage.subFields_eq_map (ms : List CommandMessage) :
    subFields ms = ms.map fun m => ⟨11, .bytes m.encode⟩ := by
  induction ms with
  | nil => rfl
  | cons m ms ih => rw [subFields, ih, List.map_cons]

/-- The fields of a command and of its sub-commands. -/
theorem CommandMessage.written_fields (c : CommandFields) (subs : List CommandMessage) :
    ∀ f ∈ c.toFields ++ subFields subs, Written CommandField.known f := by
  intro f hf
  rcases List.mem_append.mp hf with hf | hf
  · exact c.written_toFields f hf
  · rw [subFields_eq_map] at hf
    obtain ⟨m, -, rfl⟩ := List.mem_map.mp hf
    exact .mk_of_le (by decide) (by simp) rfl

/-- A duration is decoded from its encoding. -/
theorem Duration.decodeInto_encode (d : Duration) (hlen : d.encode.length < 2^64) :
    decodeInto _ set keep ⟨0, 0, []⟩ d.encode = some d := by
  rw [encode, List.length_append] at hlen
  have hset : d.toFields.foldlM (setField DurationField.known set) ⟨0, 0, []⟩ = some ⟨d.seconds, d.nanos, []⟩ := by
    rw [toFields, ← List.append_nil (int32Field 2 d.nanos)]
    refine foldlM_int64Field (b := ⟨d.seconds, 0, []⟩) ?_ (fun h => by rw [h]) (foldlM_int32Field ?_ ?_ rfl)
    · exact congrArg (fun v => some (Duration.mk v 0 [])) (Int64.toInt64_toUInt64 d.seconds)
    · exact congrArg (fun v => some (Duration.mk d.seconds v [])) (int32_roundTrip d.nanos)
    · exact fun h => by rw [h]
  rw [encode, decodeInto_put (fun d => by simp [keep]) (fun d us us' => by simp [keep])
    (fun f hf => (d.written_toFields f hf).plain) (fun f hf => (d.written_toFields f hf).known) (by omega), hset]
  rfl

/-- An `UpdateMeta` is decoded from its encoding. -/
theorem UpdateMeta.decodeInto_encode (u : UpdateMeta) (hvalid : utf8Valid u.messageName = true)
    (hlen : u.encode.length < 2^64) : decodeInto _ set keep ⟨0, [], []⟩ u.encode = some u := by
  rw [encode, List.length_append] at hlen
  have hset : u.toFields.foldlM (setField UpdateMetaField.known set) ⟨0, [], []⟩ =
      some ⟨u.updateDeltaType, u.messageName, []⟩ := by
    rw [toFields, ← List.append_nil (bytesField 3 u.messageName)]
    refine foldlM_int32Field (b := ⟨u.updateDeltaType, [], []⟩) ?_ (fun h => by rw [h])
      (foldlM_bytesField (if_pos hvalid) ?_ rfl)
    · exact congrArg (fun v => some (UpdateMeta.mk v [] [])) (int32_roundTrip u.updateDeltaType)
    · exact fun h => by rw [h]
  rw [encode, decodeInto_put (fun u => by simp [keep]) (fun u us us' => by simp [keep])
    (fun f hf => (u.written_toFields f hf).plain) (fun f hf => (u.written_toFields f hf).known) (by omega), hset]
  rfl

/-- The time to live is a field of the command. -/
theorem CommandFields.ttl_mem_toFields {c : CommandFields} {d : Duration} (h : c.ttl = some d) :
    ⟨7, .bytes d.encode⟩ ∈ c.toFields := by
  simp [toFields, messageField, h]

/-- The `UpdateMeta` is a field of the command. -/
theorem CommandFields.updateMeta_mem_toFields {c : CommandFields} {u : UpdateMeta} (h : c.updateMeta = some u) :
    ⟨10, .bytes u.encode⟩ ∈ c.toFields := by
  simp [toFields, messageField, h]

/-- The nested messages of a command are no longer than its encoding. -/
theorem CommandFields.length_nested_lt {c : CommandFields} (hlen : (Wire.putFields c.toFields).length < 2^64) :
    (∀ d ∈ c.ttl, d.encode.length < 2^64) ∧ ∀ u ∈ c.updateMeta, u.encode.length < 2^64 :=
  ⟨fun _ hd => (Wire.length_le_putFields (ttl_mem_toFields hd)).trans_lt hlen,
    fun _ hu => (Wire.length_le_putFields (updateMeta_mem_toFields hu)).trans_lt hlen⟩

/-- The fields of a command are set one after the other. -/
theorem CommandFields.foldlM_toFields (c : CommandFields) {depth : ℕ} (decodeSub : Bytes → Option CommandMessage)
    (hdepth : c.ttl.isSome || c.updateMeta.isSome → depth ≠ 0) (hvalid : c.validStrings = true)
    (hlen : (Wire.putFields c.toFields).length < 2^64) :
    c.toFields.foldlM (setField CommandField.known (CommandMessage.set depth decodeSub)) (.mk .empty []) =
      some (.mk { c with unknownFields := [] } []) := by
  obtain ⟨⟨⟨hid, hkey⟩, hpre⟩, hmeta⟩ : ((utf8Valid c.id = true ∧ utf8Valid c.key = true) ∧
      utf8Valid c.pre = true) ∧ c.updateMeta.all (fun u => utf8Valid u.messageName) = true := by
    simpa only [validStrings, Bool.and_eq_true] using hvalid
  obtain ⟨httlLen, hmetaLen⟩ := length_nested_lt hlen
  obtain ⟨id, type, key, value, pre, delta, ttl, readTs, commitTs, updateMeta, unknownFields⟩ := c
  dsimp only at hid hkey hpre hmeta hdepth httlLen hmetaLen
  rw [toFields, ← List.append_nil (messageField 10 _)]
  dsimp only
  -- Each field is set on those before it, with those behind it not set yet.
  refine foldlM_bytesField (if_pos hid) (fun h => by rw [h]; rfl) ?_
  refine foldlM_int32Field (b := .mk ⟨id, type, [], [], [], 0, none, 0, 0, none, []⟩ []) ?_ (fun h => by rw [h]; rfl) ?_
  · exact congrArg (fun v => some (CommandMessage.mk ⟨id, v, [], [], [], 0, none, 0, 0, none, []⟩ []))
      (int32_roundTrip type)
  refine foldlM_bytesField (if_pos hkey) (fun h => by rw [h]; rfl) ?_
  refine foldlM_bytesField rfl (fun h => by rw [h]; rfl) ?_
  refine foldlM_bytesField (if_pos hpre) (fun h => by rw [h]; rfl) ?_
  refine foldlM_uint64Field rfl (fun h => by rw [h]; rfl) ?_
  refine foldlM_messageField (b := .mk ⟨id, type, key, value, pre, delta, ttl, 0, 0, none, []⟩ []) ?_
    (fun h => by rw [Option.map_eq_none_iff.mp h]; rfl) ?_
  · intro bs h
    obtain ⟨d, rfl, rfl⟩ := Option.map_eq_some_iff.mp h
    exact (if_neg (hdepth rfl)).trans (congrArg (Option.map _) (d.decodeInto_encode (httlLen d rfl)))
  refine foldlM_uint64Field rfl (fun h => by rw [h]; rfl) ?_
  refine foldlM_uint64Field rfl (fun h => by rw [h]; rfl) ?_
  refine foldlM_messageField ?_ (fun h => by rw [Option.map_eq_none_iff.mp h]; rfl) rfl
  intro bs h
  obtain ⟨u, rfl, rfl⟩ := Option.map_eq_some_iff.mp h
  exact (if_neg (hdepth (by simp))).trans (congrArg (Option.map _) (u.decodeInto_encode hmeta (hmetaLen u rfl)))

/-- The sub-commands are decoded one after the other. -/
theorem CommandMessage.foldlM_subFields (depth : ℕ) (c : CommandFields) {ms : List CommandMessage}
    (h : ∀ m ∈ ms, decodeIn depth m.encode = some m) : ∀ done : List CommandMessage,
    (subFields ms).foldlM (setField CommandField.known (set depth (decodeIn depth))) (.mk c done) =
      some (.mk c (done ++ ms)) := by
  induction ms with
  | nil =>
    intro done
    rw [List.append_nil]
    rfl
  | cons m ms ih =>
    intro done
    have hset : setField CommandField.known (set depth (decodeIn depth)) (.mk c done) ⟨11, .bytes m.encode⟩ =
        some (.mk c (done ++ [m])) := by
      show (decodeIn depth m.encode).map _ = _
      rw [h m List.mem_cons_self]
      rfl
    rw [subFields, List.foldlM_cons, hset]
    refine (ih (fun m' hm' => h m' (List.mem_cons_of_mem m hm')) (done ++ [m])).trans ?_
    rw [List.append_assoc, List.singleton_append]

/-- A command among others is nested no deeper. -/
theorem CommandMessage.height_le_heights {m : CommandMessage} {ms : List CommandMessage} (h : m ∈ ms) :
    m.height ≤ heights ms := by
  induction ms with
  | nil => exact absurd h List.not_mem_nil
  | cons m' ms ih =>
    rw [heights]
    rcases List.mem_cons.mp h with rfl | h
    · exact le_max_left _ _
    · exact (ih h).trans (le_max_right _ _)

/-- The strings of each of the commands are UTF-8. -/
theorem CommandMessage.validStrings_of_mem {m : CommandMessage} {ms : List CommandMessage} (h : m ∈ ms)
    (hall : allValidStrings ms = true) : m.validStrings = true := by
  induction ms with
  | nil => exact absurd h List.not_mem_nil
  | cons m' ms ih =>
    obtain ⟨hhead, htail⟩ : m'.validStrings = true ∧ allValidStrings ms = true := by
      simpa only [allValidStrings, Bool.and_eq_true] using hall
    rcases List.mem_cons.mp h with rfl | h
    · exact hhead
    · exact ih h htail

/-- A field that is refused on any state makes the decoder fail. -/
theorem foldlM_eq_none {α : Type} {set : α → Wire.Field → Option α} {f : Wire.Field} {fs : List Wire.Field}
    (hf : f ∈ fs) (h : ∀ a, set a f = none) : ∀ a, fs.foldlM set a = none := by
  induction fs with
  | nil => exact absurd hf List.not_mem_nil
  | cons g fs ih =>
    intro a
    rcases List.mem_cons.mp hf with rfl | hf
    · rw [List.foldlM_cons, h a]
      rfl
    · rw [List.foldlM_cons]
      cases set a g with
      | none => rfl
      | some a' => exact ih hf a'

/-- A nested message in a command that may not nest any is refused. -/
theorem CommandFields.foldlM_toFields_eq_none {c : CommandFields} (decodeSub : Bytes → Option CommandMessage)
    (h : c.ttl.isSome || c.updateMeta.isSome) (m : CommandMessage) :
    c.toFields.foldlM (setField CommandField.known (CommandMessage.set 0 decodeSub)) m = none := by
  rcases (Bool.or_eq_true _ _).mp h with h | h
  · obtain ⟨d, hd⟩ := Option.isSome_iff_exists.mp h
    exact foldlM_eq_none (ttl_mem_toFields hd) (fun _ => rfl) m
  · obtain ⟨u, hu⟩ := Option.isSome_iff_exists.mp h
    exact foldlM_eq_none (updateMeta_mem_toFields hu) (fun _ => rfl) m

/-- Commands are nested deeper than a limit exactly if one of them is. -/
theorem CommandMessage.exists_lt_height {ms : List CommandMessage} {depth : ℕ} (h : depth < heights ms) :
    ∃ m ∈ ms, depth < m.height := by
  induction ms with
  | nil => exact absurd h (Nat.not_lt_zero depth)
  | cons m ms ih =>
    rw [heights] at h
    rcases lt_max_iff.mp h with h | h
    · exact ⟨m, List.mem_cons_self, h⟩
    · obtain ⟨m', hm', h'⟩ := ih h
      exact ⟨m', List.mem_cons_of_mem m hm', h'⟩

/-- A command that keeps nothing. -/
theorem CommandMessage.keep_nil (m : CommandMessage) : m.keep [] = m := by
  obtain ⟨fields, subs⟩ := m
  simp [keep, CommandMessage.fields, subCommands]

/-- Fields are kept one after the other, or at once. -/
theorem CommandMessage.keep_keep (m : CommandMessage) (us us' : UnknownFields CommandField.known) :
    (m.keep us).keep us' = m.keep (us ++ us') := by
  simp [keep, CommandMessage.fields, subCommands]

/-- A command is decoded from its encoding exactly if its messages are not nested too deeply. -/
theorem CommandMessage.decodeIn_encode (m : CommandMessage) : ∀ depth, m.validStrings = true →
    m.encode.length < 2^64 → decodeIn depth m.encode = if m.height ≤ depth then some m else none := by
  induction m using CommandMessage.induction with
  | mk c subs ih =>
    intro depth hvalid hlen
    obtain ⟨hc, hsubs⟩ : c.validStrings = true ∧ allValidStrings subs = true := by
      simpa only [validStrings, Bool.and_eq_true] using hvalid
    rw [height]
    cases depth with
    | zero => rw [if_neg (by omega), decodeIn]
    | succ depth =>
      have hsubMem : ∀ m ∈ subs, ⟨11, .bytes m.encode⟩ ∈ subFields subs := by
        intro m hm
        rw [subFields_eq_map]
        exact List.mem_map_of_mem hm
      have hwritten := written_fields c subs
      have hallLen : (Wire.putFields (c.toFields ++ subFields subs)).length < 2^64 := by
        rw [encode, List.length_append] at hlen
        omega
      -- The sub-commands are decoded with one level less.
      have hdecode : ∀ m ∈ subs, decodeIn depth m.encode = if m.height ≤ depth then some m else none := by
        intro m hm
        have hle := Wire.length_le_putFields (List.mem_append_right c.toFields (hsubMem m hm))
        exact ih m hm depth (validStrings_of_mem hm hsubs) (hle.trans_lt hallLen)
      have hfieldsLen : (Wire.putFields c.toFields).length < 2^64 := by
        refine lt_of_le_of_lt ?_ hallLen
        rw [Wire.putFields, Wire.putFields, List.flatMap_append, List.length_append]
        omega
      rw [encode, decodeIn, decodeInto_put keep_nil keep_keep (fun f hf => (hwritten f hf).plain)
        (fun f hf => (hwritten f hf).known) hallLen, List.foldlM_append]
      by_cases hown : (c.ttl.isSome || c.updateMeta.isSome) = true ∧ depth = 0
      · -- The command holds a duration or an `UpdateMeta` at the last level.
        obtain ⟨hnested, rfl⟩ := hown
        rw [c.foldlM_toFields_eq_none _ hnested, if_neg (by rw [if_pos hnested]; omega)]
        rfl
      · rw [c.foldlM_toFields _ (fun h h0 => hown ⟨h, h0⟩) hc hfieldsLen, Option.bind_eq_bind, Option.bind_some]
        have hsplit : (max (if (c.ttl.isSome || c.updateMeta.isSome) = true then 1 else 0) (heights subs) + 1 ≤
            depth + 1) ↔ heights subs ≤ depth := by
          split_ifs with hnested
          · have hpos : depth ≠ 0 := fun h0 => hown ⟨hnested, h0⟩
            omega
          · omega
        by_cases hdeep : heights subs ≤ depth
        · have hsub : ∀ m ∈ subs, decodeIn depth m.encode = some m := fun m hm => by
            rw [hdecode m hm, if_pos ((height_le_heights hm).trans hdeep)]
          rw [if_pos (hsplit.mpr hdeep), foldlM_subFields depth _ hsub]
          rfl
        · rw [if_neg (mt hsplit.mp hdeep)]
          obtain ⟨m, hm, hlt⟩ := exists_lt_height (Nat.lt_of_not_le hdeep)
          rw [foldlM_eq_none (hsubMem m hm) fun a => ?_]
          · rfl
          · show (decodeIn depth m.encode).map _ = _
            rw [hdecode m hm, if_neg (by omega)]
            rfl

/-- A command that is encoded is decoded again with every field and every sub-command, exactly if its messages
are not nested deeper than the decoder's limit. -/
theorem decodeCommand_marshal (m : CommandMessage) {data : Bytes} (hmarshal : m.marshal = .ok data)
    (hlen : data.length < 2^64) :
    decodeCommand data = if m.height ≤ recursionLimit then some m else none := by
  have hvalid : m.validStrings = true := by
    by_contra h
    rw [CommandMessage.marshal, if_neg h] at hmarshal
    cases hmarshal
  rw [CommandMessage.marshal, if_pos hvalid] at hmarshal
  obtain rfl := Except.ok.inj hmarshal
  exact m.decodeIn_encode recursionLimit hvalid hlen

/-- A transaction with a value that expires, as it is encoded and decoded again. -/
theorem decodeCommand_marshal_transaction :
    decodeCommand [10, 1, 97, 16, 5, 64, 3, 72, 172, 2,
        90, 17, 10, 1, 98, 16, 1, 26, 1, 107, 34, 1, 255, 58, 4, 8, 60, 16, 7] =
      some (.mk ⟨[97], 5, [], [], [], 0, none, 3, 300, none, []⟩
        [.mk ⟨[98], 1, [107], [255], [], 0, some ⟨60, 7, []⟩, 0, 0, none, []⟩ []]) :=
  (decodeCommand_marshal (.mk ⟨[97], 5, [], [], [], 0, none, 3, 300, none, []⟩
    [.mk ⟨[98], 1, [107], [255], [], 0, some ⟨60, 7, []⟩, 0, 0, none, []⟩ []]) (by decide +kernel) (by decide)).trans
    (if_pos (by decide))

end Omashu
