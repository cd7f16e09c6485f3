import Omashu.Lib.Protobuf
import Omashu.Store.Applicable

/-!
# Protobuf updates

`MergeProtobufMessages` of `types/dynamic.go` is to merge a delta into a message such that the lists of the
delta replace those of the message. It empties the lists of the message that are populated in the delta, and
then calls `proto.Merge`, which appends lists. It does so for the fields of the message itself only: the
lists in nested messages are appended.

`merge_proto_delta_iff` says that an update replaces the lists of the delta at every depth, keeps what is not
populated in it, and changes nothing when it is made again, exactly if no list is populated in a nested message of the
delta, there are no unknown fields in it or in a nested message, and no case of a oneof gives way to another one.

The encoding of messages is the work of `proto.Marshal` and `proto.Unmarshal`, which the model takes as a
parameter (`ProtoCodec`). What is asked of it is that the messages of the call can be encoded and decoded again
(`RoundTrips`).
-/

namespace Omashu

open Lib Lib.Protobuf

variable {S : Schema} {m : S.Message}

/-- `proto.Unmarshal` and `proto.Marshal` for a message type. -/
structure ProtoCodec (S : Schema) (m : S.Message) where
  /-- `proto.Unmarshal`. -/
  unmarshal : Bytes → Except Err (Value S (.elem (.message m)))
  /-- `proto.Marshal`. -/
  marshal : Value S (.elem (.message m)) → Except Err Bytes

/-- The message has an encoding, which decodes to the message. -/
def ProtoCodec.RoundTrips (C : ProtoCodec S m) (v : Value S (.elem (.message m))) : Prop :=
  ∃ b, C.marshal v = .ok b ∧ C.unmarshal b = .ok v

/-- One turn of the loop of `MergeProtobufMessages`: a list that is populated in the delta is emptied. -/
def truncateList {k : Kind S.Message S.ScalarType} : (original delta : Value S (.field k)) → Value S (.field k)
  | _, .cons _ _ => .nil
  | original, _ => original

/-- `MergeProtobufMessages`. -/
def mergeProtobufMessages : (original delta : Value S (.elem (.message m))) → Value S (.elem (.message m))
  | .message original unknown, .message delta unknown' =>
    (Value.message (fun i => truncateList (original i) (delta i)) unknown).merge (.message delta unknown')

/-- `MergeProtoDelta`. -/
def mergeProtoDelta (C : ProtoCodec S m) (stored : Bytes) (delta : Value S (.elem (.message m))) :
    Except Err Bytes := do
  let base ← C.unmarshal stored
  C.marshal (mergeProtobufMessages base delta)

/-- `Badger.UpdateProtobufWithTxn` on what is stored under the key. -/
def ProtoCodec.protobuf (C : ProtoCodec S m) (stored : Option Bytes) (delta : Bytes) : Except Err Bytes := do
  let delta ← C.unmarshal delta
  match stored with
  | some stored => mergeProtoDelta C stored delta
  | none => C.marshal delta

/-- There is nothing to append below the field, which may be a list itself. -/
def AppendsNothingBelow {k : Kind S.Message S.ScalarType} : Value S (.field k) → Prop
  | .cons _ _ => True
  | delta => delta.AppendsNothing

/-- Nothing but the lists of the message itself is populated that a merge would append: no list in a nested message, and
no unknown fields there or in the message. -/
def OwnListsOnly : Value S (.elem (.message m)) → Prop
  | .message fields unknown => unknown = [] ∧ ∀ i, AppendsNothingBelow (fields i)

/-! ## One field -/

section Field

variable {k : Kind S.Message S.ScalarType} (original delta : Value S (.field k))

/-- The field after the merge. -/
def mergedField : Value S (.field k) := (truncateList original delta).merge delta

/-- What is not populated in the delta is kept exactly if no case of a oneof gives way to another one. -/
theorem keeps_mergedField_iff : original.Keeps delta (mergedField original delta) ↔ original.SameCases delta := by
  cases delta with
  | cons v vs => cases original <;> exact Iff.rfl
  | _ => exact original.keeps_merge_iff _

/-- Where there is nothing to append below the field, the lists of the delta replace those of the message. -/
theorem listsIn_mergedField (h : AppendsNothingBelow delta) : delta.ListsIn (mergedField original delta) := by
  cases delta with
  | cons v vs => rfl
  | _ => exact h.listsIn_merge original

/-- Merging the field once more changes nothing exactly if there is nothing to append below it. -/
theorem mergedField_mergedField_iff :
    mergedField (mergedField original delta) delta = mergedField original delta ↔ AppendsNothingBelow delta := by
  cases delta with
  | cons v vs => exact ⟨fun _ => trivial, fun _ => rfl⟩
  | _ => exact original.merge_merge_iff _

end Field

/-! ## The message -/

variable {C : ProtoCodec S m} {stored : Bytes} {s d : Value S (.elem (.message m))}

/-- The merge of two messages goes field by field. -/
theorem mergeProtobufMessages_message (original delta : (i : S.Field m) → Value S (.field (S.kind m i)))
    (unknown unknown' : Bytes) :
    mergeProtobufMessages (.message original unknown) (.message delta unknown') =
      .message (fun i => mergedField (original i) (delta i)) (unknown ++ unknown') := rfl

/-- What is not populated in the delta is kept exactly if no case of a oneof gives way to another one. -/
theorem keeps_mergeProtobufMessages_iff (s d : Value S (.elem (.message m))) :
    s.Keeps d (mergeProtobufMessages s d) ↔ s.SameCases d := by
  cases s with
  | message original unknown =>
    cases d with
    | message delta unknown' =>
      exact (and_iff_right rfl).trans (forall_congr' fun i => keeps_mergedField_iff (original i) (delta i))

/-- Where only the lists of the delta itself are to be appended, its lists replace those of the message. -/
theorem listsIn_mergeProtobufMessages (s : Value S (.elem (.message m))) (h : OwnListsOnly d) :
    d.ListsIn (mergeProtobufMessages s d) := by
  cases s with
  | message original unknown =>
    cases d with
    | message delta unknown' => exact fun i => listsIn_mergedField (original i) (delta i) (h.2 i)

/-- Merging a delta once more changes nothing exactly if only its own lists are to be appended. -/
theorem mergeProtobufMessages_twice_iff (s d : Value S (.elem (.message m))) :
    mergeProtobufMessages (mergeProtobufMessages s d) d = mergeProtobufMessages s d ↔ OwnListsOnly d := by
  cases s with
  | message original unknown =>
    cases d with
    | message delta unknown' =>
      simp only [mergeProtobufMessages_message]
      have hunknown : unknown ++ unknown' ++ unknown' = unknown ++ unknown' ↔ unknown' = [] := by simp
      rw [Value.message.injEq, funext_iff, and_comm, hunknown]
      exact and_congr_right' (forall_congr' fun i => mergedField_mergedField_iff (original i) (delta i))

/-- `MergeProtoDelta` returns the encoding of the merged message. -/
theorem exists_mergeProtoDelta (hs : C.unmarshal stored = .ok s) (hr : C.RoundTrips (mergeProtobufMessages s d)) :
    ∃ b, mergeProtoDelta C stored d = .ok b ∧ C.unmarshal b = .ok (mergeProtobufMessages s d) := by
  obtain ⟨b, hmarshal, hunmarshal⟩ := hr
  refine ⟨b, ?_, hunmarshal⟩
  simp only [mergeProtoDelta, hs, bind, Except.bind]
  exact hmarshal

/-- An update of the state machine stores the encoding of the merged message. -/
theorem Fsm.updateProtobufWithTxn_merges {M : Merge} {env : Env} {txn : BTxn} {key : Key} {messageName delta : Bytes}
    (hr : C.RoundTrips (mergeProtobufMessages s d)) (hM : M.protobuf messageName = C.protobuf)
    (hkey : AcceptsKey key) (hstored : txn.lookup env.now key = some stored) (hs : C.unmarshal stored = .ok s)
    (hd : C.unmarshal delta = .ok d) (ttl : Option ℤ) :
    ∃ b, C.unmarshal b = .ok (mergeProtobufMessages s d) ∧
      updateProtobufWithTxn M env txn key messageName delta ttl =
        .ok (txn.withWrite key (.value b (expiry env ttl))) := by
  obtain ⟨b, hmerge, hb⟩ := exists_mergeProtoDelta hs hr
  have hprotobuf : M.protobuf messageName (some stored) delta = .ok b := by
    rw [hM]
    simp only [ProtoCodec.protobuf, hd, bind, Except.bind]
    exact hmerge
  refine ⟨b, hb, ?_⟩
  refine BTxn.getWithTxn_bind_eq_ok_iff.mpr ⟨hkey.1, ?_⟩
  simp only [hstored, hprotobuf, bind, Except.bind]
  exact BTxn.setWithTxn_eq_ok_iff.mpr ⟨hkey, rfl⟩

/-- For every message type, stored message and delta, whose merges can be encoded and decoded: the lists that are
populated in the delta replace the corresponding lists at every depth, what is not populated in it is kept, and merging
it a second time changes nothing, exactly if no list is populated in a nested message of the delta, it has no unknown
fields, and none of its populated cases of oneofs takes the place of another one. -/
theorem merge_proto_delta_iff (C : ProtoCodec S m) (stored : Bytes) (s d : Value S (.elem (.message m)))
    (hs : C.unmarshal stored = .ok s) (hr : C.RoundTrips (mergeProtobufMessages s d))
    (hr' : C.RoundTrips (mergeProtobufMessages (mergeProtobufMessages s d) d)) :
    (∃ b r, mergeProtoDelta C stored d = .ok b ∧ C.unmarshal b = .ok r ∧ d.ListsIn r ∧ s.Keeps d r ∧
        ∃ b', mergeProtoDelta C b d = .ok b' ∧ C.unmarshal b' = .ok r) ↔
      OwnListsOnly d ∧ s.SameCases d := by
  obtain ⟨b, hb, hb₁⟩ := exists_mergeProtoDelta hs hr
  obtain ⟨b', hb', hb₂⟩ := exists_mergeProtoDelta hb₁ hr'
  constructor
  · rintro ⟨b₀, r, hb₀, hr₀, -, hkeeps, b₀', hb₀', hr₀'⟩
    obtain rfl : b = b₀ := Except.ok.inj (hb.symm.trans hb₀)
    obtain rfl : b' = b₀' := Except.ok.inj (hb'.symm.trans hb₀')
    obtain rfl : mergeProtobufMessages s d = r := Except.ok.inj (hb₁.symm.trans hr₀)
    refine ⟨?_, (keeps_mergeProtobufMessages_iff s d).mp hkeeps⟩
    rw [← mergeProtobufMessages_twice_iff s d]
    exact Except.ok.inj (hb₂.symm.trans hr₀')
  · rintro ⟨hown, hcases⟩
    rw [(mergeProtobufMessages_twice_iff s d).mpr hown] at hb₂
    exact ⟨b, _, hb, hb₁, listsIn_mergeProtobufMessages s hown, (keeps_mergeProtobufMessages_iff s d).mpr hcases,
      b', hb', hb₂⟩

/-- A message type with one field, a list of booleans. -/
abbrev repeatedFlags : Schema where
  Message := Unit
  ScalarType := Unit
  Field _ := Unit
  kind _ _ := .list (.scalar ())
  Scalar _ := Bool
  MapKey := Unit
  decEqMapKey := inferInstance

namespace repeatedFlags

/-- The wire format: the tag of the field before each element, and the unknown fields at the end. -/
def encode : {sh : Shape Unit Unit} → Value repeatedFlags sh → Bytes
  | _, .scalar b => [8, Bool.toUInt8 b]
  | _, .message fields unknown => encode (fields ()) ++ unknown
  | _, .cons v vs => encode v ++ encode vs
  | _, _ => []

/-- Reads the elements. Unknown fields are not expected. -/
def decode : Bytes → Except Err (Value repeatedFlags (.field (.list (.scalar ()))))
  | [] => .ok .nil
  | 8 :: b :: bytes => (decode bytes).map (.cons (.scalar (b != 0)))
  | _ => .error .malformed

/-- The codec. -/
def codec : ProtoCodec repeatedFlags () where
  unmarshal b := (decode b).map fun v => .message (fun _ => v) []
  marshal v := .ok (encode v)

/-- The message with the elements. -/
def ofList (l : List Bool) : Value repeatedFlags (.elem (.message ())) :=
  .message (fun _ => l.foldr (fun b vs => .cons (.scalar b) vs) .nil) []

/-- The elements are read as they were written. -/
theorem decode_encode (l : List Bool) : codec.unmarshal (encode (ofList l)) = .ok (ofList l) := by
  have helements : decode (encode (l.foldr (fun b vs => .cons (.scalar b) vs) .nil :
      Value repeatedFlags (.field (.list (.scalar ()))))) =
        .ok (l.foldr (fun b vs => .cons (.scalar b) vs) .nil) := by
    induction l with
    | nil => rfl
    | cons b l ih =>
      show decode (8 :: Bool.toUInt8 b :: encode (l.foldr _ _)) = _
      rw [decode, ih]
      cases b <;> rfl
  show (decode (encode (l.foldr _ _) ++ [])).map _ = _
  rw [List.append_nil, helements]
  rfl

/-- A message without unknown fields can be encoded and decoded. -/
theorem codec_roundTrips (l : List Bool) : codec.RoundTrips (ofList l) := ⟨_, rfl, decode_encode l⟩

end repeatedFlags

/-- The list `[true]` is replaced by `[false, true]`, and stays so. -/
theorem merge_proto_delta_iff_flags :
    OwnListsOnly (repeatedFlags.ofList [false, true]) ∧
      ∃ b r, mergeProtoDelta repeatedFlags.codec [8, 1] (repeatedFlags.ofList [false, true]) = .ok b ∧
        repeatedFlags.codec.unmarshal b = .ok r ∧ (repeatedFlags.ofList [false, true]).ListsIn r ∧
        (repeatedFlags.ofList [true]).Keeps (repeatedFlags.ofList [false, true]) r ∧
        ∃ b', mergeProtoDelta repeatedFlags.codec b (repeatedFlags.ofList [false, true]) = .ok b' ∧
          repeatedFlags.codec.unmarshal b' = .ok r := by
  have hown : OwnListsOnly (repeatedFlags.ofList [false, true]) := ⟨rfl, fun _ => trivial⟩
  have hcases : (repeatedFlags.ofList [true]).SameCases (repeatedFlags.ofList [false, true]) := fun _ => trivial
  have hstored : repeatedFlags.codec.unmarshal [8, 1] = .ok (repeatedFlags.ofList [true]) := rfl
  have hmerge := merge_proto_delta_iff repeatedFlags.codec [8, 1] _ (repeatedFlags.ofList [false, true]) hstored
    (repeatedFlags.codec_roundTrips [false, true]) (repeatedFlags.codec_roundTrips [false, true])
  exact ⟨hown, hmerge.mpr ⟨hown, hcases⟩⟩

/-- A message type with one field, a message with a list of booleans. -/
abbrev nestedFlags : Schema where
  Message := Bool
  ScalarType := Unit
  Field _ := Unit
  kind outer _ := if outer then .singular (.message false) else .list (.scalar ())
  Scalar _ := Bool
  MapKey := Unit
  decEqMapKey := inferInstance

/-- The list of the elements. -/
def nestedFlags.list (l : List Bool) : Value nestedFlags (.field (.list (.scalar ()))) :=
  l.foldr (fun b vs => .cons (.scalar b) vs) .nil

/-- The message with the elements in its list. -/
def nestedFlags.ofList (l : List Bool) : Value nestedFlags (.elem (.message true)) :=
  .message (fun _ => .set 0 (.message (fun _ => nestedFlags.list l) [])) []

/-- The list `[true]` of a nested message is not replaced by `[false]`: the merge appends it, and appends it
again when it is made a second time. -/
theorem nested_list_appended :
    mergeProtobufMessages (nestedFlags.ofList [true]) (nestedFlags.ofList [false]) =
        nestedFlags.ofList [true, false] ∧
      mergeProtobufMessages (nestedFlags.ofList [true, false]) (nestedFlags.ofList [false]) =
        nestedFlags.ofList [true, false, false] ∧
      ¬(nestedFlags.ofList [false]).ListsIn (nestedFlags.ofList [true, false]) ∧
      nestedFlags.ofList [true, false, false] ≠ nestedFlags.ofList [true, false] ∧
      ∀ C : ProtoCodec nestedFlags true, C.RoundTrips (nestedFlags.ofList [true, false]) →
        C.RoundTrips (nestedFlags.ofList [true, false, false]) → ∀ stored,
        C.unmarshal stored = .ok (nestedFlags.ofList [true]) →
          ∃ b, mergeProtoDelta C stored (nestedFlags.ofList [false]) = .ok b ∧
            C.unmarshal b = .ok (nestedFlags.ofList [true, false]) ∧
            ∃ b', mergeProtoDelta C b (nestedFlags.ofList [false]) = .ok b' ∧
              C.unmarshal b' = .ok (nestedFlags.ofList [true, false, false]) := by
  refine ⟨rfl, rfl, ?_, ?_, fun C hr hr' stored hs => ?_⟩
  · intro h
    obtain ⟨w, hw, hlists⟩ := h ()
    cases hw
    have hlist : nestedFlags.list [true, false] = nestedFlags.list [false] := hlists ()
    exact absurd (congrArg Value.length hlist) (by decide)
  · intro h
    have hfields := congrFun (Value.message.inj h).1 ()
    have hnested := congrFun (Value.message.inj (eq_of_heq (Value.set.inj hfields).2)).1 ()
    exact absurd (congrArg Value.length hnested) (by decide)
  · obtain ⟨b, hb, hb₁⟩ := exists_mergeProtoDelta (d := nestedFlags.ofList [false]) hs hr
    obtain ⟨b', hb', hb₂⟩ := exists_mergeProtoDelta (d := nestedFlags.ofList [false]) hb₁ hr'
    exact ⟨b, hb, hb₁, b', hb', hb₂⟩

end Omashu
