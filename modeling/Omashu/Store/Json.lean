import Omashu.Store.Applicable

/-!
# JSON documents

`UpdateJsonWithTxn` of `badger.go` decodes the stored document into a `map[string]any`, copies the delta
into it and encodes the result. A single-node store does this with the map that the caller has passed, while
the distributed store encodes that map into the command and merges what the state machine decodes from it.

`encoding/json` and `maps.Copy` are a parameter (`JsonCodec`), over a type `G` of maps. `JsonObjects` is what
they are documented to do on the objects that survive them: a text and a map stand for an object, marshalling
and unmarshalling keep it, and a copy sets its fields. The two ways of merging a delta then agree on the
object, though not on the text (`merge_object` and `merged_object`).
-/

namespace Omashu

/-- `encoding/json` and `maps.Copy` on maps from strings to values. -/
structure JsonCodec (G : Type) where
  /-- `json.Marshal`. -/
  marshal : G → Except Err Bytes
  /-- `json.Unmarshal` into a map. -/
  unmarshal : Bytes → Except Err G
  /-- `make(map[string]any)`. -/
  empty : G
  /-- `maps.Copy` of the second map into the first one. It panics where the first one is nil and the second
  one is not empty. -/
  copy : G → G → Except Err G
  /-- A map is marshalled only if what was copied into it is. -/
  marshal_copy : ∀ full delta merged b, copy full delta = .ok merged → marshal merged = .ok b →
    ∃ d, marshal delta = .ok d

namespace JsonCodec

variable {G : Type} (C : JsonCodec G)

/-- The stored document, or an empty map. -/
def fullMsg : Option Bytes → Except Err G
  | some stored => C.unmarshal stored
  | none => .ok C.empty

/-- What `UpdateJsonWithTxn` makes of a stored document and a delta. -/
def merge (stored : Option Bytes) (delta : G) : Except Err Bytes := do
  let fullMsg ← C.fullMsg stored
  let merged ← C.copy fullMsg delta
  C.marshal merged

/-- The codecs of the state machine, on deltas that are encoded. Deltas of other types are rejected. -/
def toMerge : Merge where
  unmarshalUpdateDelta deltaType _ delta :=
    match deltaType with
    | .json => (C.unmarshal delta).map fun _ => ()
    | _ => .error .malformed
  json stored delta := do
    let delta ← C.unmarshal delta
    C.merge stored delta
  protobuf _ _ _ := .error .malformed

variable {C}

/-- A delta that can be merged can be marshalled. -/
theorem exists_marshal_of_merge {stored : Option Bytes} {delta : G} {b : Bytes}
    (h : C.merge stored delta = .ok b) : ∃ d, C.marshal delta = .ok d := by
  obtain ⟨full, -, h⟩ := Lib.bind_eq_ok h
  obtain ⟨merged, hcopy, h⟩ := Lib.bind_eq_ok h
  exact C.marshal_copy full delta merged b hcopy h

end JsonCodec

/-- Texts and maps read as objects of a type `V`. A text that is not an object, or has a number that does not
survive decoding to a `float64`, stands for none, and so does a map with such a value. -/
structure JsonObjects {G : Type} (C : JsonCodec G) (V : Type) where
  /-- The object that a text stands for. -/
  text : Bytes → Option V
  /-- The object that a map stands for. -/
  object : G → Option V
  /-- The object without fields. -/
  empty : V
  /-- The fields of the second object, and those of the first one that it does not have. -/
  merge : V → V → V
  /-- An object is marshalled into a text of it. -/
  marshal_object : ∀ g v, object g = some v → ∃ b, C.marshal g = .ok b ∧ text b = some v
  /-- A text of an object is unmarshalled into it. -/
  unmarshal_text : ∀ b v, text b = some v → ∃ g, C.unmarshal b = .ok g ∧ object g = some v
  /-- A new map has no fields. -/
  object_empty : object C.empty = some empty
  /-- A copy sets the fields of the delta. -/
  object_copy : ∀ full delta v w, object full = some v → object delta = some w →
    ∃ merged, C.copy full delta = .ok merged ∧ object merged = some (merge v w)

namespace JsonObjects

variable {G V : Type} {C : JsonCodec G} (J : JsonObjects C V) {stored : Option Bytes} {delta : G} {v w : V}

/-- The object under a key: one without fields if there is no value. -/
def fullObject : Option Bytes → Option V
  | some b => J.text b
  | none => some J.empty

variable {J}

/-- The map that `UpdateJsonWithTxn` starts from stands for the object under the key. -/
theorem fullMsg_object (h : J.fullObject stored = some v) :
    ∃ full, C.fullMsg stored = .ok full ∧ J.object full = some v := by
  cases stored with
  | none =>
    refine ⟨C.empty, rfl, ?_⟩
    rw [J.object_empty]
    exact h
  | some b => exact J.unmarshal_text b v h

/-- Merging a delta into an object gives a text of the merged object. -/
theorem merge_object (h : J.fullObject stored = some v) (hdelta : J.object delta = some w) :
    ∃ b, C.merge stored delta = .ok b ∧ J.text b = some (J.merge v w) := by
  obtain ⟨full, hfull, hv⟩ := fullMsg_object h
  obtain ⟨merged, hcopy, hmerged⟩ := J.object_copy full delta v w hv hdelta
  obtain ⟨b, hb, htext⟩ := J.marshal_object merged _ hmerged
  refine ⟨b, ?_, htext⟩
  unfold JsonCodec.merge
  rw [hfull]
  show (C.copy full delta).bind C.marshal = .ok b
  rw [hcopy]
  exact hb

/-- So does merging the delta that the state machine decodes. -/
theorem merged_object {d : Bytes} (h : J.fullObject stored = some v) (hdelta : J.object delta = some w)
    (hd : C.marshal delta = .ok d) (messageName : Bytes) :
    ∃ b, C.toMerge.merged .json messageName stored d = .ok b ∧ J.text b = some (J.merge v w) := by
  obtain ⟨d', hd', htext⟩ := J.marshal_object delta w hdelta
  obtain rfl : d = d' := Except.ok.inj (hd.symm.trans hd')
  obtain ⟨delta', hdecoded, hdelta'⟩ := J.unmarshal_text d w htext
  obtain ⟨b, hb, hbtext⟩ := merge_object h hdelta'
  refine ⟨b, ?_, hbtext⟩
  show (((C.unmarshal d).map fun _ => ()).bind fun _ => (C.unmarshal d).bind fun delta => C.merge stored delta) =
    .ok b
  rw [hdecoded]
  exact hb

end JsonObjects

end Omashu
