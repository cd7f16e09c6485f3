import Omashu.Leader.Txn
import Omashu.Store.Config
import Omashu.Store.LogOrder
import Omashu.Store.Protobuf

/-!
# Replicas with different descriptors

A transaction buffers a Protobuf update only if `IsValidMessage` of its own process knows the name of the message. The
log has the name and the encoded delta, and each replica looks the name up again when it applies the command, in the
descriptor store of its process. Nothing compares the two stores. A replica that does not find the message fails to
apply the command, which ends its Ready loop, and a process that has no descriptor store panics.

`replicas_agree_iff` says when this does no harm: two processes that apply the same commands, with the updates that the
first one accepts, come to the same database and stop at the same command, if at one, exactly if the second one finds a
message under each name that the first one accepts, and merges into it as the first one does.

On one process the two lookups agree (`acceptsMessage_iff`): they are the same loop over the descriptor sets.
-/

namespace Omashu

open Lib Lib.Protobuf

variable {μ : Type}

/-- What `dynamicpb.NewMessage` makes of descriptors. -/
structure DynamicMessages (μ : Type) where
  /-- The message types around a descriptor. -/
  schema : μ → Schema
  /-- Its own. -/
  message : (d : μ) → (schema d).Message
  /-- The encoding of the messages. -/
  codec : (d : μ) → ProtoCodec (schema d) (message d)

namespace Process

variable {T : DynamicMessages μ} {J : Merge} {p q : Process μ} {msgName : Bytes}

/-- The check of `Txn.UpdateProtobuf`. A process without a descriptor store panics. -/
def acceptsMessage (p : Process μ) (msgName : Bytes) : Except Err Unit :=
  match p.descriptorsCache with
  | none => .error .panicked
  | some store =>
    match isValidMessage store msgName with
    | .ok true => .ok ()
    | .ok false => .error .unknownProtoMsg
    | .error _ => .error .unknownProtoMsg

/-- The lookup of `UnmarshalUpdateDelta`. -/
def getMessage (p : Process μ) (msgName : Bytes) : Except Err μ :=
  match p.descriptorsCache with
  | none => .error .panicked
  | some store => (getMessageFromDescriptorSet store msgName).mapError fun _ => .malformed

/-- The codecs behind `UPDATE` in a process. Those of JSON are given. -/
def merge (T : DynamicMessages μ) (J : Merge) (p : Process μ) : Merge where
  unmarshalUpdateDelta deltaType msgName delta :=
    match deltaType with
    | .protobuf => do
      let d ← p.getMessage msgName
      let _ ← (T.codec d).unmarshal delta
      return ()
    | .json => J.unmarshalUpdateDelta .json msgName delta
    | .unknownDelta => J.unmarshalUpdateDelta .unknownDelta msgName delta
  json := J.json
  protobuf msgName stored delta := do
    let d ← p.getMessage msgName
    (T.codec d).protobuf stored delta

/-- The Protobuf updates of a command are ones that a transaction of the process buffers. -/
def Accepts (p : Process μ) (c : Command) : Prop :=
  ∀ key delta msgName ttl, SubCommand.update key delta .protobuf msgName ttl ∈ c.body.subCommands →
    p.acceptsMessage msgName = .ok ()

/-- Both processes find a message under the name, and merge into it in the same way. -/
def SameUpdates (T : DynamicMessages μ) (p q : Process μ) (msgName : Bytes) : Prop :=
  ∃ d d', p.getMessage msgName = .ok d ∧ q.getMessage msgName = .ok d' ∧ ∀ stored delta,
    ((T.codec d).protobuf stored delta).toOption = ((T.codec d').protobuf stored delta).toOption

/-! ## The two lookups -/

/-- The updates that are accepted are those whose message is found when they are applied. -/
theorem acceptsMessage_iff : p.acceptsMessage msgName = .ok () ↔ ∃ d, p.getMessage msgName = .ok d := by
  unfold acceptsMessage getMessage
  cases p.descriptorsCache with
  | none => exact iff_of_false nofun nofun
  | some store =>
    dsimp only
    unfold isValidMessage getMessageFromDescriptorSet
    cases findMessage msgName store with
    | error e => exact iff_of_false nofun nofun
    | ok found =>
      cases found with
      | none => exact iff_of_false nofun nofun
      | some d => exact iff_of_true rfl ⟨d, rfl⟩

/-- A transaction of the process buffers an update only if the process accepts its message. -/
theorem acceptsMessage_of_protobufUpdate {key : Key} {delta : Except Err Bytes} {ttl : Option ℤ} {sub : SubCommand}
    (h : Txn.protobufUpdate key delta msgName (p.acceptsMessage msgName).isOk ttl = .ok sub) :
    p.acceptsMessage msgName = .ok () ∧ ∃ b, sub = .update key b .protobuf msgName ttl := by
  cases delta with
  | error e => cases h
  | ok b =>
    cases haccepts : p.acceptsMessage msgName with
    | error e =>
      rw [haccepts] at h
      cases h
    | ok u =>
      rw [haccepts] at h
      cases h
      exact ⟨rfl, b, rfl⟩

/-- An update is decoded and merged as a message of the type that is found. -/
theorem merged_merge (stored : Option Bytes) (delta : Bytes) :
    (p.merge T J).merged .protobuf msgName stored delta =
      (p.getMessage msgName).bind fun d => (T.codec d).protobuf stored delta := by
  show ((p.getMessage msgName).bind fun d => ((T.codec d).unmarshal delta).bind fun _ => .ok ()).bind
    (fun _ => (p.getMessage msgName).bind fun d => (T.codec d).protobuf stored delta) = _
  cases p.getMessage msgName with
  | error e => rfl
  | ok d =>
    show (((T.codec d).unmarshal delta).bind fun _ => .ok ()).bind (fun _ => (T.codec d).protobuf stored delta) =
      (T.codec d).protobuf stored delta
    unfold ProtoCodec.protobuf
    cases (T.codec d).unmarshal delta with
    | error e => rfl
    | ok v => rfl

end Process

/-! ## Applying with different codecs -/

namespace Fsm

variable {M M' : Merge} {env : Env} {txn : BTxn}

/-- The codecs merge the delta of an operation in the same way, if it has one. -/
def SameMerge (M M' : Merge) : SubCommand → Prop
  | .update _ delta deltaType msgName _ => ∀ stored,
      (M.merged deltaType msgName stored delta).toOption = (M'.merged deltaType msgName stored delta).toOption
  | _ => True

/-- What an update writes. -/
theorem written_update (M : Merge) (env : Env) (values : Key → Option Bytes) (key : Key) (delta : Bytes)
    (deltaType : UpdateDeltaType) (msgName : Bytes) (ttl : Option ℤ) :
    (SubCommand.update key delta deltaType msgName ttl).written M env values =
      (M.merged deltaType msgName (values key) delta).toOption.map fun b => (key, .value b (expiry env ttl)) := by
  simp only [SubCommand.written]
  cases M.merged deltaType msgName (values key) delta with
  | ok | error => rfl

/-- What an operation writes depends on the codecs through the merge of its own delta. -/
theorem written_congr {sub : SubCommand} (h : SameMerge M M' sub) (values : Key → Option Bytes) :
    sub.written M env values = sub.written M' env values := by
  cases sub with
  | update key delta deltaType msgName ttl => rw [written_update, written_update, h (values key)]
  | _ => rfl

/-- An operation can be performed with the one as with the other. -/
theorem applicable_congr {sub : SubCommand} (h : SameMerge M M' sub) (values : Key → Option Bytes) :
    sub.Applicable M values ↔ sub.Applicable M' values := by
  rw [SubCommand.applicable_iff someEnv, SubCommand.applicable_iff someEnv, written_congr h]

/-- The operations of a transaction can be performed with the one as with the other, and write the same. -/
theorem allWritten_congr {subs : List SubCommand} (h : ∀ sub ∈ subs, SameMerge M M' sub)
    (values : Key → Option Bytes) :
    (SubCommand.AllApplicable M env values subs ↔ SubCommand.AllApplicable M' env values subs) ∧
      SubCommand.allWritten M env values subs = SubCommand.allWritten M' env values subs := by
  induction subs generalizing values with
  | nil => exact ⟨Iff.rfl, rfl⟩
  | cons sub subs ih =>
    obtain ⟨hsub, hrest⟩ := List.forall_mem_cons.mp h
    have hafter : sub.after M env values = sub.after M' env values := by
      unfold SubCommand.after
      rw [written_congr hsub]
    obtain ⟨happlicable, hwritten⟩ := ih hrest (sub.after M env values)
    rw [hafter] at happlicable hwritten
    unfold SubCommand.AllApplicable SubCommand.allWritten
    rw [hafter, applicable_congr hsub, happlicable, hwritten, written_congr hsub]
    exact ⟨Iff.rfl, rfl⟩

/-- So does a command. -/
theorem command_congr {db : Store} {c : Command} (h : ∀ sub ∈ c.body.subCommands, SameMerge M M' sub) :
    (c.Applicable M env db ↔ c.Applicable M' env db) ∧ c.written M env db = c.written M' env db := by
  unfold Command.Applicable Command.written
  cases hbody : c.body with
  | transaction subs =>
    rw [hbody] at h
    exact allWritten_congr h _
  | single sub =>
    rw [hbody] at h
    have hsub : SameMerge M M' sub := h sub (List.mem_singleton_self sub)
    have happlicable := applicable_congr hsub ((BTxn.newTransactionAt db c.readTs).lookup env.now)
    have hwritten : sub.written M env _ = sub.written M' env _ :=
      written_congr hsub ((BTxn.newTransactionAt db c.readTs).lookup env.now)
    cases sub with
    -- A prefix deletion has nothing to merge.
    | deleteByPrefix pre => exact ⟨Iff.rfl, rfl⟩
    | _ => exact ⟨happlicable, congrArg Option.toList hwritten⟩

end Fsm

namespace ManagedDb

variable {O : DbOptions} {memHash : Key → UInt64} {M M' : Merge} {s : ManagedDb}

/-- A command is applied with the one as with the other. -/
theorem apply_ok_congr {env : Env} {c : Command} (h : ∀ sub ∈ c.body.subCommands, Fsm.SameMerge M M' sub)
    (s' : ManagedDb) : s.apply O memHash M env c = .ok s' ↔ s.apply O memHash M' env c = .ok s' := by
  obtain ⟨happlicable, hwritten⟩ : (c.Applicable M env s.db ↔ c.Applicable M' env s.db) ∧
      c.written M env s.db = c.written M' env s.db := Fsm.command_congr h
  rw [apply_eq_ok_iff, apply_eq_ok_iff, happlicable, hwritten]

/-- A log is applied with the one as with the other, up to the same command. -/
theorem replay_congr {cs : List (Env × Command)}
    (h : ∀ c ∈ cs, ∀ sub ∈ c.2.body.subCommands, Fsm.SameMerge M M' sub) :
    (s.replay O memHash M cs).1 = (s.replay O memHash M' cs).1 ∧
      (s.replay O memHash M cs).2.isSome = (s.replay O memHash M' cs).2.isSome := by
  induction cs generalizing s with
  | nil => exact ⟨rfl, rfl⟩
  | cons c cs ih =>
    obtain ⟨hc, hcs⟩ := List.forall_mem_cons.mp h
    unfold replay
    cases happly : s.apply O memHash M c.1 c.2 with
    | ok s' =>
      rw [(apply_ok_congr hc s').mp happly]
      exact ih hcs
    | error e =>
      cases happly' : s.apply O memHash M' c.1 c.2 with
      | ok s' => cases ((apply_ok_congr hc s').mpr happly').symm.trans happly
      | error e' => exact ⟨rfl, rfl⟩

end ManagedDb

/-! ## One update -/

namespace ManagedDb

variable {M M' : Merge}

/-- A store with a value under the key `[1]`, or none. -/
def holding (stored : Option Bytes) : Store := (stored.map fun b => ⟨[1], 1, .value b 0⟩).toList

/-- An update of that key. -/
def updating (msgName delta : Bytes) : Env × Command :=
  (someEnv, ⟨1, 2, .single (.update [1] delta .protobuf msgName none)⟩)

/-- Options that let values of the length pass. They are kept in the value log. -/
def lengthy (length : ℕ) : DbOptions := ⟨true, 10, 1000, 0, length⟩

/-- Badger does not refuse an update of the key. -/
theorem accepts_lengthy {b : Bytes} {length : ℕ} (h : b.length ≤ length) :
    (lengthy length).Accepts 0 2 [([1], .value b 0)] := by
  refine ⟨⟨by simpa [Entry.valueLength, lengthy] using h, fun _ => ⟨?_, ?_⟩⟩, fun _ => ⟨by decide, by decide, ?_⟩⟩
  · show 2 < 10
    decide
  · show 21 + (([1] : Key).length + 12 + 2 + 10 + 0) < 1000
    decide
  · refine ⟨?_, ?_⟩
    · show 2 < 10
      decide
    · show (([1] : Key).length + 8 + 12 + 2 + 0) + (19 + 12 + 2) < 1000
      decide

/-- What the update leaves. -/
theorem replay_updating {msgName delta : Bytes} {stored : Option Bytes} {length : ℕ}
    (h : ∀ b, M.merged .protobuf msgName stored delta = .ok b → b.length ≤ length) (memHash : Key → UInt64) :
    ((opened (holding stored)).replay (lengthy length) memHash M [updating msgName delta]).1.db =
      Versions.install (holding stored) 2
        ((M.merged .protobuf msgName stored delta).toOption.map fun b => ([1], Entry.value b 0)).toList := by
  have hvalues : (BTxn.newTransactionAt (holding stored) 1).lookup someEnv.now [1] = stored := by
    cases stored with
    | none | some => rfl
  have hwritten : (updating msgName delta).2.written M someEnv (holding stored) =
      ((M.merged .protobuf msgName stored delta).toOption.map fun b => ([1], Entry.value b 0)).toList := by
    show ((SubCommand.update [1] delta .protobuf msgName none).written M someEnv
      ((BTxn.newTransactionAt (holding stored) 1).lookup someEnv.now)).toList = _
    rw [Fsm.written_update, hvalues]
    rfl
  cases happly : (opened (holding stored)).apply (lengthy length) memHash M someEnv (updating msgName delta).2 with
  | ok s' =>
    have hreplay :
        (opened (holding stored)).replay (lengthy length) memHash M [updating msgName delta] = (s', none) := by
      unfold replay
      rw [show (updating msgName delta).1 = someEnv from rfl, happly]
      rfl
    obtain ⟨-, -, rfl⟩ := apply_eq_ok_iff.mp happly
    rw [hreplay, ← hwritten]
    exact db_after _
  | error e =>
    have hreplay : (opened (holding stored)).replay (lengthy length) memHash M [updating msgName delta] =
        (opened (holding stored), some e) := by
      unfold replay
      rw [show (updating msgName delta).1 = someEnv from rfl, happly]
    cases hmerged : M.merged .protobuf msgName stored delta with
    | error e' =>
      rw [hreplay]
      rfl
    | ok b =>
      -- A delta that can be merged would have been set.
      rw [hmerged] at hwritten
      have happlicable : (updating msgName delta).2.Applicable M someEnv (holding stored) :=
        ⟨by decide, b, (congrArg (M.merged .protobuf msgName · delta) hvalues).trans hmerged⟩
      have hadmits : (opened (holding stored)).Admits (lengthy length) memHash 1 2
          ((updating msgName delta).2.body.readKeys someEnv (BTxn.newTransactionAt (holding stored) 1))
          ((updating msgName delta).2.written M someEnv (holding stored)) := by
        rw [hwritten]
        refine ⟨accepts_lengthy (h b hmerged), fun _ hconflict => ?_⟩
        obtain ⟨-, c, hc, -⟩ := hconflict
        exact List.not_mem_nil hc
      cases happly.symm.trans (apply_eq_ok_iff.mpr ⟨happlicable, hadmits, rfl⟩)

/-- Codecs that leave the same after the update merge its delta in the same way. -/
theorem merged_eq_of_replay {msgName delta : Bytes} {stored : Option Bytes} (memHash : Key → UInt64)
    (h : ∀ O, ((opened (holding stored)).replay O memHash M [updating msgName delta]).1 =
      ((opened (holding stored)).replay O memHash M' [updating msgName delta]).1) :
    (M.merged .protobuf msgName stored delta).toOption = (M'.merged .protobuf msgName stored delta).toOption := by
  -- The version with the timestamp of the update shows whether there was a merge, and what came out.
  have hversion : ∀ o : Option Bytes,
      ((Versions.install (holding stored) 2 (o.map fun b => ([1], Entry.value b 0)).toList).find?
        (·.ts = 2)).map Version.val = o.map fun b => Entry.value b 0 := by
    intro o
    cases o with
    | none =>
      cases stored with
      | none => rfl
      | some b => rfl
    | some b =>
      cases stored with
      | none => rfl
      | some b' => rfl
  have hlength : ∀ (M : Merge) (n : ℕ), ((M.merged .protobuf msgName stored delta).toOption.elim 0 List.length) ≤ n →
      ∀ b, M.merged .protobuf msgName stored delta = .ok b → b.length ≤ n := by
    intro M n hn b hb
    rw [hb] at hn
    exact hn
  have hreplay := congrArg ManagedDb.db (h (lengthy (max
    ((M.merged .protobuf msgName stored delta).toOption.elim 0 List.length)
    ((M'.merged .protobuf msgName stored delta).toOption.elim 0 List.length))))
  rw [replay_updating (hlength M _ (le_max_left _ _)), replay_updating (hlength M' _ (le_max_right _ _))] at hreplay
  have heq := congrArg (fun db : Store => (db.find? (·.ts = 2)).map Version.val) hreplay
  rw [hversion, hversion] at heq
  exact Option.map_injective (fun _ _ hval => (Entry.value.inj hval).1) heq

end ManagedDb

/-! ## Two processes -/

namespace Process

variable {T : DynamicMessages μ} {J : Merge} {p q : Process μ}

/-- Processes that make the same updates merge in the same way. -/
theorem sameMerge_of_sameUpdates {sub : SubCommand} (h : ∀ key delta msgName ttl,
    sub = .update key delta .protobuf msgName ttl → SameUpdates T p q msgName) :
    Fsm.SameMerge (p.merge T J) (q.merge T J) sub := by
  cases sub with
  | update key delta deltaType msgName ttl =>
    intro stored
    cases deltaType with
    | protobuf =>
      obtain ⟨d, d', hd, hd', hsame⟩ := h key delta msgName ttl rfl
      rw [merged_merge, merged_merge, hd, hd']
      exact hsame stored delta
    | json => rfl
    | unknownDelta => rfl
  | _ => trivial

/-- Two processes that apply the same commands, with the updates that the first one accepts, come to the same database
from every database, with any options of Badger, and stop at the same command, if at one, exactly if the second one
finds a message under each name that the first one accepts, and merges into it as the first one does. Each descriptor
has a message that can be encoded and decoded. -/
theorem replicas_agree_iff (hT : ∀ d, ∃ v, (T.codec d).RoundTrips v) (J : Merge) (memHash : Key → UInt64)
    (p q : Process μ) :
    (∀ (O : DbOptions) (s : ManagedDb) (cs : List (Env × Command)), (∀ c ∈ cs, p.Accepts c.2) →
        (s.replay O memHash (p.merge T J) cs).1 = (s.replay O memHash (q.merge T J) cs).1 ∧
          (s.replay O memHash (p.merge T J) cs).2.isSome = (s.replay O memHash (q.merge T J) cs).2.isSome) ↔
      ∀ msgName, p.acceptsMessage msgName = .ok () → SameUpdates T p q msgName := by
  constructor
  · intro hagree msgName haccepts
    obtain ⟨d, hd⟩ := acceptsMessage_iff.mp haccepts
    have hmerged : ∀ stored delta, ((p.getMessage msgName).bind fun d => (T.codec d).protobuf stored delta).toOption =
        ((q.getMessage msgName).bind fun d => (T.codec d).protobuf stored delta).toOption := by
      intro stored delta
      rw [← merged_merge (J := J), ← merged_merge (J := J)]
      refine ManagedDb.merged_eq_of_replay memHash fun O =>
        (hagree O (.opened (ManagedDb.holding stored)) [ManagedDb.updating msgName delta] ?_).1
      intro c hc key delta' msgName' ttl hsub
      obtain rfl := List.mem_singleton.mp hc
      cases List.mem_singleton.mp hsub
      exact haccepts
    rw [hd] at hmerged
    -- A message that can be encoded can be set, so the other process must find the message type too.
    obtain ⟨v, b, hmarshal, hunmarshal⟩ := hT d
    have hset : (T.codec d).protobuf none b = .ok b := by
      unfold ProtoCodec.protobuf
      rw [hunmarshal]
      exact hmarshal
    cases hd' : q.getMessage msgName with
    | error e =>
      have hnone := hmerged none b
      rw [hd'] at hnone
      change ((T.codec d).protobuf none b).toOption = none at hnone
      rw [hset] at hnone
      cases hnone
    | ok d' =>
      rw [hd'] at hmerged
      exact ⟨d, d', hd, hd', hmerged⟩
  · intro hsame O s cs hcs
    refine ManagedDb.replay_congr fun c hc sub hsub => ?_
    refine sameMerge_of_sameUpdates fun key delta msgName ttl heq => ?_
    exact hsame msgName (hcs c hc key delta msgName ttl (heq ▸ hsub))

/-- Descriptors of one message, under the name `[102]`. -/
def flagMessages : DynamicMessages Unit := ⟨fun _ => repeatedFlags, fun _ => (), fun _ => repeatedFlags.codec⟩

/-- A process with descriptor sets. -/
def withSets (sets : List (FileDescriptorSet Unit)) : Process Unit := ⟨true, some sets⟩

/-- A set with the message. -/
def flagSet : FileDescriptorSet Unit := ⟨some fun msgName => if msgName = [102] then .message () else .notFound⟩

/-- A set in which the name is that of something else. -/
def otherSet : FileDescriptorSet Unit := ⟨some fun msgName => if msgName = [102] then .other else .notFound⟩

/-- Two replicas come to the same database with the commands whose updates the first one accepts. -/
def Agrees (p q : Process Unit) : Prop :=
  ∀ (O : DbOptions) (s : ManagedDb) (cs : List (Env × Command)), (∀ c ∈ cs, p.Accepts c.2) →
    (s.replay O ManagedDb.keyByte (p.merge flagMessages rejectDeltas) cs).1 =
        (s.replay O ManagedDb.keyByte (q.merge flagMessages rejectDeltas) cs).1 ∧
      (s.replay O ManagedDb.keyByte (p.merge flagMessages rejectDeltas) cs).2.isSome =
        (s.replay O ManagedDb.keyByte (q.merge flagMessages rejectDeltas) cs).2.isSome

/-- A replica that has the message in its second set comes to the same database, and one that does not have it does
not. -/
theorem replicas_agree_iff_flags :
    Agrees (withSets [flagSet]) (withSets [otherSet, flagSet]) ∧
      ¬Agrees (withSets [flagSet]) (withSets [otherSet]) := by
  have hmessages : ∀ d, ∃ v, (flagMessages.codec d).RoundTrips v := fun _ => ⟨_, repeatedFlags.codec_roundTrips []⟩
  unfold Agrees
  rw [replicas_agree_iff hmessages, replicas_agree_iff hmessages]
  constructor
  · intro msgName haccepts
    by_cases hname : msgName = [102]
    · subst hname
      exact ⟨(), (), rfl, rfl, fun _ _ => rfl⟩
    · obtain ⟨d, hd⟩ := acceptsMessage_iff.mp haccepts
      unfold getMessage getMessageFromDescriptorSet withSets findMessage flagSet at hd
      simp only [if_neg hname, findMessage] at hd
      cases hd
  · intro hsame
    obtain ⟨d, d', -, hd', -⟩ := hsame [102] rfl
    cases hd'

end Process

end Omashu
