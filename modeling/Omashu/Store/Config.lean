import Mathlib.Logic.Function.Basic
import Omashu.Store.Badger

/-!
# Configurations, and what opening a store leaves behind

`NewBadger` and `NewDistributedBadger` begin with `Config.validate`, which checks the configuration, fills in what is
missing, and changes things that outlive the call: the configuration of the caller, and the descriptor store of the
process (`types/dynamic.go`), which knows the Protobuf messages that updates can be made of. The descriptor store is set
at most once.

`descriptors_of_calls` says what a process has come to after any number of such calls on any configurations. The
descriptor store is that of the first call that came to it, whether this call opened a store or was refused because of a
missing Raft configuration. A database in memory has never been opened: `validate` gives it a directory, which Badger
refuses then.
-/

namespace Omashu

variable {μ ι : Type}

/-! ## Descriptors -/

/-- What `FindDescriptorByName` finds under a name. -/
inductive Found (μ : Type)
  /-- `protoregistry.NotFound`. -/
  | notFound
  /-- Another error. -/
  | failed
  /-- A message type. -/
  | message (d : μ)
  /-- Something else, such as an enumeration. -/
  | other

/-- A `FileDescriptorSet`: what `protodesc.NewFiles` makes of it, unless it fails. -/
structure FileDescriptorSet (μ : Type) where
  newFiles : Option (Bytes → Found μ)

/-- The errors of the descriptor store. -/
inductive DescriptorErr
  /-- `protoregistry.NotFound`. -/
  | notFound
  /-- A descriptor set is not valid. -/
  | invalid
  deriving DecidableEq

/-- The loop over the descriptor sets, which `IsValidMessage` and `GetMessageFromDescriptorSet` share: the first message
type of the name. -/
def findMessage (msgName : Bytes) : List (FileDescriptorSet μ) → Except DescriptorErr (Option μ)
  | [] => .ok none
  | set :: sets =>
    match set.newFiles with
    | none => .error .invalid
    | some files =>
      match files msgName with
      | .notFound => findMessage msgName sets
      | .failed => .error .invalid
      | .message d => .ok (some d)
      | .other => findMessage msgName sets

/-- `IsValidMessage`. -/
def isValidMessage (store : List (FileDescriptorSet μ)) (msgName : Bytes) : Except DescriptorErr Bool :=
  (findMessage msgName store).map Option.isSome

/-- `GetMessageFromDescriptorSet`. -/
def getMessageFromDescriptorSet (store : List (FileDescriptorSet μ)) (msgName : Bytes) : Except DescriptorErr μ := do
  match ← findMessage msgName store with
  | some d => .ok d
  | none => .error .notFound

/-- The variables of the package `types`. -/
structure Process (μ : Type) where
  /-- `once` has been done. -/
  once : Bool
  descriptorsCache : Option (List (FileDescriptorSet μ))

/-- A process that has just started. -/
def Process.new : Process μ := ⟨false, none⟩

/-- `NewProtoDescriptorStore`. -/
def Process.newProtoDescriptorStore (p : Process μ) (set : List (FileDescriptorSet μ)) : Process μ :=
  if p.once then p else ⟨true, some set⟩

/-! ## Configurations -/

/-- `SchemaType`. -/
inductive SchemaType
  /-- `SchemaTypeJson`. -/
  | json
  /-- `SchemaTypeProtobuf`. -/
  | protobuf
  deriving DecidableEq

/-- `SchemaConfig`. -/
structure SchemaConfig (μ : Type) where
  /-- The format of updates. -/
  type : SchemaType
  /-- The descriptors of their messages. -/
  protoSchemaList : List (FileDescriptorSet μ)

/-- A logger. -/
inductive Logger
  /-- `zap.NewNop`. -/
  | nop
  /-- That of the application. -/
  | own
  deriving DecidableEq

/-- The options of Badger, as far as `validate` and the opening of a database look at them. -/
structure BadgerOptions where
  dir : String
  valueDir : String
  inMemory : Bool
  /-- `Logger`, by the name it logs under. -/
  logger : Option (String × Logger)

/-- `Config`, as far as `validate` looks at it. -/
structure Config (μ : Type) where
  name : String
  baseDir : String
  logger : Option Logger
  badgerOptions : BadgerOptions
  /-- Whether there is a `RaftConfig`. -/
  raftConfig : Bool
  /-- Whether there is a `Cluster`. -/
  cluster : Bool
  schemaConfig : Option (SchemaConfig μ)

/-- The errors of `validate`. -/
inductive ConfigErr
  /-- `ErrMissingCluster`. -/
  | missingCluster
  /-- `ErrMissingBaseDir`. -/
  | missingBaseDir
  /-- `ErrMissingSchemaConfig`. -/
  | missingSchemaConfig
  /-- `ErrMissingRaftConf`. -/
  | missingRaftConf
  deriving DecidableEq

/-- `DBSubDir`. -/
def dbSubDir : String := "db"

namespace Config

variable {cfg : Config μ}

/-- The directory of the database. -/
def dbDir (cfg : Config μ) : String := cfg.baseDir ++ "/" ++ dbSubDir

/-- What `validate` makes of a configuration that has passed its checks. -/
def withDefaults (cfg : Config μ) : Config μ :=
  let name := if cfg.name = "" then "omashu" else cfg.name
  { cfg with
    name
    badgerOptions :=
      { cfg.badgerOptions with
        dir := cfg.dbDir
        logger := cfg.logger.map fun log => (name ++ ".badger", log) }
    logger := some (cfg.logger.getD .nop)
    baseDir := if cfg.badgerOptions.inMemory then "" else cfg.baseDir }

/-- The descriptor sets. -/
def schemas (cfg : Config μ) : List (FileDescriptorSet μ) := (cfg.schemaConfig.map SchemaConfig.protoSchemaList).getD []

/-- The checks of `validate` pass up to the descriptor store, and it is to be set. -/
def registers (cfg : Config μ) : Bool :=
  cfg.cluster && cfg.baseDir != "" && cfg.schemaConfig.any fun schema =>
    schema.type == .protobuf && !schema.protoSchemaList.isEmpty

end Config

/-- `Config.validate`: the process, the configuration of the caller and the result. -/
def Process.validate (p : Process μ) (cfg : Config μ) (distributed : Bool) :
    Process μ × Config μ × Except ConfigErr Unit :=
  if cfg.cluster = false then (p, cfg, .error .missingCluster)
  else if cfg.baseDir = "" then (p, cfg, .error .missingBaseDir)
  else
    match cfg.schemaConfig with
    | none => (p, cfg, .error .missingSchemaConfig)
    | some schema =>
      if schema.type = .protobuf ∧ schema.protoSchemaList = [] then (p, cfg, .error .missingSchemaConfig)
      else
        let p := if schema.type = .protobuf then p.newProtoDescriptorStore schema.protoSchemaList else p
        if distributed ∧ cfg.raftConfig = false then (p, cfg, .error .missingRaftConf)
        else (p, cfg.withDefaults, .ok ())

/-- `badger.Open` and `badger.OpenManaged`, on a disk that is as it should be or not. A database in memory must not have
a directory. -/
def BadgerOptions.opens (options : BadgerOptions) (disk : Bool) : Bool :=
  if options.inMemory = true ∧ (options.dir ≠ "" ∨ options.valueDir ≠ "") then false else disk

/-! ## Calls in one process -/

/-- A call of `NewBadger` or `NewDistributedBadger`. -/
structure OpenCall (ι : Type) where
  /-- The configuration. -/
  config : ι
  /-- It is `NewDistributedBadger`. -/
  distributed : Bool
  /-- The disk is as it should be. -/
  disk : Bool

/-- A process with the configurations that it passes on by reference. -/
structure Opens (ι μ : Type) where
  /-- The variables of the package. -/
  process : Process μ
  /-- The configurations. -/
  configs : ι → Config μ
  /-- The databases that have been opened, with their options. -/
  opened : List (ι × BadgerOptions)

namespace Opens

variable [DecidableEq ι] {s : Opens ι μ} {configs : ι → Config μ}

/-- `validate`, and `initBadger` if it succeeds. -/
def call (s : Opens ι μ) (a : OpenCall ι) : Opens ι μ :=
  match s.process.validate (s.configs a.config) a.distributed with
  | (p, cfg, .error _) => { s with process := p, configs := Function.update s.configs a.config cfg }
  | (p, cfg, .ok ()) =>
    { process := p
      configs := Function.update s.configs a.config cfg
      opened := if cfg.badgerOptions.opens a.disk then s.opened ++ [(a.config, cfg.badgerOptions)] else s.opened }

/-- The calls one after the other, in a process that has just started. -/
def calls (configs : ι → Config μ) (as : List (OpenCall ι)) : Opens ι μ := as.foldl call ⟨.new, configs, []⟩

/-- The first call that comes to the descriptor store. -/
def firstRegistering (configs : ι → Config μ) (as : List (OpenCall ι)) : Option (OpenCall ι) :=
  as.find? fun a => (configs a.config).registers

end Opens

/-! ## What a call does -/

section Validate

variable {cfg : Config μ}

/-- What is registered by a configuration. -/
def Process.register (p : Process μ) (cfg : Config μ) : Process μ :=
  if cfg.registers then p.newProtoDescriptorStore cfg.schemas else p

/-- `validate` registers the messages also where it fails afterwards, changes the configuration only where it succeeds,
and succeeds only with a directory. -/
theorem Process.validate_cases (p : Process μ) (cfg : Config μ) (distributed : Bool) :
    (∃ e, p.validate cfg distributed = (p.register cfg, cfg, .error e)) ∨
      cfg.baseDir ≠ "" ∧ p.validate cfg distributed = (p.register cfg, cfg.withDefaults, .ok ()) := by
  unfold validate register Config.registers Config.schemas
  by_cases hcluster : cfg.cluster = false
  · exact .inl ⟨_, by rw [if_pos hcluster, hcluster]; rfl⟩
  rw [if_neg hcluster, Bool.eq_true_of_not_eq_false hcluster]
  by_cases hbase : cfg.baseDir = ""
  · exact .inl ⟨_, by rw [if_pos hbase, hbase]; rfl⟩
  have hdir : (cfg.baseDir != "") = true := bne_iff_ne.mpr hbase
  rw [if_neg hbase, hdir]
  cases hschema : cfg.schemaConfig with
  | none => exact .inl ⟨_, rfl⟩
  | some schema =>
    obtain ⟨_ | _, _ | ⟨set, sets⟩⟩ := schema
    all_goals dsimp only
    -- Only Protobuf without a descriptor set is refused here.
    case protobuf.nil => exact .inl ⟨_, rfl⟩
    all_goals
      by_cases hraft : distributed = true ∧ cfg.raftConfig = false
      · rw [if_pos hraft]
        exact .inl ⟨_, rfl⟩
      · rw [if_neg hraft]
        exact .inr ⟨hbase, rfl⟩

/-- The directory of a database is not empty. -/
theorem Config.dbDir_ne (cfg : Config μ) : cfg.dbDir ≠ "" := by
  intro h
  have hlength : cfg.dbDir.length = 0 := congrArg String.length h
  unfold dbDir dbSubDir at hlength
  rw [String.length_append] at hlength
  exact absurd (Nat.eq_zero_of_add_eq_zero_left hlength) (by decide)

/-- What is filled in does not make a configuration set the descriptor store. -/
theorem Config.registers_of_withDefaults (h : cfg.withDefaults.registers = true) : cfg.registers = true := by
  unfold registers at h ⊢
  obtain ⟨hfirst, hschema⟩ := Bool.and_eq_true_iff.mp h
  obtain ⟨hcluster, hbase⟩ := Bool.and_eq_true_iff.mp hfirst
  refine Bool.and_eq_true_iff.mpr ⟨Bool.and_eq_true_iff.mpr ⟨hcluster, bne_iff_ne.mpr fun hempty => ?_⟩, hschema⟩
  refine absurd ?_ (bne_iff_ne.mp hbase)
  show (if _ then "" else cfg.baseDir) = ""
  rw [hempty, ite_self]

/-- A database that is opened is not in memory. -/
theorem Config.inMemory_of_opens {disk : Bool} (h : cfg.withDefaults.badgerOptions.opens disk = true) :
    cfg.withDefaults.badgerOptions.inMemory = false := by
  unfold BadgerOptions.opens at h
  split_ifs at h with hdir
  have hne : cfg.withDefaults.badgerOptions.dir ≠ "" := cfg.dbDir_ne
  exact Bool.eq_false_iff.mpr fun hmem => hdir ⟨hmem, .inl hne⟩

end Validate

namespace Opens

variable [DecidableEq ι] {s : Opens ι μ} {configs : ι → Config μ} {as : List (OpenCall ι)}

/-- Where a process has come to from configurations. -/
structure Inv (configs : ι → Config μ) (as : List (OpenCall ι)) (s : Opens ι μ) : Prop where
  /-- The descriptor store is that of the first call that came to it. -/
  cache_eq : s.process.descriptorsCache = (firstRegistering configs as).map fun a => (configs a.config).schemas
  /-- It has been set if one did. -/
  once_eq : s.process.once = (firstRegistering configs as).isSome
  /-- The descriptors of the configurations are as they were. -/
  schemas_eq : ∀ i, (s.configs i).schemas = (configs i).schemas
  /-- So are the ones that would set the descriptor store, until one has. -/
  registers_eq : s.process.once = false → ∀ i, (s.configs i).registers = (configs i).registers
  /-- The directories are as they were, or have been cleared. -/
  baseDir_eq : ∀ i, (s.configs i).baseDir = (configs i).baseDir ∨ (s.configs i).baseDir = ""
  /-- The databases are on the disk. -/
  onDisk : ∀ o ∈ s.opened, o.2.inMemory = false ∧ o.2.dir = (configs o.1).dbDir

omit [DecidableEq ι] in
/-- One call more. -/
theorem firstRegistering_append (a : OpenCall ι) :
    firstRegistering configs (as ++ [a]) =
      (firstRegistering configs as).or (if (configs a.config).registers then some a else none) := by
  unfold firstRegistering
  rw [List.find?_append, List.find?_singleton]

omit [DecidableEq ι] in
/-- What a call does to the descriptor store. -/
theorem Inv.register (h : Inv configs as s) (a : OpenCall ι) :
    (s.process.register (s.configs a.config)).descriptorsCache =
        (firstRegistering configs (as ++ [a])).map (fun a => (configs a.config).schemas) ∧
      (s.process.register (s.configs a.config)).once = (firstRegistering configs (as ++ [a])).isSome := by
  have honce := h.once_eq
  have hcache := h.cache_eq
  rw [firstRegistering_append]
  cases hfirst : firstRegistering configs as with
  | some a₀ =>
    -- The store has been set before.
    rw [hfirst] at honce hcache
    have hsame : s.process.register (s.configs a.config) = s.process := by
      unfold Process.register Process.newProtoDescriptorStore
      rw [honce, Option.isSome_some, if_pos rfl, ite_self]
    rw [hsame]
    exact ⟨hcache, honce⟩
  | none =>
    rw [hfirst] at honce hcache
    have hregisters := h.registers_eq honce a.config
    unfold Process.register
    rw [hregisters]
    split_ifs with hreg
    · rw [Process.newProtoDescriptorStore, honce, h.schemas_eq]
      exact ⟨rfl, rfl⟩
    · exact ⟨hcache, honce⟩

/-- A call leaves the configuration, or fills in what is missing. -/
theorem Inv.update (h : Inv configs as s) (a : OpenCall ι) {cfg : Config μ} {opened : List (ι × BadgerOptions)}
    (hcfg : cfg = s.configs a.config ∨ cfg = (s.configs a.config).withDefaults)
    (hopened : ∀ o ∈ opened, o.2.inMemory = false ∧ o.2.dir = (configs o.1).dbDir) :
    Inv configs (as ++ [a])
      ⟨s.process.register (s.configs a.config), Function.update s.configs a.config cfg, opened⟩ := by
  obtain ⟨hcache, honce⟩ := h.register a
  refine ⟨hcache, honce, ?_, fun hnot => ?_, ?_, hopened⟩
  · refine (Function.forall_update_iff s.configs fun i (c : Config μ) => c.schemas = (configs i).schemas).mpr
      ⟨?_, fun i _ => h.schemas_eq i⟩
    rcases hcfg with rfl | rfl
    · exact h.schemas_eq a.config
    · exact h.schemas_eq a.config
  · -- The descriptor store is still not set, so the configuration of the call does not set it.
    obtain ⟨hbefore, hreg⟩ : s.process.once = false ∧ (s.configs a.config).registers = false := by
      change (s.process.register (s.configs a.config)).once = false at hnot
      unfold Process.register Process.newProtoDescriptorStore at hnot
      split_ifs at hnot with hreg hset
      · rw [hset] at hnot
        cases hnot
      · exact ⟨hnot, Bool.eq_false_iff.mpr hreg⟩
    refine (Function.forall_update_iff s.configs fun i (c : Config μ) => c.registers = (configs i).registers).mpr
      ⟨?_, fun i _ => h.registers_eq hbefore i⟩
    rw [← h.registers_eq hbefore a.config]
    rcases hcfg with rfl | rfl
    · rfl
    · rw [hreg]
      exact Bool.eq_false_iff.mpr fun htrue =>
        absurd (Config.registers_of_withDefaults htrue) (Bool.eq_false_iff.mp hreg)
  · refine (Function.forall_update_iff s.configs fun i (c : Config μ) =>
      c.baseDir = (configs i).baseDir ∨ c.baseDir = "").mpr ⟨?_, fun i _ => h.baseDir_eq i⟩
    rcases hcfg with rfl | rfl
    · exact h.baseDir_eq a.config
    · unfold Config.withDefaults
      dsimp only
      split_ifs
      · exact .inr rfl
      · exact h.baseDir_eq a.config

/-- A call. -/
theorem Inv.call (h : Inv configs as s) (a : OpenCall ι) : Inv configs (as ++ [a]) (s.call a) := by
  unfold Opens.call
  rcases s.process.validate_cases (s.configs a.config) a.distributed with ⟨e, hvalidate⟩ | ⟨hbase, hvalidate⟩
  · rw [hvalidate]
    exact h.update a (.inl rfl) h.onDisk
  · rw [hvalidate]
    refine h.update a (.inr rfl) ?_
    split_ifs with hopens
    · intro o ho
      rcases List.mem_append.mp ho with ho | ho
      · exact h.onDisk o ho
      · obtain rfl := List.mem_singleton.mp ho
        refine ⟨Config.inMemory_of_opens hopens, ?_⟩
        -- The directory has not been cleared, since the call has got past the check of it.
        show (s.configs a.config).dbDir = (configs a.config).dbDir
        unfold Config.dbDir
        rw [(h.baseDir_eq a.config).resolve_right hbase]
    · exact h.onDisk

/-- After any calls in one process, on any configurations: the descriptor store is that of the first call that came to
it, also if this call was refused afterwards, and no database that has been opened is in memory. -/
theorem descriptors_of_calls (configs : ι → Config μ) (as : List (OpenCall ι)) :
    (calls configs as).process.descriptorsCache =
        (firstRegistering configs as).map (fun a => (configs a.config).schemas) ∧
      ∀ o ∈ (calls configs as).opened, o.2.inMemory = false ∧ o.2.dir = (configs o.1).dbDir := by
  have hinv : Inv configs as (calls configs as) := by
    induction as using List.reverseRecOn with
    | nil =>
      exact ⟨rfl, rfl, fun _ => rfl, fun _ _ => rfl, fun _ => .inl rfl, fun o ho => absurd ho List.not_mem_nil⟩
    | append_singleton as a ih =>
      unfold calls
      rw [List.foldl_append]
      exact ih.call a
  exact ⟨hinv.cache_eq, hinv.onDisk⟩

end Opens

end Omashu
