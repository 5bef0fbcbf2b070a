import Coccl.Config.Parser

/-!
# The format of configurations

What a document has to satisfy (`Config.Admitted`) and which configuration it stands for
(`Config.ofDocument`), without the order in which the parser looks at it. A table of the wrong kind
counts as absent here; that there is none (`Config.WellTyped`) stands by itself.
-/

namespace Coccl

open Reports Toml

/-! ## Fields -/

namespace Toml.Table

variable (table : Table) (key : String)

/-- The table at a key, if it is one. -/
def table? : Option Table :=
  (table.get key).bind Node.asTable

/-- The table at a key, empty if there is none. -/
def child : Table :=
  (table.table? key).getD []

/-- A key holds a table, if anything. -/
def TableAt : Prop :=
  ∀ node ∈ table.get key, node.asTable.isSome = true

def KeysIn (allowed : List String) : Prop :=
  ∀ entry ∈ table, entry.1 ∈ allowed

def StringAt : Prop :=
  ∀ node ∈ table.get key, node.valueString.isSome = true

def BoolAt : Prop :=
  ∀ node ∈ table.get key, node.valueBool.isSome = true

def SizeAt : Prop :=
  ∀ node ∈ table.get key, ∃ value ∈ node.valueInt, 0 ≤ value.toInt

def IntAt (min max : ℤ) : Prop :=
  ∀ node ∈ table.get key, ∃ value ∈ node.valueInt, min ≤ value.toInt ∧ value.toInt ≤ max

/-- A key holds a list of different names, if anything. -/
def NamesAt : Prop :=
  ∀ node ∈ table.get key, ∃ entries ∈ node.asArray,
    (∀ entry ∈ entries, ∃ name ∈ entry.valueString, validCompressorName name = true) ∧
      (entries.filterMap Node.valueString).Nodup

def stringOr (value : String) : String :=
  ((table.get key).bind Node.valueString).getD value

def boolOr (value : Bool) : Bool :=
  ((table.get key).bind Node.valueBool).getD value

def intOr (value : ℤ) : ℤ :=
  (((table.get key).bind Node.valueInt).map Int64.toInt).getD value

def sizeOr (value : ℕ) : ℕ :=
  (((table.get key).bind Node.valueInt).map (·.toInt.toNat)).getD value

def namesOr (values : List String) : List String :=
  (((table.get key).bind Node.asArray).map (·.filterMap Node.valueString)).getD values

/-- The options of a compressor, as text. -/
def optionValues : List (String × String) :=
  table.foldl (fun values entry => emplace values entry.1 ((scalarToString entry.2).getD "")) []

end Toml.Table

/-! ## Policies -/

/-- A scope names a compressor with its options, or is disabled and has neither. -/
@[mk_iff]
structure CompressorScopeEntry.Admitted (table : Table) : Prop where
  keys : table.KeysIn ["enabled", "compressor", "config"]
  enabled : table.BoolAt "enabled"
  compressor : table.StringAt "compressor"
  on : table.boolOr "enabled" true = true →
    validCompressorName (table.stringOr "compressor" "") = true ∧
      ∀ entry ∈ table.child "config", (scalarToString entry.2).isSome = true
  off : table.boolOr "enabled" true = false →
    table.stringOr "compressor" "" = "" ∧ table.get "config" = none

def CompressorScopeEntry.ofTable (table : Table) : CompressorScopeEntry where
  configured := true
  enabled := table.boolOr "enabled" true
  name := table.stringOr "compressor" ""
  values := if table.boolOr "enabled" true then (table.child "config").optionValues else []

/-- The scope a policy has at a key. -/
def CompressorScopeEntry.at (table : Table) (key : String) : CompressorScopeEntry :=
  ((table.table? key).map CompressorScopeEntry.ofTable).getD {}

def scopeKeys : List String := ["default", "intra", "inter"]

@[mk_iff]
structure PrimitivePolicy.Admitted (table : Table) : Prop where
  keys : table.KeysIn ["threshold_bytes", "default", "intra", "inter"]
  threshold : table.SizeAt "threshold_bytes"
  scopes : ∀ key ∈ scopeKeys, ∀ scope ∈ table.table? key, CompressorScopeEntry.Admitted scope

def PrimitivePolicy.WellTyped (table : Table) : Prop :=
  ∀ key ∈ scopeKeys, table.TableAt key ∧ ∀ scope ∈ table.table? key, scope.TableAt "config"

def PrimitivePolicy.ofTable (defaultThreshold : ℕ) (table : Table) : PrimitivePolicy where
  defaultScope := .at table "default"
  intraScope := .at table "intra"
  interScope := .at table "inter"
  thresholdBytes := table.sizeOr "threshold_bytes" defaultThreshold

/-- Policies at some keys of a table. -/
def PoliciesAdmitted (keys : List String) (table : Table) : Prop :=
  ∀ key ∈ keys, PrimitivePolicy.Admitted (table.child key)

def PoliciesWellTyped (keys : List String) (table : Table) : Prop :=
  ∀ key ∈ keys, table.TableAt key ∧ PrimitivePolicy.WellTyped (table.child key)

def collectiveKeys : List String := ["all_gather", "reduce_scatter", "all_reduce"]

def CollectivePolicies.ofTable (threshold : ℕ) (table : Table) : CollectivePolicies where
  allGather := .ofTable threshold (table.child "all_gather")
  reduceScatter := .ofTable threshold (table.child "reduce_scatter")
  allReduce := .ofTable threshold (table.child "all_reduce")

/-! ## Sections -/

namespace Config

@[mk_iff]
structure Runtime.Admitted (table : Table) : Prop where
  keys : table.KeysIn ["mode", "compression_threshold_bytes"]
  mode : table.StringAt "mode"
  threshold : table.SizeAt "compression_threshold_bytes"
  mode_known : (parseRuntimeMode (table.stringOr "mode" "")).isSome = true

def Runtime.ofTable (table : Table) : Runtime where
  mode := (parseRuntimeMode (table.stringOr "mode" "")).getD .normal
  compressionThresholdBytes :=
    table.sizeOr "compression_threshold_bytes" defaults.runtime.compressionThresholdBytes

@[mk_iff]
structure PluginCatalog.Admitted (table : Table) : Prop where
  keys : table.KeysIn ["compressors", "library_path"]
  compressors : table.NamesAt "compressors"
  libraryPath : table.StringAt "library_path"
  located : table.namesOr "compressors" [] = [] ∨ table.stringOr "library_path" "" ≠ ""

def PluginCatalog.ofTable (path : String) (table : Table) : PluginCatalog where
  compressors := table.namesOr "compressors" []
  libraryPath := resolvePath path (table.stringOr "library_path" "")

@[mk_iff]
structure PipelineAdmitted (table : Table) : Prop where
  keys : table.KeysIn ["depth"]
  depth : table.IntAt "depth" kCocclMinPipelineDepth kCocclMaxPipelineDepth

@[mk_iff]
structure Buffer.Admitted (table : Table) : Prop where
  keys : table.KeysIn ["pool_limit_bytes", "legacy_block_bytes", "physical_chunk_bytes"]
  poolLimit : table.SizeAt "pool_limit_bytes"
  legacyBlock : table.SizeAt "legacy_block_bytes"
  physicalChunk : table.SizeAt "physical_chunk_bytes"
  chunk_pos : 0 < table.sizeOr "physical_chunk_bytes" defaults.buffer.physicalChunkBytes

def Buffer.ofTable (table : Table) : Buffer where
  poolLimitBytes := table.sizeOr "pool_limit_bytes" defaults.buffer.poolLimitBytes
  legacyBlockBytes := table.sizeOr "legacy_block_bytes" defaults.buffer.legacyBlockBytes
  physicalChunkBytes := table.sizeOr "physical_chunk_bytes" defaults.buffer.physicalChunkBytes

def Autotune.ofTable (table : Table) : Autotune where
  enabled := table.boolOr "enabled" defaults.autotune.enabled
  profileMinBytes := table.sizeOr "profile_min_bytes" defaults.autotune.profileMinBytes
  profileMaxBytes := table.sizeOr "profile_max_bytes" defaults.autotune.profileMaxBytes
  warmup := table.intOr "warmup" defaults.autotune.warmup
  iterations := table.intOr "iterations" defaults.autotune.iterations
  reduceScatterAlgorithm :=
    (parseReduceScatterAlgorithm (table.stringOr "reduce_scatter_algorithm" "auto")).getD .auto
  allReduceAlgorithm :=
    (parseAllReduceAlgorithm (table.stringOr "all_reduce_algorithm" "auto")).getD .auto

@[mk_iff]
structure Autotune.Admitted (table : Table) : Prop where
  keys : table.KeysIn ["enabled", "profile_min_bytes", "profile_max_bytes", "warmup",
    "iterations", "reduce_scatter_algorithm", "all_reduce_algorithm"]
  enabled : table.BoolAt "enabled"
  profileMin : table.SizeAt "profile_min_bytes"
  profileMax : table.SizeAt "profile_max_bytes"
  warmup : table.IntAt "warmup" 0 100000
  iterations : table.IntAt "iterations" 1 100000
  sizes : 0 < (ofTable table).profileMinBytes ∧
    (ofTable table).profileMinBytes ≤ (ofTable table).profileMaxBytes
  reduceScatter : table.StringAt "reduce_scatter_algorithm"
  allReduce : table.StringAt "all_reduce_algorithm"
  reduceScatter_known :
    (parseReduceScatterAlgorithm (table.stringOr "reduce_scatter_algorithm" "auto")).isSome = true
  allReduce_known :
    (parseAllReduceAlgorithm (table.stringOr "all_reduce_algorithm" "auto")).isSome = true

/-! ## Training -/

/-- The sizes of the classifier can be left out unless they are required. -/
def ParallelSizeAt (required : Bool) (table : Table) (key : String) : Prop :=
  (required = true → (table.get key).isSome = true) ∧ table.IntAt key 1 maxInt

@[mk_iff]
structure ClassifierAdmitted (required : Bool) (table : Table) : Prop where
  keys : table.KeysIn ["data_parallel_size", "tensor_parallel_size", "pipeline_parallel_size",
    "dp_strategy", "sequence_parallel"]
  dataParallel : ParallelSizeAt required table "data_parallel_size"
  tensorParallel : ParallelSizeAt required table "tensor_parallel_size"
  pipelineParallel : ParallelSizeAt required table "pipeline_parallel_size"
  strategy : table.StringAt "dp_strategy"
  sequenceParallel : table.BoolAt "sequence_parallel"
  strategy_known :
    (parseDataParallelStrategy (table.stringOr "dp_strategy" "sdp")).isSome = true

def trainingOf (table : Table) : TrainingConfig where
  observationIterations :=
    table.intOr "observation_iterations" defaults.training.observationIterations
  dataParallelSize :=
    (table.child "classifier").intOr "data_parallel_size" defaults.training.dataParallelSize
  tensorParallelSize :=
    (table.child "classifier").intOr "tensor_parallel_size" defaults.training.tensorParallelSize
  pipelineParallelSize :=
    (table.child "classifier").intOr "pipeline_parallel_size"
      defaults.training.pipelineParallelSize
  dataParallelStrategy :=
    (parseDataParallelStrategy
      ((table.child "classifier").stringOr "dp_strategy" "sdp")).getD .sdp
  sequenceParallel :=
    (table.child "classifier").boolOr "sequence_parallel" defaults.training.sequenceParallel

def directionKeys : List String := ["forward", "backward"]

@[mk_iff]
structure TrainingPoliciesAdmitted (table : Table) : Prop where
  dp_keys : (table.child "dp").KeysIn collectiveKeys
  dp : PoliciesAdmitted collectiveKeys (table.child "dp")
  tp_keys : (table.child "tp").KeysIn collectiveKeys
  tp : PoliciesAdmitted collectiveKeys (table.child "tp")
  pp_keys : (table.child "pp").KeysIn ["sendrecv"]
  sendRecv_keys : ((table.child "pp").child "sendrecv").KeysIn directionKeys
  sendRecv : PoliciesAdmitted directionKeys ((table.child "pp").child "sendrecv")

@[mk_iff]
structure TrainingPoliciesWellTyped (table : Table) : Prop where
  tables : ∀ key ∈ ["dp", "tp", "pp"], table.TableAt key
  dp : PoliciesWellTyped collectiveKeys (table.child "dp")
  tp : PoliciesWellTyped collectiveKeys (table.child "tp")
  sendRecv_table : (table.child "pp").TableAt "sendrecv"
  sendRecv : PoliciesWellTyped directionKeys ((table.child "pp").child "sendrecv")

def trainingPoliciesOf (threshold : ℕ) (table : Table) : TrainingPolicies where
  dataParallel := .ofTable threshold (table.child "dp")
  tensorParallel := .ofTable threshold (table.child "tp")
  pipelineSendRecvForward :=
    .ofTable threshold (((table.child "pp").child "sendrecv").child "forward")
  pipelineSendRecvBackward :=
    .ofTable threshold (((table.child "pp").child "sendrecv").child "backward")

/-- The training section. In training mode it and its classifier have to be there. -/
@[mk_iff]
structure TrainingAdmitted (required : Bool) (table : Option Table) : Prop where
  present : required = true → table.isSome = true
  keys : (table.getD []).KeysIn ["observation_iterations", "classifier", "dp", "tp", "pp"]
  observation : (table.getD []).IntAt "observation_iterations" 2 100
  classifier_present :
    required = true → ((table.getD []).table? "classifier").isSome = true
  classifier :
    ∀ classifier ∈ (table.getD []).table? "classifier", ClassifierAdmitted required classifier
  policies : TrainingPoliciesAdmitted (table.getD [])

/-! ## Documents -/

def normalKeys : List String := collectiveKeys ++ ["all_to_all", "sendrecv"]

def normalOf (threshold : ℕ) (table : Table) : NormalPolicies where
  toCollectivePolicies := .ofTable threshold table
  allToAll := .ofTable threshold (table.child "all_to_all")
  sendRecv := .ofTable threshold (table.child "sendrecv")

/-- The configuration a document stands for. -/
def ofDocument (path : String) (root : Table) : Config :=
  let runtime := Runtime.ofTable (root.child "runtime")
  { runtime := runtime
    plugins := .ofTable path (root.child "compressor_plugins")
    pipelineDepth := (root.child "pipeline").intOr "depth" defaults.pipelineDepth
    buffer := .ofTable (root.child "buffer")
    autotune := .ofTable (root.child "autotune")
    training := trainingOf (root.child "training")
    normal := normalOf runtime.compressionThresholdBytes (root.child "normal")
    trainingPolicies :=
      trainingPoliciesOf runtime.compressionThresholdBytes (root.child "training") }

/-- Every enabled scope names a compressor of the catalog. -/
def Catalogued (config : Config) : Prop :=
  ∀ policy ∈ cocclEnumeratePolicies config, ∀ scope ∈ policy.scopes,
    scope.enabled = true → scope.name ∈ config.plugins.compressors

def sectionKeys : List String :=
  ["runtime", "compressor_plugins", "pipeline", "buffer", "autotune", "normal", "training"]

/-- What a document has to satisfy, besides the kinds of its tables. -/
@[mk_iff]
structure Admitted (root : Table) : Prop where
  keys : root.KeysIn sectionKeys
  runtime_present : (root.table? "runtime").isSome = true
  runtime : Runtime.Admitted (root.child "runtime")
  plugins : PluginCatalog.Admitted (root.child "compressor_plugins")
  pipeline : PipelineAdmitted (root.child "pipeline")
  buffer : Buffer.Admitted (root.child "buffer")
  autotune : Autotune.Admitted (root.child "autotune")
  normal_keys : (root.child "normal").KeysIn normalKeys
  normal : PoliciesAdmitted normalKeys (root.child "normal")
  training : TrainingAdmitted (decide ((Runtime.ofTable (root.child "runtime")).mode = .training))
    (root.table? "training")
  catalogued : (ofDocument "" root).Catalogued

/-- Every node that is asked for as a table is one. -/
@[mk_iff]
structure WellTyped (root : Table) : Prop where
  sections : ∀ key ∈ sectionKeys, root.TableAt key
  normal : PoliciesWellTyped normalKeys (root.child "normal")
  classifier : (root.child "training").TableAt "classifier"
  training : TrainingPoliciesWellTyped (root.child "training")

end Config

end Coccl
