import Coccl.Config.Document
import Coccl.Foundations.Reports

/-!
# Reading the configuration

`cocclLoadConfigFile` and the functions it calls, with the texts of their errors. The error sink is
a pointer to a string or null. What a failed function has stored in the configuration is dropped
with it. A table of the wrong kind is not an error where it is asked for (`optionalTable`): a
message is stored, the table is taken as absent, and the functions look at the message later.
-/

namespace Coccl

open Reports Toml

/-! ## Keys and scalars -/

def validateKeys (table : Table) (allowed : List String) (path : String) : Reader Unit :=
  match table.find? fun entry => !allowed.contains entry.1 with
  | none => pure ()
  | some entry => fail (path ++ ": unknown key '" ++ entry.1 ++ "'")

/-- The table at a key; absent also if the node is no table, but then with a message. -/
def optionalTable (parent : Table) (key path : String) : Reader (Option Table) :=
  match parent.get key with
  | none => pure none
  | some node =>
    match node.asTable with
    | some table => pure (some table)
    | none => do
      report (path ++ "." ++ key ++ " must be a table")
      pure none

def readString (table : Table) (key value : String) (required : Bool) (path : String) :
    Reader String :=
  match table.get key with
  | none => if required then fail (path ++ "." ++ key ++ " is required") else pure value
  | some node =>
    match node.valueString with
    | none => fail (path ++ "." ++ key ++ " must be a string")
    | some parsed => pure parsed

def readBool (table : Table) (key : String) (value : Bool) (path : String) : Reader Bool :=
  match table.get key with
  | none => pure value
  | some node =>
    match node.valueBool with
    | none => fail (path ++ "." ++ key ++ " must be a boolean")
    | some parsed => pure parsed

def readSize (table : Table) (key : String) (value : ℕ) (path : String) : Reader ℕ :=
  match table.get key with
  | none => pure value
  | some node =>
    match node.valueInt.filter (0 ≤ ·.toInt) with
    | none => fail (path ++ "." ++ key ++ " must be a non-negative integer")
    | some parsed => pure parsed.toInt.toNat

def readInt (table : Table) (key : String) (value min max : ℤ) (path : String) : Reader ℤ :=
  match table.get key with
  | none => pure value
  | some node =>
    match node.valueInt.filter fun parsed => min ≤ parsed.toInt ∧ parsed.toInt ≤ max with
    | none =>
      fail (path ++ "." ++ key ++ " must be an integer in [" ++ toString min ++ ", " ++
        toString max ++ "]")
    | some parsed => pure parsed.toInt

def readRequiredInt (table : Table) (key : String) (value min max : ℤ) (path : String) :
    Reader ℤ :=
  if (table.get key).isNone then fail (path ++ "." ++ key ++ " is required")
  else readInt table key value min max path

/-! ## Names and options -/

/-- `std::isalnum(c) || c == '_' || c == '-'`. -/
def compressorChar (c : Char) : Bool :=
  c.isAlphanum || c == '_' || c == '-'

def validCompressorName (name : String) : Bool :=
  name != "" && name.toList.all compressorChar

/-- The loop of `readStringArray`; the set of names is that of `values`. -/
def readNames (path key : String) : List Node → List String → Reader (List String)
  | [], values => pure values
  | entry :: rest, values =>
    match entry.valueString with
    | none => fail (path ++ "." ++ key ++ " contains a non-string or empty name")
    | some name =>
      if name = "" then fail (path ++ "." ++ key ++ " contains a non-string or empty name")
      else if !name.toList.all compressorChar then
        fail (path ++ "." ++ key ++ " contains invalid compressor name '" ++ name ++ "'")
      else if values.contains name then
        fail (path ++ "." ++ key ++ " contains duplicate compressor '" ++ name ++ "'")
      else readNames path key rest (values ++ [name])

def readStringArray (table : Table) (key : String) (values : List String) (path : String) :
    Reader (List String) :=
  match table.get key with
  | none => pure values
  | some node =>
    match node.asArray with
    | none => fail (path ++ "." ++ key ++ " must be an array of strings")
    | some entries => readNames path key entries []

def scalarToString : Node → Option String
  | .string value => some value
  | .boolean value => some (if value then "true" else "false")
  | .integer value => some (toString value.toInt)
  | .floatingPoint value => value.text
  | _ => none

/-- `std::map::emplace`. -/
def emplace (values : List (String × String)) (key value : String) : List (String × String) :=
  if (values.lookup key).isSome then values else values ++ [(key, value)]

def parseOptionValues (path : String) :
    Table → List (String × String) → Reader (List (String × String))
  | [], values => pure values
  | (key, node) :: rest, values =>
    match scalarToString node with
    | none => fail (path ++ "." ++ key ++ " must be a string, integer, float, or boolean")
    | some value => parseOptionValues path rest (emplace values key value)

/-! ## Policies -/

/-- A table whose absence is accepted, unless there is a message. -/
def optionalSection {α : Type} (parent : Table) (key path : String) (absent : α)
    (present : Table → Reader α) : Reader α := do
  match ← optionalTable parent key path with
  | none => if ← unreported then pure absent else reject
  | some table => present table

/-- The part of `parseCompressorScope` after the switch and the name are read. -/
def parseScopeConfig (table : Table) (enabled : Bool) (name path : String) :
    Reader CompressorScopeEntry :=
  let scope : CompressorScopeEntry := { configured := true, enabled, name }
  if enabled = false then
    if name ≠ "" ∨ (table.get "config").isSome then
      fail (path ++ " disabled scope cannot configure a compressor")
    else pure scope
  else if validCompressorName name = false then
    fail (path ++ ".compressor contains invalid compressor name '" ++ name ++ "'")
  else
    optionalSection table "config" path scope fun config => do
      let values ← parseOptionValues (path ++ ".config") config []
      pure { scope with values }

def parseCompressorScope (table : Option Table) (path : String) : Reader CompressorScopeEntry :=
  match table with
  | none => pure {}
  | some table => do
    validateKeys table ["enabled", "compressor", "config"] path
    let enabled ← readBool table "enabled" true path
    let name ← readString table "compressor" "" enabled path
    parseScopeConfig table enabled name path

def parsePrimitivePolicy (table : Option Table) (defaultThreshold : ℕ) (path : String) :
    Reader PrimitivePolicy :=
  match table with
  | none => pure { thresholdBytes := defaultThreshold }
  | some table => do
    validateKeys table ["threshold_bytes", "default", "intra", "inter"] path
    let thresholdBytes ← readSize table "threshold_bytes" defaultThreshold path
    let defaults ← optionalTable table "default" path
    let intra ← optionalTable table "intra" path
    let inter ← optionalTable table "inter" path
    if (← unreported) then
      let defaultScope ← parseCompressorScope defaults (path ++ ".default")
      let intraScope ← parseCompressorScope intra (path ++ ".intra")
      let interScope ← parseCompressorScope inter (path ++ ".inter")
      pure { defaultScope, intraScope, interScope, thresholdBytes }
    else reject

def parseCollectiveChildren (table : Option Table) (defaultThreshold : ℕ) (path : String) :
    Reader CollectivePolicies := do
  let parent := table.getD []
  let allGather ← optionalTable parent "all_gather" path
  if allGather.isNone && !(← unreported) then reject else
  let reduceScatter ← optionalTable parent "reduce_scatter" path
  if reduceScatter.isNone && !(← unreported) then reject else
  let allReduce ← optionalTable parent "all_reduce" path
  if allReduce.isNone && !(← unreported) then reject else
  let allGather ← parsePrimitivePolicy allGather defaultThreshold (path ++ ".all_gather")
  let reduceScatter ←
    parsePrimitivePolicy reduceScatter defaultThreshold (path ++ ".reduce_scatter")
  let allReduce ← parsePrimitivePolicy allReduce defaultThreshold (path ++ ".all_reduce")
  pure { allGather, reduceScatter, allReduce }

def parseCollectivePolicies (table : Option Table) (defaultThreshold : ℕ) (path : String) :
    Reader CollectivePolicies := do
  validateKeys (table.getD []) ["all_gather", "reduce_scatter", "all_reduce"] path
  parseCollectiveChildren table defaultThreshold path

/-! ## Sections -/

def parseNormal (table : Option Table) (config : Config) : Reader Config := do
  let parent := table.getD []
  validateKeys parent ["all_gather", "reduce_scatter", "all_reduce", "all_to_all", "sendrecv"]
    "normal"
  let threshold := config.runtime.compressionThresholdBytes
  let collectives ← parseCollectiveChildren table threshold "normal"
  let allToAll ← optionalTable parent "all_to_all" "normal"
  let sendRecv ← optionalTable parent "sendrecv" "normal"
  if (← unreported) then
    let allToAll ← parsePrimitivePolicy allToAll threshold "normal.all_to_all"
    let sendRecv ← parsePrimitivePolicy sendRecv threshold "normal.sendrecv"
    pure { config with normal := { collectives with allToAll, sendRecv } }
  else reject

/-- `std::numeric_limits<int>::max()`. -/
def maxInt : ℤ := 2147483647

def parseDataParallelStrategy (text : String) : Option DataParallelStrategy :=
  if text = "ddp" then some .ddp
  else if text = "sdp" then some .sdp
  else if text = "fsdp" then some .fsdp
  else none

def readParallelSize (classifier : Table) (required : Bool) (key : String) (value : ℤ) : Reader ℤ :=
  if required then readRequiredInt classifier key value 1 maxInt "training.classifier"
  else readInt classifier key value 1 maxInt "training.classifier"

/-- The part of `parseTraining` for the classifier. -/
def parseClassifier (classifier : Option Table) (required : Bool) (training : TrainingConfig) :
    Reader TrainingConfig :=
  match classifier with
  | none => pure training
  | some classifier => do
    let path := "training.classifier"
    validateKeys classifier ["data_parallel_size", "tensor_parallel_size",
      "pipeline_parallel_size", "dp_strategy", "sequence_parallel"] path
    let dataParallelSize ←
      readParallelSize classifier required "data_parallel_size" training.dataParallelSize
    let tensorParallelSize ←
      readParallelSize classifier required "tensor_parallel_size" training.tensorParallelSize
    let pipelineParallelSize ←
      readParallelSize classifier required "pipeline_parallel_size" training.pipelineParallelSize
    let dpStrategy ← readString classifier "dp_strategy" "sdp" false path
    let sequenceParallel ←
      readBool classifier "sequence_parallel" training.sequenceParallel path
    let dataParallelStrategy ← orFail (parseDataParallelStrategy dpStrategy)
      (path ++ ".dp_strategy must be 'ddp', 'sdp', or 'fsdp'")
    pure { training with
      dataParallelSize, tensorParallelSize, pipelineParallelSize, dataParallelStrategy,
      sequenceParallel }

/-- The part of `parseTraining` for the policies. -/
def parseTrainingPolicies (parent : Table) (threshold : ℕ) : Reader TrainingPolicies := do
  let dp ← optionalTable parent "dp" "training"
  let tp ← optionalTable parent "tp" "training"
  let pp ← optionalTable parent "pp" "training"
  if (← unreported) then
    let dataParallel ← parseCollectivePolicies dp threshold "training.dp"
    let tensorParallel ← parseCollectivePolicies tp threshold "training.tp"
    let ppParent := pp.getD []
    validateKeys ppParent ["sendrecv"] "training.pp"
    let sendRecv ← optionalTable ppParent "sendrecv" "training.pp"
    let sendRecvParent := sendRecv.getD []
    validateKeys sendRecvParent ["forward", "backward"] "training.pp.sendrecv"
    let forward ← optionalTable sendRecvParent "forward" "training.pp.sendrecv"
    let backward ← optionalTable sendRecvParent "backward" "training.pp.sendrecv"
    if (← unreported) then
      let pipelineSendRecvForward ←
        parsePrimitivePolicy forward threshold "training.pp.sendrecv.forward"
      let pipelineSendRecvBackward ←
        parsePrimitivePolicy backward threshold "training.pp.sendrecv.backward"
      pure { dataParallel, tensorParallel, pipelineSendRecvForward, pipelineSendRecvBackward }
    else reject
  else reject

def parseTraining (table : Option Table) (config : Config) : Reader Config := do
  let required := decide (config.runtime.mode = .training)
  require (required → table.isSome) "training is required in training mode"
  let parent := table.getD []
  validateKeys parent ["observation_iterations", "classifier", "dp", "tp", "pp"] "training"
  let observationIterations ←
    readInt parent "observation_iterations" config.training.observationIterations 2 100 "training"
  let classifier ← optionalTable parent "classifier" "training"
  require (required → classifier.isSome) "training.classifier is required in training mode"
  let training ←
    parseClassifier classifier required { config.training with observationIterations }
  let trainingPolicies ← parseTrainingPolicies parent config.runtime.compressionThresholdBytes
  pure { config with training, trainingPolicies }

def parseRuntimeMode (text : String) : Option RuntimeMode :=
  if text = "normal" then some .normal
  else if text = "training" then some .training
  else none

/-- `parseRuntime` once the table is found; likewise for the sections below. -/
def readRuntime (config : Config) (runtime : Table) : Reader Config := do
  validateKeys runtime ["mode", "compression_threshold_bytes"] "runtime"
  let text ← readString runtime "mode" "" true "runtime"
  let compressionThresholdBytes ← readSize runtime "compression_threshold_bytes"
    config.runtime.compressionThresholdBytes "runtime"
  let mode ← orFail (parseRuntimeMode text) "runtime.mode must be 'normal' or 'training'"
  pure { config with runtime := { mode, compressionThresholdBytes } }

def parseRuntime (root : Table) (config : Config) : Reader Config := do
  match ← optionalTable root "runtime" "root" with
  | none => if !(← unreported) then reject else fail "runtime table is required"
  | some runtime => readRuntime config runtime

def configDirectory (path : String) : String :=
  match path.toList.reverse.dropWhile (· != '/') with
  | [] => "."
  | _ :: directory => String.ofList directory.reverse

def resolvePath (configPath path : String) : String :=
  if path = "" ∨ path.toList.head? = some '/' then path
  else
    let directory := configDirectory configPath
    if directory = "." then path else directory ++ "/" ++ path

def readPlugins (configPath : String) (config : Config) (plugins : Table) : Reader Config := do
  validateKeys plugins ["compressors", "library_path"] "compressor_plugins"
  let compressors ←
    readStringArray plugins "compressors" config.plugins.compressors "compressor_plugins"
  let libraryPath ← readString plugins "library_path" config.plugins.libraryPath false
    "compressor_plugins"
  require (compressors = [] ∨ libraryPath ≠ "")
    "compressor_plugins.library_path is required when compressors are configured"
  pure { config with
    plugins := { compressors, libraryPath := resolvePath configPath libraryPath } }

def parsePlugins (root : Table) (configPath : String) (config : Config) : Reader Config :=
  optionalSection root "compressor_plugins" "root" config (readPlugins configPath config)

def kCocclMinPipelineDepth : ℤ := 1

def kCocclMaxPipelineDepth : ℤ := 16

def readPipeline (config : Config) (pipeline : Table) : Reader Config := do
  validateKeys pipeline ["depth"] "pipeline"
  let pipelineDepth ← readInt pipeline "depth" config.pipelineDepth kCocclMinPipelineDepth
    kCocclMaxPipelineDepth "pipeline"
  pure { config with pipelineDepth }

def parsePipeline (root : Table) (config : Config) : Reader Config :=
  optionalSection root "pipeline" "root" config (readPipeline config)

def readBuffer (config : Config) (buffer : Table) : Reader Config := do
  validateKeys buffer ["pool_limit_bytes", "legacy_block_bytes", "physical_chunk_bytes"] "buffer"
  let poolLimitBytes ← readSize buffer "pool_limit_bytes" config.buffer.poolLimitBytes "buffer"
  let legacyBlockBytes ←
    readSize buffer "legacy_block_bytes" config.buffer.legacyBlockBytes "buffer"
  let physicalChunkBytes ←
    readSize buffer "physical_chunk_bytes" config.buffer.physicalChunkBytes "buffer"
  require (0 < physicalChunkBytes) "buffer.physical_chunk_bytes must be greater than zero"
  pure { config with buffer := { poolLimitBytes, legacyBlockBytes, physicalChunkBytes } }

def parseBuffer (root : Table) (config : Config) : Reader Config :=
  optionalSection root "buffer" "root" config (readBuffer config)

def parseReduceScatterAlgorithm (text : String) : Option ReduceScatterAlgorithmPolicy :=
  if text = "auto" then some .auto
  else if text = "oneshot" then some .oneShot
  else if text = "twoshot" then some .twoShot
  else none

def parseAllReduceAlgorithm (text : String) : Option AllReduceAlgorithmPolicy :=
  if text = "auto" then some .auto
  else if text = "oneshot" then some .oneShot
  else if text = "twoshot" then some .twoShot
  else if text = "tripleshot" then some .tripleShot
  else none

def readAutotune (config : Config) (autotune : Table) : Reader Config := do
  validateKeys autotune ["enabled", "profile_min_bytes", "profile_max_bytes", "warmup",
    "iterations", "reduce_scatter_algorithm", "all_reduce_algorithm"] "autotune"
  let enabled ← readBool autotune "enabled" config.autotune.enabled "autotune"
  let profileMinBytes ←
    readSize autotune "profile_min_bytes" config.autotune.profileMinBytes "autotune"
  let profileMaxBytes ←
    readSize autotune "profile_max_bytes" config.autotune.profileMaxBytes "autotune"
  let warmup ← readInt autotune "warmup" config.autotune.warmup 0 100000 "autotune"
  let iterations ← readInt autotune "iterations" config.autotune.iterations 1 100000 "autotune"
  require (0 < profileMinBytes ∧ profileMinBytes ≤ profileMaxBytes)
    "autotune profile sizes require 0 < profile_min_bytes <= profile_max_bytes"
  let rs ← readString autotune "reduce_scatter_algorithm" "auto" false "autotune"
  let ar ← readString autotune "all_reduce_algorithm" "auto" false "autotune"
  let reduceScatterAlgorithm ← orFail (parseReduceScatterAlgorithm rs)
    "autotune.reduce_scatter_algorithm must be auto, oneshot, or twoshot"
  let allReduceAlgorithm ← orFail (parseAllReduceAlgorithm ar)
    "autotune.all_reduce_algorithm must be auto, oneshot, twoshot, or tripleshot"
  pure { config with
    autotune := { config.autotune with
      enabled, profileMinBytes, profileMaxBytes, warmup, iterations, reduceScatterAlgorithm,
      allReduceAlgorithm } }

def parseAutotune (root : Table) (config : Config) : Reader Config :=
  optionalSection root "autotune" "root" config (readAutotune config)

/-! ## Files -/

def validateCatalogReferences (config : Config) : Reader Unit :=
  let scopes := (cocclEnumeratePolicies config).flatMap PrimitivePolicy.scopes
  match scopes.find? fun scope =>
      scope.enabled && !config.plugins.compressors.contains scope.name with
  | none => pure ()
  | some scope =>
    fail ("compressor '" ++ scope.name ++
      "' is used by a policy but missing from compressor_plugins.compressors")

/-- `parseConfigFileImpl` with the document of the file, or the text of its parse error. -/
def parseConfigFileImpl (path : String) (file : Except String Table) (config : Config) :
    Reader Config :=
  match file with
  | .error message => fail message
  | .ok root => do
    validateKeys root ["runtime", "compressor_plugins", "pipeline", "buffer", "autotune", "normal",
      "training"] "root"
    let config ← parseRuntime root config
    let config ← parsePlugins root path config
    let config ← parsePipeline root config
    let config ← parseBuffer root config
    let config ← parseAutotune root config
    let normal ← optionalTable root "normal" "root"
    let training ← optionalTable root "training" "root"
    if (← unreported) then
      let config ← parseNormal normal config
      let config ← parseTraining training config
      validateCatalogReferences config
      pure config
    else reject

/-- What a call of `cocclLoadConfigFile` returns and leaves in its two arguments. -/
structure LoadResult where
  accepted : Bool
  config : Option Config
  error : Sink

/-- The end of `cocclLoadConfigFile`: what is parsed is stored, if anything is. -/
def LoadResult.store (config : Config) (parsed : Option Config × Sink) : LoadResult where
  accepted := parsed.1.isSome
  config := some (parsed.1.getD config)
  error := parsed.2

/-- `cocclLoadConfigFile`. The configuration is a pointer as well. -/
def cocclLoadConfigFile (path : String) (file : Except String Table) (config : Option Config)
    (error : Sink) : LoadResult :=
  let cleared := error.map fun _ => ""
  match config with
  | none => ⟨false, none, cleared.map fun _ => "config output is required"⟩
  | some config =>
    if path = "" then ⟨false, some config, cleared.map fun _ => "config file path is empty"⟩
    else .store config (parseConfigFileImpl path file Config.defaults cleared)

end Coccl
