import Coccl.Training.Trace
import Coccl.Tuning.Selector

/-!
# Documents and configurations

The document tree `toml::parse_file` returns, and the configuration read from it. A node converts by
the rules of `toml::node::value`: an integer is also a boolean, and a boolean or a whole
floating-point number is also an integer. A floating-point number is known by what is asked of it.
-/

namespace Coccl

/-! ## Documents -/

namespace Toml

/-- A floating-point number: the `int64_t` it equals, and the text it is printed as, if it is
finite. -/
structure FloatValue where
  whole : Option Int64
  text : Option String

/-- `toml::node`. Dates and times are alike: nothing converts from them. -/
inductive Node where
  | string (value : String)
  | integer (value : Int64)
  | floatingPoint (value : FloatValue)
  | boolean (value : Bool)
  | dateTime
  | array (entries : List Node)
  | table (entries : List (String × Node))

/-- `toml::table`, in the order of its keys. -/
abbrev Table := List (String × Node)

namespace Node

def asTable : Node → Option Table
  | .table entries => some entries
  | _ => none

def asArray : Node → Option (List Node)
  | .array entries => some entries
  | _ => none

/-- `value<std::string>()`. -/
def valueString : Node → Option String
  | .string value => some value
  | _ => none

/-- `value<bool>()`. -/
def valueBool : Node → Option Bool
  | .boolean value => some value
  | .integer value => some (value != 0)
  | _ => none

/-- `value<int64_t>()`. -/
def valueInt : Node → Option Int64
  | .integer value => some value
  | .floatingPoint value => value.whole
  | .boolean value => some (if value then 1 else 0)
  | _ => none

end Node

/-- `toml::table::get`. -/
def Table.get (table : Table) (key : String) : Option Node :=
  table.lookup key

end Toml

/-! ## Configurations -/

inductive RuntimeMode where
  | normal
  | training
  deriving DecidableEq, Repr

structure CompressorScopeEntry where
  configured : Bool := false
  enabled : Bool := false
  name : String := ""
  values : List (String × String) := []
  deriving DecidableEq, Repr

/-- `cocclPrimitivePolicy`, with its three scopes. -/
structure PrimitivePolicy where
  defaultScope : CompressorScopeEntry := {}
  intraScope : CompressorScopeEntry := {}
  interScope : CompressorScopeEntry := {}
  thresholdBytes : ℕ := 8 * 1024 * 1024
  deriving DecidableEq, Repr

def PrimitivePolicy.scopes (policy : PrimitivePolicy) : List CompressorScopeEntry :=
  [policy.defaultScope, policy.intraScope, policy.interScope]

structure CollectivePolicies where
  allGather : PrimitivePolicy := {}
  reduceScatter : PrimitivePolicy := {}
  allReduce : PrimitivePolicy := {}
  deriving DecidableEq, Repr

structure NormalPolicies extends CollectivePolicies where
  allToAll : PrimitivePolicy := {}
  sendRecv : PrimitivePolicy := {}
  deriving DecidableEq, Repr

structure TrainingPolicies where
  dataParallel : CollectivePolicies := {}
  tensorParallel : CollectivePolicies := {}
  pipelineSendRecvForward : PrimitivePolicy := {}
  pipelineSendRecvBackward : PrimitivePolicy := {}
  deriving DecidableEq, Repr

structure Config.Runtime where
  mode : RuntimeMode := .normal
  compressionThresholdBytes : ℕ := 8 * 1024 * 1024
  deriving DecidableEq, Repr

structure Config.PluginCatalog where
  compressors : List String := []
  libraryPath : String := ""
  deriving DecidableEq, Repr

structure Config.Buffer where
  poolLimitBytes : ℕ := 0
  legacyBlockBytes : ℕ := 0
  physicalChunkBytes : ℕ := 8 * 1024 * 1024
  deriving DecidableEq, Repr

structure Config.Autotune extends AutotuneConfig where
  profileMinBytes : ℕ
  profileMaxBytes : ℕ
  warmup : ℤ
  iterations : ℤ

/-- `cocclConfig`. -/
structure Config where
  runtime : Config.Runtime := {}
  plugins : Config.PluginCatalog := {}
  pipelineDepth : ℤ := 1
  buffer : Config.Buffer := {}
  autotune : Config.Autotune :=
    { enabled := true
      profileMinBytes := 256 * 1024
      profileMaxBytes := 8 * 1024 * 1024 * 1024
      warmup := 3
      iterations := 10
      reduceScatterAlgorithm := .auto
      allReduceAlgorithm := .auto }
  training : TrainingConfig :=
    { observationIterations := 5
      dataParallelSize := 1
      tensorParallelSize := 1
      pipelineParallelSize := 1
      dataParallelStrategy := .sdp
      sequenceParallel := false }
  normal : NormalPolicies := {}
  trainingPolicies : TrainingPolicies := {}

/-- The values of a configuration under construction before anything is read. -/
def Config.defaults : Config := {}

/-- The policies of `cocclEnumeratePolicies`, in its order. -/
def cocclEnumeratePolicies (config : Config) : List PrimitivePolicy :=
  [config.normal.allGather, config.normal.reduceScatter, config.normal.allReduce,
    config.normal.allToAll, config.normal.sendRecv,
    config.trainingPolicies.dataParallel.allGather,
    config.trainingPolicies.dataParallel.reduceScatter,
    config.trainingPolicies.dataParallel.allReduce,
    config.trainingPolicies.tensorParallel.allGather,
    config.trainingPolicies.tensorParallel.reduceScatter,
    config.trainingPolicies.tensorParallel.allReduce,
    config.trainingPolicies.pipelineSendRecvForward,
    config.trainingPolicies.pipelineSendRecvBackward]

end Coccl
