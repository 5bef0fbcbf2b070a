import Coccl.Compression.Plugin

/-!
# Pipeline specifications and plans

The stages a primitive lists, the specification it submits, and the plan and context computed from
it. A compressor handle is a value of an arbitrary type `κ`; a null handle is `none`. A stage is
built by one of the header's nine constructor functions, so a stage that communicates has its
communicator and a stage that reduces its divisor.
-/

namespace Coccl

open Checked

/-! ## Limits -/

def kCocclPipelineExplicitStages : ℕ := 7
def kCocclPipelinePhysicalStages : ℕ := 9
def kCocclPipelineMaxTemps : ℕ := 8
def kCocclPipelineMaxDepth : ℕ := 16
def kCocclPipelineRawRingSlots : ℕ := 2
def kCocclPipelineAlignment : ℕ := 256

/-- `sizeof(cocclCompressorFrameMetadata)`. -/
def frameMetadataSize : ℕ := 16

def cocclPipelineCheckedMultiply (lhs rhs : ℕ) : Option ℕ := mul sizeMax lhs rhs
def cocclPipelineCheckedAdd (lhs rhs : ℕ) : Option ℕ := add sizeMax lhs rhs
def cocclAlignPipelineBytes (bytes : ℕ) : Option ℕ :=
  Checked.alignUp sizeMax kCocclPipelineAlignment bytes

/-- A failed size check, as the planner reports it. -/
def orInvalid {α : Type*} (o : Option α) : Result α := orElse .invalidArgument o

/-! ## Specifications -/

/-- One stage of a pipeline. -/
inductive Stage (κ : Type) where
  | compress (compressor : Option κ)
  | allToAll (comm : Comm)
  | allGather (comm : Comm)
  | decompReduceComp (reduceChunks : ℕ) (compressor : Option κ)
  | decompressReduce (reduceChunks : ℕ)
  | decompress
  | reduceScatter (comm : Comm)
  | pack
  | unpack
  deriving DecidableEq

/-- The field `compressor` of a stage. -/
def Stage.compressor {κ : Type} : Stage κ → Option κ
  | .compress compressor | .decompReduceComp _ compressor => compressor
  | _ => none

inductive InPlaceLayout where
  | none
  | sameBuffer
  | inputRankChunk
  | outputRankChunk
  deriving DecidableEq, Repr

inductive InputLayout where
  | contiguous
  | hierarchicalSwizzle
  deriving DecidableEq, Repr

/-- What a primitive submits. `input` and `output` are addresses, `0` the null pointer;
`rawChunkCount` is the unsliced element count of one rank chunk. -/
structure PipelineSpec (κ : Type) where
  input : ℕ
  output : ℕ
  rawChunkCount : ℕ
  inputChunks : ℕ
  datatype : DataType
  ownerComm : Comm
  stages : List (Stage κ)
  inPlaceLayout : InPlaceLayout
  inputLayout : InputLayout
  deriving DecidableEq

/-! ## Plans -/

inductive TempRole where
  | inputStaging
  | compressOutput
  | allToAllOutput
  | allGatherOutput
  | decompReduceCompOutput
  | decompressReduceOutput
  | reduceScatterOutput
  | outputStaging
  deriving DecidableEq, Repr, Inhabited

inductive WorkspaceKind where
  | unified
  | split
  deriving DecidableEq, Repr, Inhabited

inductive TempStorage where
  | registeredArena
  | rawRing
  deriving DecidableEq, Repr, Inhabited

/-- One temporary of a pipeline: its sizes, and where the workspace puts it. -/
structure TempPlan where
  role : TempRole
  offset : ℕ
  logicalBytes : ℕ
  alignedBytes : ℕ
  payloadBytes : ℕ
  frameMetadataOffset : ℕ
  frameMetadataBytes : ℕ
  frameStrideBytes : ℕ
  storage : TempStorage
  deriving DecidableEq, Repr, Inhabited

/-- The temporaries of a pipeline and the workspace that holds them. A temporary is named by its
index in `temps`; the source's `-1` is `none`. -/
structure PipelinePlan where
  workspaceKind : WorkspaceKind
  inputStagingTemp : Option ℕ
  outputStagingTemp : Option ℕ
  stageOutputTemp : List (Option ℕ)
  stageOutputCapacityBytes : List ℕ
  temps : List TempPlan
  finalChunks : ℕ
  registeredSliceBytes : ℕ
  registeredBytes : ℕ
  rawBytes : ℕ
  totalBytes : ℕ
  deriving DecidableEq, Repr, Inhabited

/-- The elements of a rank chunk one slice moves. -/
structure SliceShape where
  elementOffset : ℕ
  elementCount : ℕ
  byteOffset : ℕ
  bytes : ℕ
  deriving DecidableEq, Repr, Inhabited

/-- What a stage handler reads of the pipeline it runs in. -/
structure StageContext where
  rawSliceCount : ℕ
  rawSliceBytes : ℕ
  rawChunkBytes : ℕ
  rawDatatype : DataType
  ownerComm : Comm
  inputLayout : InputLayout
  nNodes : ℕ
  ranksPerNode : ℕ
  deriving DecidableEq

/-- A prepared pipeline. -/
structure PipelineContext (κ : Type) where
  spec : PipelineSpec κ
  depth : ℕ
  slices : List SliceShape
  sliceStageOutputBytes : List (List ℕ)
  sliceStageFrameStrideBytes : List (List ℕ)
  stageContext : StageContext
  plan : PipelinePlan
  deriving DecidableEq

end Coccl
