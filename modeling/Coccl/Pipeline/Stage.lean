import Coccl.Compression.Execute
import Coccl.Pipeline.Regions

/-!
# The stage handlers

What the handlers of the pipeline stages do to the edge of one slice, by its sizes and addresses,
and the check against overlapping buffers in front of them. The serial and the two overlapped
executors differ only in how slices and streams interleave. The calls to NCCL are taken to succeed.
-/

namespace Coccl

/-! ## Edges -/

/-- The data between two stages. Pointers are addresses; `none` is the null pointer of
`frameMetadata`. -/
structure PipelineEdge (κ : Type) where
  ptr : ℕ
  bytes : ℕ
  totalElements : ℕ
  datatype : DataType
  logicalChunks : ℕ
  compressor : Option κ
  frameMetadata : Option ℕ
  frameStrideBytes : ℕ

structure StageOutput where
  ptr : ℕ
  capacityBytes : ℕ
  frameMetadata : Option ℕ
  frameStrideBytes : ℕ

/-- Where the workspace lies: the two buffers a pipeline acquires, apart from each other and from
the user's buffers, and none of them across the end of the address space. The user's output holds
a rank chunk at least. -/
structure PipelineWorkspace {κ : Type} (context : PipelineContext κ) where
  registeredBase : ℕ
  rawBase : ℕ
  registered_end : registeredBase + context.plan.registeredBytes ≤ sizeMax
  raw_end : rawBase + context.plan.rawBytes ≤ sizeMax
  workspaces : registeredBase + context.plan.registeredBytes ≤ rawBase ∨
    rawBase + context.plan.rawBytes ≤ registeredBase
  input_apart : ∀ base bytes, (base, bytes) = (registeredBase, context.plan.registeredBytes) ∨
      (base, bytes) = (rawBase, context.plan.rawBytes) →
    base + bytes ≤ context.spec.input ∨
      context.spec.input + context.stageContext.rawChunkBytes * context.spec.inputChunks ≤ base
  output_end : context.spec.output +
    context.stageContext.rawChunkBytes * max 1 context.plan.finalChunks ≤ sizeMax
  output_apart : ∀ base bytes, (base, bytes) = (registeredBase, context.plan.registeredBytes) ∨
      (base, bytes) = (rawBase, context.plan.rawBytes) →
    base + bytes ≤ context.spec.output ∨
      context.spec.output +
        context.stageContext.rawChunkBytes * max 1 context.plan.finalChunks ≤ base

def PipelineWorkspace.base {κ : Type} {context : PipelineContext κ}
    (workspace : PipelineWorkspace context) : Space → ℕ
  | .user => 0
  | .registered => workspace.registeredBase
  | .raw => workspace.rawBase

def PipelineWorkspace.address {κ : Type} {context : PipelineContext κ}
    (workspace : PipelineWorkspace context) (loc : Loc) : ℕ := workspace.base loc.1 + loc.2

def buffersOverlap (first firstBytes second secondBytes : ℕ) : Bool :=
  first < sizeAdd second secondBytes ∧ second < sizeAdd first firstBytes

section

variable {κ : Type} [DecidableEq κ] (plugins : κ → Plugin) (runtime : CompressorRuntime κ)
  (framesValid : Stage κ → PipelineEdge κ → Bool)

/-- The edge as a compressor's input. -/
def PipelineEdge.view (edge : PipelineEdge κ) : CompressorView :=
  ⟨edge.ptr, edge.bytes, edge.bytes, edge.totalElements, edge.logicalChunks, edge.datatype,
    edge.frameMetadata, edge.frameStrideBytes⟩

/-- The edge a compressor call leaves. -/
def edgeOfView (view : CompressorView) (compressor : Option κ) (frameMetadata : Option ℕ)
    (frameStrideBytes : ℕ) : PipelineEdge κ :=
  ⟨view.data, view.bytes, view.elements, view.datatype, view.chunks, compressor, frameMetadata,
    frameStrideBytes⟩

namespace StageHandler

def runCompress (compressor : Option κ) (edge : PipelineEdge κ) (output : StageOutput) :
    Result (PipelineEdge κ) := do
  let encoded ← runtime.ncclCompress compressor edge.view
    ⟨output.ptr, output.capacityBytes, 0, 0, edge.logicalChunks, .int8, output.frameMetadata,
      output.frameStrideBytes⟩
  pure (edgeOfView encoded compressor encoded.frameMetadata encoded.frameStrideBytes)

/-- The metadata round and the payload round of an exchange of frames. A frame whose metadata does
not fit its slot fails the exchange. -/
def exchangeFrames (stage : Stage κ) (edge : PipelineEdge κ) (output : StageOutput) :
    Result (PipelineEdge κ) :=
  if buffersOverlap edge.ptr edge.bytes output.ptr output.capacityBytes then .error .invalidUsage
  else if !framesValid stage edge then .error .invalidUsage
  else
    .ok { edge with
      ptr := output.ptr
      frameMetadata := output.frameMetadata
      frameStrideBytes := output.frameStrideBytes }

def runAllToAll (comm : Comm) (edge : PipelineEdge κ) (output : StageOutput) :
    Result (PipelineEdge κ) :=
  if edge.frameMetadata.isSome then
    if edge.logicalChunks = 0 ∨ edge.logicalChunks % comm.nRanks ≠ 0 then .error .invalidArgument
    else exchangeFrames framesValid (.allToAll comm) edge output
  else .ok { edge with ptr := output.ptr }

/-- The sizes after an all-gather. -/
def gathered (comm : Comm) (edge : PipelineEdge κ) : PipelineEdge κ :=
  { edge with
    bytes := sizeMul edge.bytes comm.nRanks
    totalElements := sizeMul edge.totalElements comm.nRanks
    logicalChunks := sizeMul edge.logicalChunks comm.nRanks }

def runAllGather (comm : Comm) (edge : PipelineEdge κ) (output : StageOutput) :
    Result (PipelineEdge κ) :=
  if edge.frameMetadata.isSome then
    if edge.logicalChunks = 0 ∨ sizeMax / comm.nRanks < edge.logicalChunks then
      .error .invalidArgument
    else do
      let received ← exchangeFrames framesValid (.allGather comm) edge output
      pure (gathered comm received)
  else .ok { gathered comm edge with ptr := output.ptr }

def runDecompress (context : StageContext) (edge : PipelineEdge κ) (output : StageOutput) :
    Result (PipelineEdge κ) := do
  let decoded ← runtime.ncclDecompress edge.compressor edge.view
    ⟨output.ptr, output.capacityBytes, 0, sizeMul context.rawSliceCount edge.logicalChunks,
      edge.logicalChunks, context.rawDatatype, none, 0⟩
  pure (edgeOfView decoded none none 0)

def runDecompReduceComp (context : StageContext) (reduceChunks : ℕ) (compressor : Option κ)
    (edge : PipelineEdge κ) (output : StageOutput) : Result (PipelineEdge κ) := do
  let outputChunks := edge.logicalChunks / reduceChunks
  let reductionElements ←
    orInvalid (cocclPipelineCheckedMultiply context.rawSliceCount outputChunks)
  let encoded ← runtime.ncclDecompReduceComp plugins edge.compressor compressor edge.view
    ⟨output.ptr, output.capacityBytes, 0, 0, outputChunks, .int8, output.frameMetadata,
      output.frameStrideBytes⟩
    reduceChunks context.rawDatatype reductionElements
  pure (edgeOfView encoded compressor encoded.frameMetadata encoded.frameStrideBytes)

def runDecompressReduce (context : StageContext) (reduceChunks : ℕ) (edge : PipelineEdge κ)
    (output : StageOutput) : Result (PipelineEdge κ) := do
  let outputChunks := edge.logicalChunks / reduceChunks
  let reductionElements ←
    orInvalid (cocclPipelineCheckedMultiply context.rawSliceCount outputChunks)
  let reduced ← runtime.ncclDecompressReduce plugins edge.compressor edge.view
    ⟨output.ptr, output.capacityBytes, 0, reductionElements, outputChunks, context.rawDatatype,
      none, 0⟩
    reduceChunks
  pure (edgeOfView reduced none none 0)

def runReduceScatter (context : StageContext) (comm : Comm) (edge : PipelineEdge κ)
    (output : StageOutput) : Result (PipelineEdge κ) :=
  let outputChunks := edge.logicalChunks / comm.nRanks
  let recvcount := sizeMul context.rawSliceCount outputChunks
  .ok ⟨output.ptr, sizeMul recvcount (dataTypeSize context.rawDatatype), recvcount,
    context.rawDatatype, outputChunks, none, none, 0⟩

def runPack (edge : PipelineEdge κ) (output : StageOutput) : Result (PipelineEdge κ) :=
  .ok { edge with ptr := output.ptr }

def runUnpack (edge : PipelineEdge κ) (output : StageOutput) : Result (PipelineEdge κ) :=
  .ok { edge with ptr := output.ptr }

/-- The handler table. -/
def handlers (context : StageContext) (stage : Stage κ) (edge : PipelineEdge κ)
    (output : StageOutput) : Result (PipelineEdge κ) :=
  match stage with
  | .compress compressor => runCompress runtime compressor edge output
  | .allToAll comm => runAllToAll framesValid comm edge output
  | .allGather comm => runAllGather framesValid comm edge output
  | .decompReduceComp reduceChunks compressor =>
    runDecompReduceComp plugins runtime context reduceChunks compressor edge output
  | .decompressReduce reduceChunks =>
    runDecompressReduce plugins runtime context reduceChunks edge output
  | .decompress => runDecompress runtime context edge output
  | .reduceScatter comm => runReduceScatter context comm edge output
  | .pack => runPack edge output
  | .unpack => runUnpack edge output

end StageHandler

/-- Bytes of rows that are a rank chunk apart, from the first to the last. -/
def pitchedSpan (context : StageContext) (chunks : ℕ) : ℕ :=
  sizeAdd (sizeMul (chunks - 1) context.rawChunkBytes) context.rawSliceBytes

/-- The check in front of a stage: whether its input and output meet. -/
def stageOverlaps (context : StageContext) (stage : Stage κ) (edge : PipelineEdge κ)
    (output : StageOutput) : Bool :=
  match stage with
  | .pack =>
    buffersOverlap edge.ptr (pitchedSpan context edge.logicalChunks) output.ptr edge.bytes
  | .unpack =>
    buffersOverlap edge.ptr edge.bytes output.ptr (pitchedSpan context edge.logicalChunks)
  | _ => buffersOverlap edge.ptr edge.bytes output.ptr output.capacityBytes

def cocclExecutePipelineStage (context : StageContext) (stage : Stage κ) (edge : PipelineEdge κ)
    (output : StageOutput) : Result (PipelineEdge κ) :=
  if stageOverlaps context stage edge output then .error .invalidUsage
  else StageHandler.handlers plugins runtime framesValid context stage edge output

end

/-! ## One slice -/

namespace PipelineContext

variable {κ : Type} [DecidableEq κ] (plugins : κ → Plugin) (runtime : CompressorRuntime κ)
  (framesValid : Stage κ → PipelineEdge κ → Bool) {context : PipelineContext κ}
  (workspace : PipelineWorkspace context)

def stageContextForSlice (context : PipelineContext κ) (slice : ℕ) : StageContext :=
  { context.stageContext with
    rawSliceCount := (context.slice slice).elementCount
    rawSliceBytes := (context.slice slice).bytes }

def inputEdgeOf (context : PipelineContext κ) (slice : ℕ) : PipelineEdge κ :=
  ⟨context.spec.input + (context.slice slice).byteOffset,
    sizeMul (context.slice slice).bytes context.spec.inputChunks,
    sizeMul (context.slice slice).elementCount context.spec.inputChunks,
    context.spec.datatype, context.spec.inputChunks, none, none, 0⟩

/-- The stride of a stage's frames in one slice. -/
def frameStrideBytes (context : PipelineContext κ) (slice stage : ℕ) : ℕ :=
  (context.sliceStageFrameStrideBytes.getD slice []).getD stage 0

def stageOutput (slice stage : ℕ) : StageOutput :=
  match context.outputTemp stage with
  | some tempIndex =>
    let payload := workspace.address (context.tempPtr slice tempIndex)
    let temp := context.temp tempIndex
    ⟨payload, context.outputBytes slice stage,
      if temp.frameMetadataBytes = 0 then none else some (payload + temp.frameMetadataOffset),
      context.frameStrideBytes slice stage⟩
  | none =>
    ⟨context.spec.output + (context.slice slice).byteOffset, context.outputBytes slice stage, none,
      0⟩

/-- The output of the pack step. -/
def packOutput (slice tempIndex : ℕ) : StageOutput :=
  ⟨workspace.address (context.tempPtr slice tempIndex), (context.inputEdgeOf slice).bytes, none, 0⟩

/-- The output of the unpack step. -/
def unpackOutput (context : PipelineContext κ) (slice : ℕ) (edge : PipelineEdge κ) : StageOutput :=
  ⟨context.spec.output + (context.slice slice).byteOffset, edge.bytes, none, 0⟩

/-- The edge after the pack step. -/
def packedEdge (slice : ℕ) : Result (PipelineEdge κ) :=
  match context.plan.inputStagingTemp with
  | some tempIndex =>
    cocclExecutePipelineStage plugins runtime framesValid (context.stageContextForSlice slice)
      .pack (context.inputEdgeOf slice) (packOutput workspace slice tempIndex)
  | none => .ok (context.inputEdgeOf slice)

/-- The edge after the first `stages` stages of a slice. -/
def edgeAfter (slice : ℕ) : ℕ → Result (PipelineEdge κ)
  | 0 => packedEdge plugins runtime framesValid workspace slice
  | stage + 1 => do
    let edge ← edgeAfter slice stage
    match context.spec.stages[stage]? with
    | some kind =>
      cocclExecutePipelineStage plugins runtime framesValid (context.stageContextForSlice slice)
        kind edge (stageOutput workspace slice stage)
    | none => .ok edge

end PipelineContext

end Coccl
