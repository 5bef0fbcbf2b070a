import Coccl.Pipeline.Spec

/-!
# The pipeline planner

`cocclPreparePipeline` and what it calls, translated function by function: the chunk counts along
the stages, the test for user buffers that force a serial run, the slicing of a rank chunk, the
logical plan of one slice, and the two workspace layouts.
-/

namespace Coccl

/-! ## Workspace layouts -/

def boundaryTemp (plan : PipelinePlan) (temp : ℕ) : Bool :=
  plan.inputStagingTemp = some temp ∨ plan.outputStagingTemp = some temp

/-- The running maximum of the sums of adjacent sizes, from a previous size on. -/
def adjacentBytes (previous : ℕ) : List ℕ → ℕ → Option ℕ
  | [], sliceBytes => some sliceBytes
  | bytes :: rest, sliceBytes => do
    let adjacent ← cocclPipelineCheckedAdd previous bytes
    adjacentBytes bytes rest (max sliceBytes adjacent)

/-- Bytes of one slice's arena: the first size, or the largest sum of two adjacent ones. -/
def arenaSliceBytes : List ℕ → Option ℕ
  | [] => some 0
  | bytes :: rest => adjacentBytes bytes rest bytes

/-- The arena offset of the temporary at a position: even ones from the bottom, odd ones against
the top. -/
def arenaOffset (sliceBytes position alignedBytes : ℕ) : ℕ :=
  if position % 2 = 0 then 0 else sliceBytes - alignedBytes

/-- Put the temporaries in the arena, alternating between its ends. -/
def placeUnified (sliceBytes : ℕ) : ℕ → List TempPlan → List TempPlan
  | _, [] => []
  | temp, item :: rest =>
    { item with
      storage := .registeredArena
      offset := arenaOffset sliceBytes temp item.alignedBytes } ::
    placeUnified sliceBytes (temp + 1) rest

def buildUnifiedWorkspace (logical : PipelinePlan) (depth : ℕ) : Option PipelinePlan := do
  let sliceBytes ← arenaSliceBytes (logical.temps.map (·.alignedBytes))
  let registeredBytes ← cocclPipelineCheckedMultiply sliceBytes depth
  some { logical with
    workspaceKind := .unified
    registeredSliceBytes := sliceBytes
    rawBytes := 0
    temps := placeUnified sliceBytes 0 logical.temps
    registeredBytes := registeredBytes
    totalBytes := registeredBytes }

/-- Append a boundary temporary's ring to the raw workspace. -/
def placeRing (plan : PipelinePlan) : Option ℕ → Option PipelinePlan
  | none => some plan
  | some temp => do
    let item := plan.temps.getD temp default
    let ringBytes ← cocclPipelineCheckedMultiply item.alignedBytes kCocclPipelineRawRingSlots
    let rawBytes ← cocclPipelineCheckedAdd plan.rawBytes ringBytes
    some { plan with
      temps := plan.temps.set temp { item with storage := .rawRing, offset := plan.rawBytes }
      rawBytes := rawBytes }

/-- Put the temporaries that are not boundary ones in the arena, alternating by their own
positions. -/
def placeCore (boundary : ℕ → Bool) (sliceBytes : ℕ) : ℕ → ℕ → List TempPlan → List TempPlan
  | _, _, [] => []
  | temp, corePosition, item :: rest =>
    if boundary temp then
      item :: placeCore boundary sliceBytes (temp + 1) corePosition rest
    else
      { item with
        storage := .registeredArena
        offset := arenaOffset sliceBytes corePosition item.alignedBytes } ::
      placeCore boundary sliceBytes (temp + 1) (corePosition + 1) rest

/-- The aligned sizes of the temporaries that are not boundary ones. -/
def coreBytes (boundary : ℕ → Bool) : ℕ → List TempPlan → List ℕ
  | _, [] => []
  | temp, item :: rest =>
    if boundary temp then coreBytes boundary (temp + 1) rest
    else item.alignedBytes :: coreBytes boundary (temp + 1) rest

def buildSplitWorkspace (logical : PipelinePlan) (depth : ℕ) : Option PipelinePlan := do
  let withInput ← placeRing { logical with
    workspaceKind := .split, registeredSliceBytes := 0, registeredBytes := 0, rawBytes := 0 }
    logical.inputStagingTemp
  let candidate ← placeRing withInput logical.outputStagingTemp
  let core := coreBytes (boundaryTemp candidate) 0 candidate.temps
  if core = [] then none
  else
    let sliceBytes ← arenaSliceBytes core
    let registeredBytes ← cocclPipelineCheckedMultiply sliceBytes depth
    let totalBytes ← cocclPipelineCheckedAdd registeredBytes candidate.rawBytes
    some { candidate with
      registeredSliceBytes := sliceBytes
      temps := placeCore (boundaryTemp candidate) sliceBytes 0 0 candidate.temps
      registeredBytes := registeredBytes
      totalBytes := totalBytes }

/-- The split layout where it is strictly smaller, or the only one that fits. -/
def cocclPlanPipelineWorkspace (plan : PipelinePlan) (depth : ℕ) : Result PipelinePlan :=
  match buildUnifiedWorkspace plan depth, buildSplitWorkspace plan depth with
  | none, none => .error .invalidArgument
  | some unified, none => .ok unified
  | none, some split => .ok split
  | some unified, some split =>
    .ok (if split.totalBytes < unified.totalBytes then split else unified)

/-! ## The logical plan of one slice -/

def outputRole {κ : Type} : Stage κ → TempRole
  | .compress _ => .compressOutput
  | .allToAll _ => .allToAllOutput
  | .allGather _ => .allGatherOutput
  | .decompReduceComp _ _ => .decompReduceCompOutput
  | .decompressReduce _ => .decompressReduceOutput
  | .reduceScatter _ => .reduceScatterOutput
  | .decompress | .pack | .unpack => .outputStaging

/-- The shape of the data between two stages, as planned. -/
structure PlannedEdge (κ : Type) where
  bytes : ℕ
  totalElements : ℕ
  datatype : DataType
  logicalChunks : ℕ
  compressor : Option κ
  framed : Bool
  frameStrideBytes : ℕ
  deriving DecidableEq

section

variable {κ : Type} [DecidableEq κ] (plugins : κ → Plugin)

/-- Offset and bytes of an edge's frame metadata behind its payload, and the bytes of both. -/
def frameSizes (edge : PlannedEdge κ) : Result (ℕ × ℕ × ℕ) :=
  if edge.framed then do
    let metadataOffset ← orInvalid (cocclAlignPipelineBytes edge.bytes)
    let metadataBytes ←
      orInvalid (cocclPipelineCheckedMultiply edge.logicalChunks frameMetadataSize)
    let logicalBytes ← orInvalid (cocclPipelineCheckedAdd metadataOffset metadataBytes)
    pure (metadataOffset, metadataBytes, logicalBytes)
  else pure (0, 0, edge.bytes)

/-- A temporary for `edge`, not placed yet. -/
def newTemp (role : TempRole) (edge : PlannedEdge κ) : Result TempPlan := do
  let sizes ← frameSizes edge
  let alignedBytes ← orInvalid (cocclAlignPipelineBytes sizes.2.2)
  pure
    { role := role
      offset := 0
      logicalBytes := sizes.2.2
      alignedBytes := alignedBytes
      payloadBytes := edge.bytes
      frameMetadataOffset := sizes.1
      frameMetadataBytes := sizes.2.1
      frameStrideBytes := edge.frameStrideBytes
      storage := .registeredArena }

/-- Append the temporary; its index is the count before. -/
def addTemp (plan : PipelinePlan) (role : TempRole) (edge : PlannedEdge κ) :
    Result (PipelinePlan × ℕ) := do
  let temp ← newTemp role edge
  pure ({ plan with temps := plan.temps ++ [temp] }, plan.temps.length)

def planRawEdge (datatype : DataType) (slice : SliceShape) (chunks : ℕ) :
    Result (PlannedEdge κ) := do
  let totalElements ← orInvalid (cocclPipelineCheckedMultiply slice.elementCount chunks)
  let bytes ← orInvalid (cocclPipelineCheckedMultiply slice.bytes chunks)
  pure ⟨bytes, totalElements, datatype, chunks, none, false, 0⟩

def queryEncodedBound (compressor : Option κ) (operation : CompressorOperation)
    (rawShape : PlannedEdge κ) : Result ℕ :=
  cocclGetCompressorEncodedSizeBound plugins compressor
    ⟨operation, rawShape.totalElements, rawShape.logicalChunks, rawShape.datatype⟩

/-- The bytes planned for a decompress-reduce-compress stage that is not framed: the generic
bound, raised to the fused one where the fused path may be taken and fits the raw size. -/
def plannedReduceCompressBytes (input : PlannedEdge κ) (compressor : Option κ)
    (rawOutput : PlannedEdge κ) (genericBytes : ℕ) : Result ℕ := do
  let plannedBytes := min genericBytes rawOutput.bytes
  if input.compressor = compressor ∧
      cocclCompressorSupports plugins compressor .decompressReduceCompress then do
    let fusedBytes ← queryEncodedBound plugins compressor .decompressReduceCompress rawOutput
    pure (if fusedBytes ≤ rawOutput.bytes ∧ plannedBytes < fusedBytes then fusedBytes
      else plannedBytes)
  else pure plannedBytes

def planStageOutput (datatype : DataType) (slice : SliceShape) (stage : Stage κ)
    (outputChunks : ℕ) (input : PlannedEdge κ) : Result (PlannedEdge κ) :=
  match stage with
  | .compress compressor => do
    let framed := cocclCompressorSupports plugins compressor .framed
    let bound ← queryEncodedBound plugins compressor .compress input
    let encodedBytes := if !framed ∧ input.bytes < bound then input.bytes else bound
    pure ⟨encodedBytes, encodedBytes, .int8, outputChunks, compressor, framed,
      if framed then encodedBytes / input.logicalChunks else 0⟩
  | .allToAll _ | .pack | .unpack => pure { input with logicalChunks := outputChunks }
  | .allGather comm => do
    let bytes ← orInvalid (cocclPipelineCheckedMultiply input.bytes comm.nRanks)
    let totalElements ← orInvalid (cocclPipelineCheckedMultiply input.totalElements comm.nRanks)
    pure { input with
      bytes := bytes, totalElements := totalElements, logicalChunks := outputChunks }
  | .decompReduceComp _ compressor => do
    let rawOutput ← planRawEdge datatype slice outputChunks
    let genericBytes ← queryEncodedBound plugins compressor .compress rawOutput
    let plannedBytes ←
      plannedReduceCompressBytes plugins input compressor rawOutput genericBytes
    let framed := cocclCompressorSupports plugins compressor .framed
    let bytes := if framed then genericBytes else plannedBytes
    pure ⟨bytes, bytes, .int8, outputChunks, compressor, framed,
      if framed then genericBytes / rawOutput.logicalChunks else 0⟩
  | .decompressReduce _ | .decompress | .reduceScatter _ => planRawEdge datatype slice outputChunks

/-- One round of the loop over the stages: plan the output and give it a temporary unless it goes
to the user's buffer. -/
def planStage (datatype : DataType) (slice : SliceShape) (depth : ℕ) (stage : Stage κ)
    (outputChunks : ℕ) (finalStage : Bool) (plan : PipelinePlan) (edge : PlannedEdge κ) :
    Result (PipelinePlan × PlannedEdge κ) := do
  let output ← planStageOutput plugins datatype slice stage outputChunks edge
  let plan := { plan with
    stageOutputCapacityBytes := plan.stageOutputCapacityBytes ++ [output.bytes] }
  if finalStage then
    if 1 < depth ∧ 1 < output.logicalChunks then do
      let added ← addTemp plan .outputStaging output
      pure ({ added.1 with
        outputStagingTemp := some added.2
        stageOutputTemp := plan.stageOutputTemp ++ [some added.2] }, output)
    else pure ({ plan with stageOutputTemp := plan.stageOutputTemp ++ [none] }, output)
  else do
    let added ← addTemp plan (outputRole stage) output
    pure ({ added.1 with stageOutputTemp := plan.stageOutputTemp ++ [some added.2] }, output)

/-- The loop over the stages, each with its output chunks. -/
def planStages (datatype : DataType) (slice : SliceShape) (depth : ℕ) :
    List (Stage κ × ℕ) → PipelinePlan → PlannedEdge κ → Result (PipelinePlan × PlannedEdge κ)
  | [], plan, edge => pure (plan, edge)
  | (stage, outputChunks) :: rest, plan, edge => do
    let planned ←
      planStage plugins datatype slice depth stage outputChunks rest.isEmpty plan edge
    planStages datatype slice depth rest planned.1 planned.2

/-- The empty plan, with the staged input where the first stage needs packed rows. -/
def planInputStaging (spec : PipelineSpec κ) (depth : ℕ) (inputLayout : InputLayout)
    (edge : PlannedEdge κ) : Result PipelinePlan :=
  if 1 < spec.inputChunks ∧ (1 < depth ∨ inputLayout = .hierarchicalSwizzle) then do
    let added ← addTemp (default : PipelinePlan) .inputStaging edge
    pure { added.1 with inputStagingTemp := some added.2 }
  else pure default

def buildLogicalPlan (spec : PipelineSpec κ) (depth : ℕ) (inputLayout : InputLayout)
    (stageChunks : List ℕ) (slice : SliceShape) : Result PipelinePlan := do
  let edge ← planRawEdge spec.datatype slice spec.inputChunks
  let plan ← planInputStaging spec depth inputLayout edge
  let planned ←
    planStages plugins spec.datatype slice depth (spec.stages.zip stageChunks) plan edge
  pure { planned.1 with finalChunks := planned.2.logicalChunks }

end

/-- Raise the target's sizes to the source's, temporary by temporary. -/
def mergeLogicalPlan (source target : PipelinePlan) : PipelinePlan :=
  { target with
    stageOutputCapacityBytes :=
      List.zipWith max target.stageOutputCapacityBytes source.stageOutputCapacityBytes
    temps := List.zipWith
      (fun mine theirs => if mine.payloadBytes < theirs.payloadBytes then theirs else mine)
      target.temps source.temps }

/-! ## Preparing a pipeline -/

def cocclPipelineUserBuffersRequireSerial (input inputChunks output outputChunks rawChunkBytes
    rank : ℕ) (inPlaceLayout : InPlaceLayout) : Result Bool := do
  let inputBytes ← orInvalid (cocclPipelineCheckedMultiply rawChunkBytes inputChunks)
  let outputBytes ← orInvalid (cocclPipelineCheckedMultiply rawChunkBytes outputChunks)
  if sizeMax - input < inputBytes ∨ sizeMax - output < outputBytes then
    .error .invalidArgument
  else if output + outputBytes ≤ input ∨ input + inputBytes ≤ output then pure false
  else
    match inPlaceLayout with
    | .none => pure true
    | .sameBuffer => pure !(inputChunks = outputChunks ∧ input = output : Bool)
    | .inputRankChunk =>
      if outputChunks ≤ rank then .error .invalidArgument
      else do
        let rankOffset ← orInvalid (cocclPipelineCheckedMultiply rawChunkBytes rank)
        if sizeMax - output < rankOffset then .error .invalidArgument
        else pure !(inputChunks = 1 ∧ input = output + rankOffset : Bool)
    | .outputRankChunk =>
      if inputChunks ≤ rank then .error .invalidArgument
      else do
        let rankOffset ← orInvalid (cocclPipelineCheckedMultiply rawChunkBytes rank)
        if sizeMax - input < rankOffset then .error .invalidArgument
        else pure !(outputChunks = 1 ∧ output = input + rankOffset : Bool)

def cocclPipelineStageOutputChunks {κ : Type} (stage : Stage κ) (inputChunks : ℕ) : Result ℕ :=
  match stage with
  | .compress _ | .allToAll _ | .decompress | .pack | .unpack => .ok inputChunks
  | .allGather comm => orInvalid (cocclPipelineCheckedMultiply inputChunks comm.nRanks)
  | .decompReduceComp reduceChunks _ | .decompressReduce reduceChunks =>
    if reduceChunks = 0 ∨ inputChunks % reduceChunks ≠ 0 then .error .invalidArgument
    else .ok (inputChunks / reduceChunks)
  | .reduceScatter comm => .ok (inputChunks / comm.nRanks)

/-- The chunk count after each stage. -/
def stageChunks {κ : Type} : List (Stage κ) → ℕ → Result (List ℕ)
  | [], _ => pure []
  | stage :: rest, chunks => do
    let output ← cocclPipelineStageOutputChunks stage chunks
    let outputs ← stageChunks rest output
    pure (output :: outputs)

/-- Slices asked for, before the user buffers are looked at. -/
def pipelineDepth (requestedDepth : ℤ) (rawChunkCount : ℕ) : ℕ :=
  let depth := if 1 < requestedDepth then requestedDepth.toNat else 1
  if kCocclPipelineMaxDepth < depth then 1
  else if rawChunkCount < depth then rawChunkCount
  else depth

def sliceShape (rawChunkCount depth typeBytes slice : ℕ) : Result SliceShape := do
  let elementOffset := slice * (rawChunkCount / depth)
  let elementCount := rawChunkCount / depth +
    (if slice + 1 = depth then rawChunkCount % depth else 0)
  let byteOffset ← orInvalid (cocclPipelineCheckedMultiply elementOffset typeBytes)
  let bytes ← orInvalid (cocclPipelineCheckedMultiply elementCount typeBytes)
  pure ⟨elementOffset, elementCount, byteOffset, bytes⟩

/-- The stride a slice's plan gives each stage's output. -/
def stageFrameStrides (plan : PipelinePlan) : List ℕ :=
  plan.stageOutputTemp.map fun
    | none => 0
    | some temp => (plan.temps.getD temp default).frameStrideBytes

section

variable {κ : Type} [DecidableEq κ] (plugins : κ → Plugin)

/-- The input layout the pack step still has to produce. -/
def plannedInputLayout (spec : PipelineSpec κ) : InputLayout :=
  match spec.inputLayout, spec.stages with
  | .contiguous, _ => .contiguous
  | .hierarchicalSwizzle, .compress compressor :: _ =>
    if cocclCompressorSupports plugins compressor .fusedHierarchicalSwizzle then .contiguous
    else .hierarchicalSwizzle
  | .hierarchicalSwizzle, _ => .hierarchicalSwizzle

/-- The slice with the most elements, the first of equals. -/
def maxSlice (slices : List SliceShape) : SliceShape :=
  slices.foldl (fun best shape => if best.elementCount < shape.elementCount then shape else best)
    default

/-- The plan of the last slice, built anew only where its element count differs. -/
def tailPlan (spec : PipelineSpec κ) (depth : ℕ) (inputLayout : InputLayout)
    (chunks : List ℕ) (first last : SliceShape) (regular : PipelinePlan) : Result PipelinePlan :=
  if last.elementCount ≠ first.elementCount then
    buildLogicalPlan plugins spec depth inputLayout chunks last
  else pure regular

def cocclPreparePipeline (spec : PipelineSpec κ) (requestedDepth : ℤ) :
    Result (PipelineContext κ) :=
  if spec.input = 0 ∨ spec.output = 0 ∨ spec.rawChunkCount = 0 ∨ spec.inputChunks = 0 ∨
      spec.stages = [] ∨ kCocclPipelineExplicitStages < spec.stages.length ∨
      ncclTypeSize spec.datatype ≤ 0 then
    .error .invalidArgument
  else do
    let typeBytes := (ncclTypeSize spec.datatype).toNat
    let rawChunkBytes ← orInvalid (cocclPipelineCheckedMultiply spec.rawChunkCount typeBytes)
    let chunks ← stageChunks spec.stages spec.inputChunks
    let requireSerial ← cocclPipelineUserBuffersRequireSerial spec.input spec.inputChunks
      spec.output (chunks.getLastD spec.inputChunks) rawChunkBytes spec.ownerComm.rank
      spec.inPlaceLayout
    let depth := if requireSerial then 1 else pipelineDepth requestedDepth spec.rawChunkCount
    let slices ← (List.range depth).mapM (sliceShape spec.rawChunkCount depth typeBytes)
    let inputLayout := plannedInputLayout plugins spec
    let swizzled := inputLayout = .hierarchicalSwizzle
    let first := slices.headD default
    let last := slices.getLastD default
    let regular ← buildLogicalPlan plugins spec depth inputLayout chunks first
    let tail ← tailPlan plugins spec depth inputLayout chunks first last regular
    let logical :=
      if last.elementCount ≠ first.elementCount then mergeLogicalPlan tail regular else regular
    let slicePlans := (List.range depth).map fun slice =>
      if slice + 1 = depth then tail else regular
    let plan ← cocclPlanPipelineWorkspace logical depth
    pure
      { spec := spec
        depth := depth
        slices := slices
        sliceStageOutputBytes := slicePlans.map (·.stageOutputCapacityBytes)
        sliceStageFrameStrideBytes := slicePlans.map stageFrameStrides
        stageContext :=
          { rawSliceCount := (maxSlice slices).elementCount
            rawSliceBytes := (maxSlice slices).bytes
            rawChunkBytes := rawChunkBytes
            rawDatatype := spec.datatype
            ownerComm := spec.ownerComm
            inputLayout := inputLayout
            nNodes :=
              if swizzled then spec.ownerComm.nRanks / spec.ownerComm.localRanks else 1
            ranksPerNode := if swizzled then spec.ownerComm.localRanks else 1 }
        plan := plan }

end

end Coccl
