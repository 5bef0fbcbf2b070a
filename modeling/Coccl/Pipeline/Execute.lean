import Coccl.Foundations.Footprint
import Coccl.Foundations.Streams
import Coccl.Pipeline.Plan

/-!
# The overlapped executor

What `runOverlap` and `runFramedOverlap` enqueue, as a program on streams: one stream per phase
besides the user's, one event per phase and slice, and the events that guard the slots of the two
raw rings. What a step reads and writes is the regions the source passes to its handler, in the
user's memory, the registered workspace or the raw workspace.
-/

namespace Coccl

open Streams

/-! ## Regions -/

inductive Space where
  | user
  | registered
  | raw
  deriving DecidableEq, Repr

/-- A byte address in one of the memories. -/
abbrev Loc := Space × ℕ

/-- `bytes` consecutive locations from `start`. -/
structure Region where
  space : Space
  start : ℕ
  bytes : ℕ
  deriving DecidableEq, Repr

def Region.locs (region : Region) : Set Loc :=
  {l | l.1 = region.space ∧ region.start ≤ l.2 ∧ l.2 < region.start + region.bytes}

/-- `chunks` rows of `rowBytes` bytes, `pitchBytes` apart. -/
def rowLocs (start pitchBytes rowBytes chunks : ℕ) : Set Loc :=
  {l | l.1 = .user ∧ ∃ chunk < chunks, start + chunk * pitchBytes ≤ l.2 ∧
    l.2 < start + chunk * pitchBytes + rowBytes}

/-! ## The work of a slice -/

/-- The steps of a slice. A stage that exchanges frames is enqueued in two parts, its metadata
round and its payload round. -/
inductive Step where
  | pack
  | stage (stage : ℕ)
  | prepare (stage : ℕ)
  | commit (stage : ℕ)
  | unpack
  deriving DecidableEq, Repr

/-- Device work: a step of a slice, or what the user enqueues on its stream after the call. -/
inductive WorkOp where
  | at (slice : ℕ) (step : Step)
  | resume
  deriving DecidableEq, Repr

inductive PipelineStream where
  | user
  | phase (phase : ℕ)
  deriving DecidableEq, Repr

inductive PipelineEvent where
  | inputReady
  | phase (phase slice : ℕ)
  | inputRawConsumed (slot : ℕ)
  | outputRawConsumed (slot : ℕ)
  deriving DecidableEq, Repr

abbrev PipelineItem := Item PipelineStream PipelineEvent WorkOp

def cocclPipelinePhasePack : ℕ := 0
def cocclPipelinePhaseFirstStage : ℕ := 1
def cocclPipelinePhaseUnpack : ℕ := kCocclPipelinePhysicalStages - 1

def rawSlot (slice : ℕ) : ℕ := slice % kCocclPipelineRawRingSlots

/-- Enqueue a step on the stream of its phase. -/
def executeStage (phase slice : ℕ) (step : Step) : PipelineItem :=
  ⟨.phase phase, .work (.at slice step)⟩

def waitForPhase (phase previousPhase slice : ℕ) : PipelineItem :=
  ⟨.phase phase, .wait (.phase previousPhase slice)⟩

def recordPhase (phase slice : ℕ) : PipelineItem :=
  ⟨.phase phase, .record (.phase phase slice)⟩

def prepareItems (stage slice : ℕ) : List PipelineItem :=
  [waitForPhase (cocclPipelinePhaseFirstStage + stage)
      (cocclPipelinePhaseFirstStage + stage - 1) slice,
    executeStage (cocclPipelinePhaseFirstStage + stage) slice (.prepare stage)]

def commitItems (stage slice : ℕ) : List PipelineItem :=
  [executeStage (cocclPipelinePhaseFirstStage + stage) slice (.commit stage),
    recordPhase (cocclPipelinePhaseFirstStage + stage) slice]

namespace PipelineContext

variable {κ : Type} (context : PipelineContext κ)

/-! ## Where a slice's data lies -/

def stageCount : ℕ := context.spec.stages.length

def slice (slice : ℕ) : SliceShape := context.slices.getD slice default

def temp (tempIndex : ℕ) : TempPlan := context.plan.temps.getD tempIndex default

/-- The planned bytes of a stage's output in one slice. -/
def outputBytes (slice stage : ℕ) : ℕ :=
  (context.sliceStageOutputBytes.getD slice []).getD stage 0

/-- The temporary a stage writes, `none` for the user's buffer. -/
def outputTemp (stage : ℕ) : Option ℕ := context.plan.stageOutputTemp.getD stage none

def tempPtr (slice tempIndex : ℕ) : Loc :=
  let temp := context.temp tempIndex
  match temp.storage with
  | .rawRing => (.raw, temp.offset + slice % kCocclPipelineRawRingSlots * temp.alignedBytes)
  | .registeredArena => (.registered, slice * context.plan.registeredSliceBytes + temp.offset)

/-- Where a stage puts its payload: `stageOutput` with its planned capacity. -/
def payload (slice stage : ℕ) : Region :=
  match context.outputTemp stage with
  | some tempIndex =>
    let ptr := context.tempPtr slice tempIndex
    ⟨ptr.1, ptr.2, context.outputBytes slice stage⟩
  | none =>
    ⟨.user, context.spec.output + (context.slice slice).byteOffset,
      context.outputBytes slice stage⟩

/-- Where a stage puts the metadata of its frames, if its output has any. -/
def frameMetadata (slice stage : ℕ) : Option Region :=
  match context.outputTemp stage with
  | some tempIndex =>
    let temp := context.temp tempIndex
    let ptr := context.tempPtr slice tempIndex
    if temp.frameMetadataBytes = 0 then none
    else some ⟨ptr.1, ptr.2 + temp.frameMetadataOffset, temp.frameMetadataBytes⟩
  | none => none

def frameLocs (slice stage : ℕ) : Set Loc :=
  match context.frameMetadata slice stage with
  | some region => region.locs
  | none => ∅

def payloadLocs (slice stage : ℕ) : Set Loc := (context.payload slice stage).locs

/-- `edge.bytes` of `inputEdge`. -/
def inputBytes (slice : ℕ) : ℕ := sizeMul (context.slice slice).bytes context.spec.inputChunks

/-- The rows of the user's input a slice packs. -/
def inputRows (slice : ℕ) : Set Loc :=
  rowLocs (context.spec.input + (context.slice slice).byteOffset)
    context.stageContext.rawChunkBytes (context.slice slice).bytes context.spec.inputChunks

/-- The rows of the user's output a slice unpacks to. -/
def outputRows (slice : ℕ) : Set Loc :=
  rowLocs (context.spec.output + (context.slice slice).byteOffset)
    context.stageContext.rawChunkBytes (context.slice slice).bytes context.plan.finalChunks

/-- Where the pack step leaves the slice's input. -/
def packedInput (slice tempIndex : ℕ) : Region :=
  let ptr := context.tempPtr slice tempIndex
  ⟨ptr.1, ptr.2, context.inputBytes slice⟩

/-- What the first stage reads: the packed input, or the user's input itself. -/
def stageInput (slice : ℕ) : Set Loc :=
  match context.plan.inputStagingTemp with
  | some tempIndex => (context.packedInput slice tempIndex).locs
  | none =>
    Region.locs ⟨.user, context.spec.input + (context.slice slice).byteOffset,
      context.inputBytes slice⟩

/-- What the unpack step reads: one contiguous row per chunk of the last stage's output. -/
def unpackSource (slice : ℕ) : Region :=
  let edge := context.payload slice (context.stageCount - 1)
  ⟨edge.space, edge.start, context.plan.finalChunks * (context.slice slice).bytes⟩

/-! ## Footprints -/

/-- What a step reads. -/
def stepReads (slice : ℕ) : Step → Set Loc
  | .pack => context.inputRows slice
  | .stage 0 => context.stageInput slice
  | .stage (stage + 1) => context.payloadLocs slice stage ∪ context.frameLocs slice stage
  | .prepare stage => context.frameLocs slice (stage - 1)
  | .commit stage =>
    context.payloadLocs slice (stage - 1) ∪ context.frameLocs slice (stage - 1) ∪
      context.frameLocs slice stage
  | .unpack => (context.unpackSource slice).locs

/-- What a step writes. -/
def stepWrites (slice : ℕ) : Step → Set Loc
  | .pack =>
    match context.plan.inputStagingTemp with
    | some tempIndex => (context.packedInput slice tempIndex).locs
    | none => ∅
  | .stage stage => context.payloadLocs slice stage ∪ context.frameLocs slice stage
  | .prepare stage => context.frameLocs slice stage
  | .commit stage => context.payloadLocs slice stage
  | .unpack => context.outputRows slice

def reads : WorkOp → Set Loc
  | .at slice step => context.stepReads slice step
  | .resume => ∅

def writes : WorkOp → Set Loc
  | .at slice step => context.stepWrites slice step
  | .resume => ∅

/-! ## The enqueued program -/

def stagesInput : Bool := context.plan.inputStagingTemp.isSome
def stagesOutput : Bool := context.plan.outputStagingTemp.isSome

def reusesInputRaw : Bool := context.plan.workspaceKind = .split ∧ context.stagesInput
def reusesOutputRaw : Bool := context.plan.workspaceKind = .split ∧ context.stagesOutput

def finalStagePhase : ℕ := cocclPipelinePhaseFirstStage + context.stageCount - 1

/-- The hand-over from the user's stream. -/
def startItems : List PipelineItem :=
  [⟨.user, .record .inputReady⟩,
    ⟨.phase (if context.stagesInput then cocclPipelinePhasePack else cocclPipelinePhaseFirstStage),
      .wait .inputReady⟩]

def packItems (slice : ℕ) : List PipelineItem :=
  if context.stagesInput then
    (if context.reusesInputRaw ∧ kCocclPipelineRawRingSlots ≤ slice then
      [⟨.phase cocclPipelinePhasePack, .wait (.inputRawConsumed (rawSlot slice))⟩] else []) ++
    [executeStage cocclPipelinePhasePack slice .pack, recordPhase cocclPipelinePhasePack slice]
  else []

/-- The wait for the ring slot of the staged output. -/
def outputSlotItems (slice stage : ℕ) : List PipelineItem :=
  if context.reusesOutputRaw ∧ stage + 1 = context.stageCount ∧
      kCocclPipelineRawRingSlots ≤ slice then
    [⟨.phase (cocclPipelinePhaseFirstStage + stage), .wait (.outputRawConsumed (rawSlot slice))⟩]
  else []

/-- The record that releases the ring slot of the staged input. -/
def inputSlotItems (slice stage : ℕ) : List PipelineItem :=
  if context.reusesInputRaw ∧ stage = 0 then
    [⟨.phase (cocclPipelinePhaseFirstStage + stage), .record (.inputRawConsumed (rawSlot slice))⟩]
  else []

/-- The wait for the phase before a stage's. -/
def phaseWaitItems (slice stage : ℕ) : List PipelineItem :=
  if stage ≠ 0 ∨ context.stagesInput then
    [waitForPhase (cocclPipelinePhaseFirstStage + stage)
      (cocclPipelinePhaseFirstStage + stage - 1) slice]
  else []

/-- One round of the stage loop of `runOverlap`. -/
def stageItems (slice stage : ℕ) : List PipelineItem :=
  context.phaseWaitItems slice stage ++ context.outputSlotItems slice stage ++
  [executeStage (cocclPipelinePhaseFirstStage + stage) slice (.stage stage)] ++
  context.inputSlotItems slice stage ++
  [recordPhase (cocclPipelinePhaseFirstStage + stage) slice]

def unpackItems (slice : ℕ) : List PipelineItem :=
  if context.stagesOutput then
    [waitForPhase cocclPipelinePhaseUnpack context.finalStagePhase slice,
      executeStage cocclPipelinePhaseUnpack slice .unpack] ++
    (if context.reusesOutputRaw then
      [⟨.phase cocclPipelinePhaseUnpack, .record (.outputRawConsumed (rawSlot slice))⟩]
    else []) ++
    (if slice + 1 = context.depth then [recordPhase cocclPipelinePhaseUnpack slice] else [])
  else []

/-- The user's stream waits for the last slice, then goes on. -/
def completionItems : List PipelineItem :=
  [⟨.user, .wait (.phase
      (if context.stagesOutput then cocclPipelinePhaseUnpack else context.finalStagePhase)
      (context.depth - 1))⟩,
    ⟨.user, .work .resume⟩]

/-- The slices one after another, each through all its phases. -/
def runOverlap : List PipelineItem :=
  context.startItems ++
  (List.range context.depth).flatMap (fun slice =>
    context.packItems slice ++
    (List.range context.stageCount).flatMap (context.stageItems slice) ++
    context.unpackItems slice) ++
  context.completionItems

/-- Whether a stage of the framed run exchanges frames, from the edge the stage before it left in
the first slice. -/
def usesFrameExchange : ℕ → Bool
  | 0 => false
  | stage + 1 =>
    (context.frameMetadata 0 stage).isSome &&
      match context.spec.stages[stage + 1]? with
      | some (.allToAll _) | some (.allGather _) => true
      | _ => false

/-- The first stage of a slice in `runFramedOverlap`. -/
def firstStageItems (slice : ℕ) : List PipelineItem :=
  context.phaseWaitItems slice 0 ++
  [executeStage cocclPipelinePhaseFirstStage slice (.stage 0)] ++
  context.inputSlotItems slice 0 ++ [recordPhase cocclPipelinePhaseFirstStage slice]

/-- A later stage of a slice that exchanges no frames, with the unpack after the last one. -/
def laterStageItems (stage slice : ℕ) : List PipelineItem :=
  context.phaseWaitItems slice stage ++ context.outputSlotItems slice stage ++
  [executeStage (cocclPipelinePhaseFirstStage + stage) slice (.stage stage),
    recordPhase (cocclPipelinePhaseFirstStage + stage) slice] ++
  (if stage + 1 = context.stageCount then context.unpackItems slice else [])

/-- One round of the stage loop of `runFramedOverlap`; the exchange of frames enqueues all
metadata rounds first. -/
def framedStageItems (stage : ℕ) : List PipelineItem :=
  if context.usesFrameExchange stage then
    (List.range context.depth).flatMap (prepareItems stage) ++
    (List.range context.depth).flatMap (commitItems stage)
  else (List.range context.depth).flatMap (context.laterStageItems stage)

/-- The stages one after another, each over all slices. -/
def runFramedOverlap : List PipelineItem :=
  context.startItems ++
  (List.range context.depth).flatMap (fun slice =>
    context.packItems slice ++ context.firstStageItems slice) ++
  (List.range' 1 (context.stageCount - 1)).flatMap context.framedStageItems ++
  context.completionItems

end PipelineContext

section

variable {κ : Type} (plugins : κ → Plugin)

def pipelineUsesFramedCompressor (spec : PipelineSpec κ) : Bool :=
  spec.stages.any fun stage => cocclCompressorSupports plugins stage.compressor .framed

/-- What `cocclRunPipelineWithDepth` enqueues for a pipeline of depth two or more, with the user's
next work after it. -/
def overlapProgram (context : PipelineContext κ) : List PipelineItem :=
  if pipelineUsesFramedCompressor plugins context.spec then context.runFramedOverlap
  else context.runOverlap

end

end Coccl
