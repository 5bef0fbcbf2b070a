import Coccl.Pipeline.OverlapCorrect
import Coccl.Pipeline.Stage

/-!
# Pipelines that differ only in their addresses

Two ranks submit pipelines that agree in everything but the user's buffers and their own place in
the communicators (`PipelineSpec.Alike`). Then their plans agree, and for compressors of fixed size
the edges between the stages (`edgeAfter_alike`).
-/

namespace Coccl

open Checked CompressorRuntime

/-! ## Stages and plans -/

variable {κ : Type}

/-- Stages that differ only in the rank's own place in a communicator. -/
inductive Stage.Alike : Stage κ → Stage κ → Prop where
  | compress (compressor : Option κ) : Alike (.compress compressor) (.compress compressor)
  | allToAll {comm comm' : Comm} (handle : comm.handle = comm'.handle)
      (nRanks : comm.nRanks = comm'.nRanks) : Alike (.allToAll comm) (.allToAll comm')
  | allGather {comm comm' : Comm} (handle : comm.handle = comm'.handle)
      (nRanks : comm.nRanks = comm'.nRanks) : Alike (.allGather comm) (.allGather comm')
  | decompReduceComp (reduceChunks : ℕ) (compressor : Option κ) :
      Alike (.decompReduceComp reduceChunks compressor) (.decompReduceComp reduceChunks compressor)
  | decompressReduce (reduceChunks : ℕ) :
      Alike (.decompressReduce reduceChunks) (.decompressReduce reduceChunks)
  | decompress : Alike .decompress .decompress
  | reduceScatter {comm comm' : Comm} (handle : comm.handle = comm'.handle)
      (nRanks : comm.nRanks = comm'.nRanks) : Alike (.reduceScatter comm) (.reduceScatter comm')

/-- Specifications that differ only in addresses and in the rank's own place. -/
structure PipelineSpec.Alike (spec spec' : PipelineSpec κ) : Prop where
  rawChunkCount : spec.rawChunkCount = spec'.rawChunkCount
  inputChunks : spec.inputChunks = spec'.inputChunks
  datatype : spec.datatype = spec'.datatype
  stages : List.Forall₂ Stage.Alike spec.stages spec'.stages
  inPlaceLayout : spec.inPlaceLayout = spec'.inPlaceLayout
  inputLayout : spec.inputLayout = spec'.inputLayout

section

variable {stage stage' : Stage κ} {stages stages' : List (Stage κ)} {spec spec' : PipelineSpec κ}

theorem Stage.Alike.outputChunks (h : stage.Alike stage') (chunks : ℕ) :
    cocclPipelineStageOutputChunks stage chunks = cocclPipelineStageOutputChunks stage' chunks := by
  cases h <;> simp_all [cocclPipelineStageOutputChunks]

theorem Stage.Alike.compressor (h : stage.Alike stage') : stage.compressor = stage'.compressor := by
  cases h <;> rfl

theorem Stage.Alike.outputRole (h : stage.Alike stage') :
    Coccl.outputRole stage = Coccl.outputRole stage' := by
  cases h <;> rfl

theorem PipelineSpec.Alike.typeBytes (h : spec.Alike spec') : spec.typeBytes = spec'.typeBytes := by
  rw [PipelineSpec.typeBytes, h.datatype, PipelineSpec.typeBytes]

theorem stageChunks_alike (h : List.Forall₂ Stage.Alike stages stages') (chunks : ℕ) :
    stageChunks stages chunks = stageChunks stages' chunks := by
  induction h generalizing chunks with
  | nil => rfl
  | cons hstage _ ih =>
    simp only [stageChunks, hstage.outputChunks]
    congr 1
    funext output
    rw [ih]

theorem pipelineUsesFramedCompressor_alike (plugins : κ → Plugin) (h : spec.Alike spec') :
    pipelineUsesFramedCompressor plugins spec = pipelineUsesFramedCompressor plugins spec' := by
  have hany : ∀ {stages stages' : List (Stage κ)}, List.Forall₂ Stage.Alike stages stages' →
      (stages.any fun stage => cocclCompressorSupports plugins stage.compressor .framed) =
        stages'.any fun stage => cocclCompressorSupports plugins stage.compressor .framed := by
    intro stages stages' hstages
    induction hstages with
    | nil => rfl
    | cons hstage _ ih => simp only [List.any_cons, hstage.compressor, ih]
  exact hany h.stages

theorem plannedInputLayout_alike (plugins : κ → Plugin) (h : spec.Alike spec') :
    plannedInputLayout plugins spec = plannedInputLayout plugins spec' := by
  have hstages := h.stages
  unfold plannedInputLayout
  rw [h.inputLayout]
  cases hstages' : spec.stages with
  | nil =>
    rw [hstages'] at hstages
    rw [List.forall₂_nil_left_iff.mp hstages]
  | cons stage rest =>
    rw [hstages'] at hstages
    obtain ⟨stage', rest', hstage, -, hspec'⟩ := List.forall₂_cons_left_iff.mp hstages
    rw [hspec']
    cases hstage <;> cases spec'.inputLayout <;> rfl

variable [DecidableEq κ] (plugins : κ → Plugin)

theorem planStageOutput_alike (h : stage.Alike stage') (datatype : DataType) (slice : SliceShape) :
    planStageOutput plugins datatype slice stage =
      planStageOutput plugins datatype slice stage' := by
  funext chunks input
  cases h <;> simp_all [planStageOutput]

theorem planStages_alike (h : List.Forall₂ Stage.Alike stages stages') (datatype : DataType)
    (slice : SliceShape) (depth : ℕ) (chunks : List ℕ) :
    planStages plugins datatype slice depth (stages.zip chunks) =
      planStages plugins datatype slice depth (stages'.zip chunks) := by
  induction h generalizing chunks with
  | nil => rfl
  | @cons stage stage' rest rest' hstage hrest ih =>
    cases chunks with
    | nil => rfl
    | cons chunk chunks =>
      have hempty : (rest.zip chunks).isEmpty = (rest'.zip chunks).isEmpty := by
        cases hrest <;> cases chunks <;> rfl
      funext plan edge
      simp only [List.zip_cons_cons, planStages, planStage, hempty, hstage.outputRole,
        planStageOutput_alike plugins hstage, ih]

theorem buildLogicalPlan_alike (h : spec.Alike spec') (depth : ℕ) (inputLayout : InputLayout)
    (chunks : List ℕ) (slice : SliceShape) :
    buildLogicalPlan plugins spec depth inputLayout chunks slice =
      buildLogicalPlan plugins spec' depth inputLayout chunks slice := by
  unfold buildLogicalPlan planInputStaging
  rw [h.datatype, h.inputChunks, planStages_alike plugins h.stages]

end

/-! ## Compressors -/

/-- Buffers of the same sizes, without frames. -/
structure CompressorView.Alike (view view' : CompressorView) : Prop where
  capacityBytes : view.capacityBytes = view'.capacityBytes
  bytes : view.bytes = view'.bytes
  elements : view.elements = view'.elements
  chunks : view.chunks = view'.chunks
  datatype : view.datatype = view'.datatype
  frameMetadata : view.frameMetadata = none
  frameMetadata' : view'.frameMetadata = none

structure CompressorCall.Alike (call call' : CompressorCall) : Prop where
  operation : call.operation = call'.operation
  input : call.input.Alike call'.input
  output : call.output.Alike call'.output
  reduceChunks : call.reduceChunks = call'.reduceChunks
  originalDatatype : call.originalDatatype = call'.originalDatatype
  originalElements : call.originalElements = call'.originalElements

/-- What two ranks' compressors commit depends on the sizes of a call only. -/
def SameSizes (runtime runtime' : CompressorRuntime κ) : Prop :=
  ∀ policy call call', call.Alike call' →
    runtime.execute policy call = runtime'.execute policy call'

section

variable {runtime runtime' : CompressorRuntime κ} {output output' : CompressorView}

theorem CompressorView.commit_alike {args : Commit} (h : output.Alike output') :
    Related Alike (output.commit args) (output'.commit args) :=
  .guard (.guard (.ok ⟨h.capacityBytes, rfl, rfl, rfl, rfl, h.frameMetadata, h.frameMetadata'⟩))

variable (hsizes : SameSizes runtime runtime')
include hsizes

theorem executePlugin_alike {policy : κ} {call call' : CompressorCall} (hcall : call.Alike call') :
    Related CompressorView.Alike (executePlugin runtime policy call)
      (executePlugin runtime' policy call') := by
  unfold executePlugin CompressorView.commitPlanned
  rw [hsizes policy call call' hcall, ← hcall.output.elements, ← hcall.output.datatype,
    ← hcall.output.chunks]
  refine .bind .refl ?_
  rintro (_ | args) _ rfl
  · exact .guard (CompressorView.commit_alike hcall.output)
  · exact CompressorView.commit_alike hcall.output

omit hsizes in
/-- The core's check hands on what the plugin committed. -/
theorem cocclExecuteCompressor_plugin {policy : κ} {call : CompressorCall} {view : CompressorView}
    (h : cocclExecuteCompressor runtime (some policy) call = .ok view) :
    executePlugin runtime policy call = .ok view := by
  obtain ⟨output, houtput, h⟩ := Checked.bind_eq_ok.mp h
  have hview : view = output := by
    cases hoperation : call.operation <;> simp only [hoperation] at h
    · exact (validateEncodedOutput_eq h).1
    · exact (Except.ok.inj h).symm
    · exact (Except.ok.inj h).symm
    · exact (validateEncodedOutput_eq h).1
  rw [hview]
  exact houtput

variable {compressor : Option κ}

theorem cocclExecuteCompressor_alike {call call' : CompressorCall} (hcall : call.Alike call') :
    Related CompressorView.Alike (cocclExecuteCompressor runtime compressor call)
      (cocclExecuteCompressor runtime' compressor call') := by
  intro view view' h h'
  cases compressor with
  | none => cases h
  | some policy =>
    exact executePlugin_alike hsizes hcall (cocclExecuteCompressor_plugin h)
      (cocclExecuteCompressor_plugin h')

variable {input input' : CompressorView} (hin : input.Alike input') (hout : output.Alike output')
include hin hout

namespace CompressorRuntime

theorem ncclCompress_alike :
    Related CompressorView.Alike (runtime.ncclCompress compressor input output)
      (runtime'.ncclCompress compressor input' output') :=
  cocclExecuteCompressor_alike hsizes ⟨rfl, hin, hout, rfl, hin.datatype, hin.elements⟩

theorem ncclDecompress_alike :
    Related CompressorView.Alike (runtime.ncclDecompress compressor input output)
      (runtime'.ncclDecompress compressor input' output') := by
  unfold ncclDecompress
  rw [← hin.datatype]
  split
  · exact .guard (.ok ⟨hout.capacityBytes, hin.bytes, hout.elements, hout.chunks, hout.datatype,
      hout.frameMetadata, hout.frameMetadata'⟩)
  · exact cocclExecuteCompressor_alike hsizes ⟨rfl, hin, hout, rfl, hout.datatype, hout.elements⟩

variable {plugins : κ → Plugin} {reduceChunks : ℕ}

theorem ncclDecompressReduce_alike :
    Related CompressorView.Alike
      (runtime.ncclDecompressReduce plugins compressor input output reduceChunks)
      (runtime'.ncclDecompressReduce plugins compressor input' output' reduceChunks) := by
  unfold ncclDecompressReduce
  rw [hin.frameMetadata, hin.frameMetadata', ← hin.datatype]
  split
  · exact cocclExecuteCompressor_alike hsizes ⟨rfl, hin, hout, rfl, hout.datatype, hout.elements⟩
  · refine .bind (R := fun _ _ => True) (fun _ _ _ _ => trivial) fun _ _ _ => .ok
      ⟨hout.capacityBytes, ?_, hout.elements, ?_, hout.datatype, hout.frameMetadata,
        hout.frameMetadata'⟩
    · simp only [hout.elements, hout.datatype]
    · simp only [hin.chunks]

theorem ncclDecompReduceComp_alike [DecidableEq κ] {decoder encoder : Option κ}
    {originalElements : ℕ} {originalDatatype : DataType} :
    Related CompressorView.Alike
      (runtime.ncclDecompReduceComp plugins decoder encoder input output reduceChunks
        originalDatatype originalElements)
      (runtime'.ncclDecompReduceComp plugins decoder encoder input' output' reduceChunks
        originalDatatype originalElements) := by
  unfold ncclDecompReduceComp
  rw [hin.frameMetadata, hin.frameMetadata', ← hin.datatype]
  split
  · exact cocclExecuteCompressor_alike hsizes ⟨rfl, hin, hout, rfl, rfl, rfl⟩
  · refine .bind (R := fun _ _ => True) (fun _ _ _ _ => trivial) fun _ _ _ =>
      ncclCompress_alike hsizes ?_ hout
    exact ⟨rfl, rfl, rfl, congrArg (· / reduceChunks) hin.chunks, rfl, rfl, rfl⟩

end CompressorRuntime

end

/-! ## Edges -/

/-- Edges of the same sizes, without frames. -/
structure PipelineEdge.Alike (edge edge' : PipelineEdge κ) : Prop where
  bytes : edge.bytes = edge'.bytes
  totalElements : edge.totalElements = edge'.totalElements
  datatype : edge.datatype = edge'.datatype
  logicalChunks : edge.logicalChunks = edge'.logicalChunks
  compressor : edge.compressor = edge'.compressor
  frameMetadata : edge.frameMetadata = none
  frameMetadata' : edge'.frameMetadata = none

/-- What a handler reads of the slice it runs in. -/
structure StageContext.Alike (context context' : StageContext) : Prop where
  rawSliceCount : context.rawSliceCount = context'.rawSliceCount
  rawDatatype : context.rawDatatype = context'.rawDatatype

structure StageOutput.Alike (output output' : StageOutput) : Prop where
  capacityBytes : output.capacityBytes = output'.capacityBytes
  frameMetadata : output.frameMetadata = none
  frameMetadata' : output'.frameMetadata = none

section

variable {edge edge' : PipelineEdge κ}

theorem PipelineEdge.Alike.view (h : edge.Alike edge') : edge.view.Alike edge'.view :=
  ⟨h.bytes, h.bytes, h.totalElements, h.logicalChunks, h.datatype, h.frameMetadata,
    h.frameMetadata'⟩

theorem CompressorView.Alike.toEdge {view view' : CompressorView} (h : view.Alike view')
    (compressor : Option κ) (frameStrideBytes frameStrideBytes' : ℕ) :
    (edgeOfView view compressor view.frameMetadata frameStrideBytes).Alike
      (edgeOfView view' compressor view'.frameMetadata frameStrideBytes') :=
  ⟨h.bytes, h.elements, h.datatype, h.chunks, rfl, h.frameMetadata, h.frameMetadata'⟩

theorem CompressorView.Alike.rawEdge {view view' : CompressorView} (h : view.Alike view') :
    (edgeOfView view (none : Option κ) none 0).Alike (edgeOfView view' none none 0) :=
  ⟨h.bytes, h.elements, h.datatype, h.chunks, rfl, rfl, rfl⟩

namespace StageHandler

variable [DecidableEq κ] {plugins : κ → Plugin} {runtime runtime' : CompressorRuntime κ}
  {framesValid framesValid' : Stage κ → PipelineEdge κ → Bool} {context context' : StageContext}
  {output output' : StageOutput} {result result' : PipelineEdge κ}

/-- Handlers leave edges of the same sizes. -/
theorem handlers_alike (hsizes : SameSizes runtime runtime') {stage stage' : Stage κ}
    (hstage : stage.Alike stage') (hcontext : context.Alike context') (hedge : edge.Alike edge')
    (houtput : output.Alike output') :
    Related PipelineEdge.Alike (handlers plugins runtime framesValid context stage edge output)
      (handlers plugins runtime' framesValid' context' stage' edge' output') := by
  cases hstage with
  | compress compressor =>
    refine .bind (ncclCompress_alike hsizes hedge.view ?_) fun _ _ hview =>
      .ok (CompressorView.Alike.toEdge hview _ _ _)
    exact ⟨houtput.capacityBytes, rfl, rfl, hedge.logicalChunks, rfl, houtput.frameMetadata,
      houtput.frameMetadata'⟩
  | allToAll handle nRanks =>
    simp only [handlers, runAllToAll, hedge.frameMetadata, hedge.frameMetadata', Option.isSome_none,
      Bool.false_eq_true, if_false]
    exact .ok ⟨hedge.bytes, hedge.totalElements, hedge.datatype, hedge.logicalChunks,
      hedge.compressor, rfl, rfl⟩
  | allGather handle nRanks =>
    simp only [handlers, runAllGather, hedge.frameMetadata, hedge.frameMetadata',
      Option.isSome_none, Bool.false_eq_true, if_false]
    refine .ok ⟨?_, ?_, hedge.datatype, ?_, hedge.compressor, hedge.frameMetadata,
      hedge.frameMetadata'⟩
    · simp only [gathered, hedge.bytes, nRanks]
    · simp only [gathered, hedge.totalElements, nRanks]
    · simp only [gathered, hedge.logicalChunks, nRanks]
  | decompReduceComp reduceChunks compressor =>
    simp only [handlers, runDecompReduceComp]
    rw [← hcontext.rawSliceCount, ← hcontext.rawDatatype, ← hedge.logicalChunks, ← hedge.compressor]
    refine .bind .refl ?_
    rintro elements _ rfl
    refine .bind (ncclDecompReduceComp_alike hsizes hedge.view ?_)
      fun _ _ hview => .ok (CompressorView.Alike.toEdge hview _ _ _)
    exact ⟨houtput.capacityBytes, rfl, rfl, rfl, rfl, houtput.frameMetadata, houtput.frameMetadata'⟩
  | decompressReduce reduceChunks =>
    simp only [handlers, runDecompressReduce]
    rw [← hcontext.rawSliceCount, ← hcontext.rawDatatype, ← hedge.logicalChunks, ← hedge.compressor]
    refine .bind .refl ?_
    rintro elements _ rfl
    refine .bind (ncclDecompressReduce_alike hsizes hedge.view ?_)
      fun _ _ hview => .ok (CompressorView.Alike.rawEdge hview)
    exact ⟨houtput.capacityBytes, rfl, rfl, rfl, rfl, rfl, rfl⟩
  | decompress =>
    simp only [handlers, runDecompress]
    rw [← hcontext.rawSliceCount, ← hcontext.rawDatatype, ← hedge.logicalChunks, ← hedge.compressor]
    refine .bind (ncclDecompress_alike hsizes hedge.view ?_)
      fun _ _ hview => .ok (CompressorView.Alike.rawEdge hview)
    exact ⟨houtput.capacityBytes, rfl, rfl, rfl, rfl, rfl, rfl⟩
  | reduceScatter handle nRanks =>
    refine .ok ⟨?_, ?_, hcontext.rawDatatype, ?_, rfl, rfl, rfl⟩
    · simp only [hcontext.rawSliceCount, hcontext.rawDatatype, hedge.logicalChunks, nRanks]
    · simp only [hcontext.rawSliceCount, hedge.logicalChunks, nRanks]
    · simp only [hedge.logicalChunks, nRanks]

end StageHandler

end

/-! ## Slices -/

section

variable [DecidableEq κ] {plugins : κ → Plugin} {spec spec' : PipelineSpec κ}
  {requestedDepth requestedDepth' : ℤ} {context context' : PipelineContext κ}
  {chunks chunks' : List ℕ} {requireSerial requireSerial' : Bool} {logical logical' : PipelinePlan}
  {runtime runtime' : CompressorRuntime κ}
  {framesValid framesValid' : Stage κ → PipelineEdge κ → Bool}
  {workspace : PipelineWorkspace context} {workspace' : PipelineWorkspace context'}

open PipelineContext

variable {slice : ℕ}
  (P : Prepared plugins spec requestedDepth context chunks requireSerial logical)

include P in
/-- Without framed compressors a stage's output has no metadata. -/
theorem stageOutput_frameMetadata
    (hfixed : pipelineUsesFramedCompressor plugins spec = false) {stage : ℕ}
    (hslice : slice < context.depth) (hstage : stage < context.stageCount) :
    (stageOutput workspace slice stage).frameMetadata = none := by
  have hnone := P.frameMetadata_none hfixed hslice hstage
  unfold stageOutput
  unfold frameMetadata at hnone
  cases htemp : context.outputTemp stage with
  | none => rfl
  | some temp =>
    rw [htemp] at hnone
    by_cases hbytes : (context.temp temp).frameMetadataBytes = 0
    · simp [hbytes]
    · simp [hbytes] at hnone

/-- The pack step moves the edge to its temporary. -/
theorem packedEdge_eq {edge : PipelineEdge κ}
    (h : packedEdge plugins runtime framesValid workspace slice = .ok edge) :
    ∃ ptr, edge = { context.inputEdgeOf slice with ptr := ptr } := by
  unfold packedEdge at h
  split at h
  · obtain ⟨-, h⟩ := Checked.ite_error_eq_ok.mp h
    exact ⟨_, (Except.ok.inj h).symm⟩
  · exact ⟨_, (Except.ok.inj h).symm⟩

omit [DecidableEq κ] in
theorem capacityBytes_stageOutput (workspace : PipelineWorkspace context) (slice stage : ℕ) :
    (stageOutput workspace slice stage).capacityBytes = context.outputBytes slice stage := by
  unfold stageOutput
  split <;> rfl

variable (halike : spec.Alike spec')
  (P' : Prepared plugins spec' requestedDepth' context' chunks' requireSerial' logical')
  (hdepth : context.depth = context'.depth)

include P halike P'

theorem stageCount_alike : context.stageCount = context'.stageCount := by
  unfold PipelineContext.stageCount
  rw [P.spec_eq, P'.spec_eq, halike.stages.length_eq]

include hdepth

theorem slice_alike (slice : ℕ) : context.slice slice = context'.slice slice := by
  unfold PipelineContext.slice
  rw [P.slices, P'.slices, hdepth, halike.rawChunkCount, halike.typeBytes]

/-- The bytes planned for a stage's output. -/
theorem outputBytes_alike (hslice : slice < context.depth) (stage : ℕ) :
    context.outputBytes slice stage = context'.outputBytes slice stage := by
  obtain ⟨plan, hplan, -, hbytes, -⟩ := P.plans slice hslice
  obtain ⟨plan', hplan', -, hbytes', -⟩ := P'.plans slice (hdepth ▸ hslice)
  have hchunks : chunks = chunks' := by
    have heq := P.chunks_eq
    rw [halike.inputChunks, stageChunks_alike halike.stages, P'.chunks_eq] at heq
    exact (Except.ok.inj heq).symm
  rw [buildLogicalPlan_alike plugins halike, P.inputLayout, plannedInputLayout_alike plugins halike,
    ← P'.inputLayout, hdepth, halike.rawChunkCount, halike.typeBytes, hchunks, hplan'] at hplan
  obtain rfl := Except.ok.inj hplan
  simp only [PipelineContext.outputBytes, List.getD_eq_getElem?_getD, hbytes, hbytes']

theorem stageContextForSlice_alike (slice : ℕ) :
    (context.stageContextForSlice slice).Alike (context'.stageContextForSlice slice) := by
  have hslice := slice_alike P halike P' hdepth slice
  constructor
  · simp only [stageContextForSlice, hslice]
  · simp only [stageContextForSlice, P.rawDatatype, P'.rawDatatype, halike.datatype]

theorem inputEdgeOf_alike (slice : ℕ) :
    (context.inputEdgeOf slice).Alike (context'.inputEdgeOf slice) := by
  have hslice := slice_alike P halike P' hdepth slice
  unfold inputEdgeOf
  rw [P.spec_eq, P'.spec_eq]
  refine ⟨?_, ?_, halike.datatype, halike.inputChunks, rfl, rfl, rfl⟩
  · simp only [hslice, halike.inputChunks]
  · simp only [hslice, halike.inputChunks]

theorem stageOutput_alike (hfixed : pipelineUsesFramedCompressor plugins spec = false) {stage : ℕ}
    (hslice : slice < context.depth) (hstage : stage < context.stageCount) :
    (stageOutput workspace slice stage).Alike (stageOutput workspace' slice stage) := by
  refine ⟨?_, stageOutput_frameMetadata P hfixed hslice hstage,
    stageOutput_frameMetadata P' ?_ (hdepth ▸ hslice) (stageCount_alike P halike P' ▸ hstage)⟩
  · rw [capacityBytes_stageOutput, capacityBytes_stageOutput]
    exact outputBytes_alike P halike P' hdepth hslice stage
  · rw [← pipelineUsesFramedCompressor_alike plugins halike]
    exact hfixed

/-- **The edges of two ranks have the same sizes.** -/
theorem edgeAfter_alike (hfixed : pipelineUsesFramedCompressor plugins spec = false)
    (hsizes : SameSizes runtime runtime') (hslice : slice < context.depth) {k : ℕ}
    (hk : k ≤ context.stageCount) :
    Related PipelineEdge.Alike (edgeAfter plugins runtime framesValid workspace slice k)
      (edgeAfter plugins runtime' framesValid' workspace' slice k) := by
  induction k with
  | zero =>
    intro edge edge' h h'
    obtain ⟨ptr, rfl⟩ := packedEdge_eq h
    obtain ⟨ptr', rfl⟩ := packedEdge_eq h'
    have hinput := inputEdgeOf_alike P halike P' hdepth slice
    exact ⟨hinput.bytes, hinput.totalElements, hinput.datatype, hinput.logicalChunks, rfl, rfl, rfl⟩
  | succ k ih =>
    have hlt : k < spec.stages.length := by
      rw [← P.spec_eq]
      exact hk
    have hlt' : k < spec'.stages.length := halike.stages.length_eq ▸ hlt
    unfold edgeAfter
    rw [P.spec_eq, P'.spec_eq, List.getElem?_eq_getElem hlt, List.getElem?_eq_getElem hlt']
    exact .bind (ih (by omega)) fun edge edge' hedge => .guard
      (StageHandler.handlers_alike hsizes (halike.stages.get hlt hlt')
        (stageContextForSlice_alike P halike P' hdepth slice) hedge
        (stageOutput_alike P halike P' hdepth hfixed hslice hk))

end

end Coccl
