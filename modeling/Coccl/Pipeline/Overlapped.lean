import Coccl.Pipeline.OverlapHazards

/-!
# The overlapped run against the serial one

For an accepted pipeline with two slices or more, what the executor enqueues is as good as the
serial run in every legal order exactly when the pipeline is `OverlapSafe`. A pipeline whose last
stage leaves raw data is; a framed compressor alone in its pipeline, with more than one chunk, is
not.
-/

namespace Coccl

open Streams PipelineContext List

section

variable {κ : Type} [DecidableEq κ] {plugins : κ → Plugin} {spec : PipelineSpec κ}
  {requestedDepth : ℤ} {context : PipelineContext κ} {chunks : List ℕ} {requireSerial : Bool}
  {logical : PipelinePlan}

/-- Stages whose output is raw data. -/
def Stage.leavesRaw : Stage κ → Bool
  | .decompressReduce _ | .decompress | .reduceScatter _ => true
  | _ => false

namespace Prepared

variable (P : Prepared plugins spec requestedDepth context chunks requireSerial logical)

include P

theorem overlapProgram_ordered (hframed : context.stagesOutput = true →
      pipelineUsesFramedCompressor plugins context.spec = true →
      1 < context.stageCount ∧ context.usesFrameExchange (context.stageCount - 1) = false) :
    context.Ordered (overlapProgram plugins context) := by
  unfold overlapProgram
  split_ifs with hcompressor
  · exact runFramedOverlap_ordered (fun hout => hframed hout hcompressor) P.stageCount_pos
      P.depth_pos.1
  · refine runOverlap_ordered P.stageCount_pos (fun k hk => ?_) P.depth_pos.1
    rw [P.spec_eq, Bool.not_eq_true] at hcompressor
    exact P.usesFrameExchange_eq_false hcompressor hk

theorem overlapCorrect_of_safe (hdepth : 1 < context.depth) (safe : OverlapSafe plugins context) :
    context.OverlapCorrect (overlapProgram plugins context) :=
  P.overlapCorrect_of_ordered (P.overlapProgram_ordered safe.framed) safe hdepth

theorem framed_of_correct (hcorrect : context.OverlapCorrect (overlapProgram plugins context))
    (hout : context.stagesOutput = true)
    (hcompressor : pipelineUsesFramedCompressor plugins context.spec = true) :
    1 < context.stageCount ∧ context.usesFrameExchange (context.stageCount - 1) = false := by
  by_contra hno
  rw [overlapProgram, if_pos hcompressor] at hcorrect
  have hstages : context.stageCount ≤ kCocclPipelineExplicitStages := by
    rw [stageCount, P.spec_eq]
    exact P.valid.stages_le
  have hmem : .at 0 (.stage 0) ∈ hostWorks context.runFramedOverlap := by
    refine mem_filterMap.mpr ⟨executeStage cocclPipelinePhaseFirstStage 0 (.stage 0), ?_, rfl⟩
    refine (sublist_runFramedOverlap P.stageCount_pos (.refl _)).subset ?_
    rw [framedBlock, if_pos rfl]
    refine mem_flatMap.mpr ⟨0, mem_range.mpr P.depth_pos.1, ?_⟩
    simp [firstStageItems]
  exact resumes_early (enqueues_runFramedOverlap P.stageCount_pos) hstages hno hout
    (by simp) hmem hcorrect

theorem overlapSafe_of_correct
    (hcorrect : context.OverlapCorrect (overlapProgram plugins context)) :
    OverlapSafe plugins context := by
  have hordered := P.overlapProgram_ordered fun hout hcompressor =>
    P.framed_of_correct hcorrect hout hcompressor
  have hlegal := legal_range (overlapProgram plugins context)
  have hmem : ∀ s < context.depth, ∀ a ∈ context.sliceSteps,
      WorkOp.at s a ∈ works _ (List.range (overlapProgram plugins context).length) :=
    fun s hs a ha =>
      (mem_works hordered hlegal).mpr (.inl (mem_serialWorks.mpr ⟨s, hs, a, ha, rfl⟩))
  refine ⟨fun hout s hs => ?_, P.framed_of_correct hcorrect, fun hout hne s t hst ht => ?_⟩
  · have hunpack := hmem s hs .unpack (mem_sliceSteps.mpr (.inr (.inr ⟨rfl, hout⟩)))
    exact unpackSource_subset.mp
      (hcorrect.feeds _ hlegal s .unpack hunpack _ (mem_singleton_self _)).1
  · have hfirst := hlegal.works_perm.mem_iff.mp (hmem t ht _ P.firstStep_mem)
    have henqueues : ∃ unpacks, Enqueues context unpacks (overlapProgram plugins context) := by
      unfold overlapProgram
      split_ifs
      · exact ⟨_, enqueues_runFramedOverlap P.stageCount_pos⟩
      · exact ⟨_, enqueues_runOverlap⟩
    obtain ⟨unpacks, henqueues⟩ := henqueues
    exact P.direct_of_correct henqueues hcorrect hout hne hst ht hfirst

/-! ## Pipelines with a raw output -/

theorem outputBytes_raw {final : Stage κ} (hfinal : spec.stages.getLast? = some final)
    (hraw : final.leavesRaw = true) {s : ℕ} (hs : s < context.depth) :
    context.outputBytes s (context.stageCount - 1) =
      context.plan.finalChunks * (context.slice s).bytes := by
  obtain ⟨plan, input, last, outputs, hslice, hcovers, hbytes, -, hlen⟩ := P.slicePlan hs
  have hlast := hslice.last
  rw [getLast?_eq_getElem?, hlen] at hlast
  obtain ⟨stage, c, previous, hstage, -, hplan⟩ := hslice.chain.getElem? hlast
  obtain rfl : stage = final := by
    have := (getElem?_zip_eq_some.mp hstage).1
    rw [getLast?_eq_getElem?] at hfinal
    rw [stageCount, P.spec_eq] at this
    exact Option.some.inj (this.symm.trans hfinal)
  have hrawEdge : planRawEdge spec.datatype
      (exactSlice spec.rawChunkCount context.depth spec.typeBytes s) c = .ok last := by
    cases stage <;> first | exact hplan | cases hraw
  obtain ⟨rfl, -⟩ := planRawEdge_eq hrawEdge
  rw [outputBytes_eq hbytes hlast, P.layout.finalChunks, hcovers.finalChunks, hslice.finalChunks,
    (P.inputBytes_eq hs).1]
  exact mul_comm _ _

theorem firstStep_reads (hdepth : 1 < context.depth) {s : ℕ} (hs : s < context.depth) :
    context.stepReads s context.firstStep ⊆ context.inputRows s := by
  unfold firstStep
  split_ifs with hin
  · exact subset_rfl
  · intro l hl
    rcases P.stageInput_cases hdepth hs hl with ⟨-, -, hrow⟩ | ⟨hstaged, -⟩
    · exact hrow
    · exact absurd hstaged hin

/-- **A pipeline whose last stage leaves raw data is safe to overlap.** -/
theorem overlapSafe_of_raw {final : Stage κ} (hfinal : spec.stages.getLast? = some final)
    (hraw : final.leavesRaw = true) (hdepth : 1 < context.depth) :
    OverlapSafe plugins context := by
  have hpos := P.stageCount_pos
  refine ⟨fun _ s hs => (P.outputBytes_raw hfinal hraw hs).ge, fun hout hcompressor => ?_,
    fun hout _ s t hst ht => ?_⟩
  · have hlast : context.spec.stages[context.stageCount - 1]? = some final := by
      rw [stageCount, P.spec_eq, ← getLast?_eq_getElem?, hfinal]
    constructor
    · -- a single stage with raw output holds no compressor
      by_contra hone
      rw [show context.stageCount - 1 = 0 by omega] at hlast
      obtain ⟨stage, hstages⟩ : ∃ stage, context.spec.stages = [stage] :=
        length_eq_one_iff.mp (show context.stageCount = 1 by omega)
      rw [pipelineUsesFramedCompressor, hstages] at hcompressor
      obtain rfl : stage = final := by simpa [hstages] using hlast
      cases stage <;> simp_all [Stage.leavesRaw, Stage.compressor, cocclCompressorSupports]
    · rcases hk : context.stageCount - 1 with _ | k
      · rfl
      · rw [hk] at hlast
        cases final <;> simp_all [Stage.leavesRaw, usesFrameExchange]
  · -- the only row of the output is the slice's own
    have hone : context.plan.finalChunks ≤ 1 := by
      have hchunks := P.stagesOutput_iff.not.mp (by simp [hout])
      omega
    refine (P.rows_disjoint hdepth (hst.trans ht) ht (ne_of_lt hst)).mono ?_
      (P.firstStep_reads hdepth ht)
    intro l hl
    obtain ⟨hspace, hlo, hhi⟩ := P.finalStep_writes hout s hl
    rw [P.outputBytes_raw hfinal hraw (hst.trans ht)] at hhi
    simp only at hlo hhi
    have hchunk : context.plan.finalChunks = 1 := by
      rcases Nat.le_one_iff_eq_zero_or_eq_one.mp hone with hzero | hone
      · rw [hzero] at hhi
        omega
      · exact hone
    rw [hchunk, one_mul] at hhi
    exact ⟨hspace, 0, by omega, by omega, by omega⟩

end Prepared

/-- **Overlapping is correct exactly where it is safe.** -/
theorem overlapProgram_correct_iff
    (h : cocclPreparePipeline plugins spec requestedDepth = .ok context)
    (hdepth : 1 < context.depth) :
    context.OverlapCorrect (overlapProgram plugins context) ↔ OverlapSafe plugins context := by
  obtain ⟨chunks, requireSerial, logical, P⟩ := cocclPreparePipeline_prepared h
  exact ⟨P.overlapSafe_of_correct, P.overlapCorrect_of_safe hdepth⟩

end

/-! ## Two pipelines -/

/-- A compressor that declares no bound of its own, framed or not. -/
def unboundedPlugin (framed : Bool) : Plugin where
  capabilities := fun capability => capability = .compress ∨ (framed ∧ capability = .framed)
  getEncodedSizeBound := none

/-- Four floats per chunk, between two buffers that do not meet. -/
def fourFloats (inputChunks : ℕ) (stages : List (Stage Unit)) : PipelineSpec Unit where
  input := 4096
  output := 8192
  rawChunkCount := 4
  inputChunks := inputChunks
  datatype := .float32
  ownerComm := ⟨1, 0, 2, 1, 2, Nat.two_pos, Nat.one_pos⟩
  stages := stages
  inPlaceLayout := .none
  inputLayout := .contiguous

/-- A compressed gather over two ranks in two slices is correct in every order. -/
theorem compressedGather_correct : ∃ context,
    cocclPreparePipeline (fun _ => unboundedPlugin false) (fourFloats 1 [.compress (some ()),
      .allGather ⟨1, 0, 2, 1, 2, Nat.two_pos, Nat.one_pos⟩, .decompress]) 2 = .ok context ∧
    1 < context.depth ∧
    context.OverlapCorrect (overlapProgram (fun _ => unboundedPlugin false) context) := by
  obtain ⟨context, h, hdepth⟩ := Checked.map_eq_ok
    (show (cocclPreparePipeline (fun _ => unboundedPlugin false) (fourFloats 1
      [.compress (some ()), .allGather ⟨1, 0, 2, 1, 2, Nat.two_pos, one_pos⟩, .decompress])
        2).map (·.depth) = .ok 2 from rfl)
  have hdepth : 1 < context.depth := by omega
  obtain ⟨chunks, requireSerial, logical, P⟩ := cocclPreparePipeline_prepared h
  exact ⟨context, h, hdepth, (overlapProgram_correct_iff h hdepth).mpr
    (P.overlapSafe_of_raw rfl rfl hdepth)⟩

/-- A framed compressor alone over two chunks in two slices: nothing unpacks its output, and the
user's stream does not wait. -/
theorem framedCompress_not_correct : ∃ context,
    cocclPreparePipeline (fun _ => unboundedPlugin true) (fourFloats 2 [.compress (some ())]) 2 =
      .ok context ∧
    1 < context.depth ∧
    ¬context.OverlapCorrect (overlapProgram (fun _ => unboundedPlugin true) context) := by
  obtain ⟨context, h, hshape⟩ := Checked.map_eq_ok
    (show (cocclPreparePipeline (fun _ => unboundedPlugin true)
      (fourFloats 2 [.compress (some ())]) 2).map
        (fun c => (c.depth, c.stagesOutput, c.stageCount)) = .ok (2, true, 1) from rfl)
  simp only [Prod.mk.injEq] at hshape
  obtain ⟨hdepth, hout, hone⟩ := hshape
  obtain ⟨chunks, requireSerial, logical, P⟩ := cocclPreparePipeline_prepared h
  refine ⟨context, h, by omega, fun hcorrect => ?_⟩
  have hframed := (P.framed_of_correct hcorrect hout (by rw [P.spec_eq]; rfl)).1
  omega

end Coccl
