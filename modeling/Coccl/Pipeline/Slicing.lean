import Coccl.Foundations.Tiling
import Coccl.Pipeline.OverlapConflicts
import Coccl.Pipeline.Within

/-!
# Slices and aliased user buffers

The slices of an accepted pipeline tile a rank chunk, and two slices of a pipeline that may run
overlapped never meet in the user's memory, however the two buffers overlap.
-/

namespace Coccl

open PipelineContext Tiling SliceShape

section

variable {κ : Type} [DecidableEq κ] {plugins : κ → Plugin} {spec : PipelineSpec κ}
  {requestedDepth : ℤ} {context : PipelineContext κ} {chunks : List ℕ} {requireSerial : Bool}
  {logical : PipelinePlan}

/-! ## The slices of a rank chunk -/

/-- The element at which a slice starts, the end of the chunk behind the last one. -/
def sliceBound (rawChunkCount depth slice : ℕ) : ℕ :=
  if slice = depth then rawChunkCount else slice * (rawChunkCount / depth)

theorem sliceBound_zero {rawChunkCount depth : ℕ} (hdepth : 0 < depth) :
    sliceBound rawChunkCount depth 0 = 0 := by
  rw [sliceBound, if_neg hdepth.ne, zero_mul]

theorem sliceBound_succ {rawChunkCount depth typeBytes k : ℕ} (hk : k < depth) :
    sliceBound rawChunkCount depth k + (exactSlice rawChunkCount depth typeBytes k).elementCount =
      sliceBound rawChunkCount depth (k + 1) := by
  unfold sliceBound exactSlice
  simp only
  rw [if_neg hk.ne]
  by_cases hlast : k + 1 = depth
  · -- the last slice takes the remainder
    have hdiv := Nat.div_add_mod rawChunkCount depth
    rw [if_pos hlast, if_pos hlast]
    calc k * (rawChunkCount / depth) + (rawChunkCount / depth + rawChunkCount % depth)
        = (k + 1) * (rawChunkCount / depth) + rawChunkCount % depth := by ring
      _ = rawChunkCount := by rw [hlast, hdiv]
  · rw [if_neg hlast, if_neg hlast]
    ring

omit [DecidableEq κ] in
variable (context) in
/-- What a slice writes of the user's memory. -/
def PipelineContext.userWrites (slice : ℕ) : Set Loc :=
  {l | l.1 = .user ∧ ∃ step ∈ context.sliceSteps, l ∈ context.stepWrites slice step}

omit [DecidableEq κ] in
variable (context) in
/-- What a slice reads of the user's memory. -/
def PipelineContext.userReads (slice : ℕ) : Set Loc :=
  {l | l.1 = .user ∧ ∃ step ∈ context.sliceSteps, l ∈ context.stepReads slice step}

namespace Prepared

variable (P : Prepared plugins spec requestedDepth context chunks requireSerial logical)
include P

/-- **The slices tile a rank chunk**, by elements and by bytes. -/
theorem slices_tile : Tiles elementOffset elementCount 0 context.slices spec.rawChunkCount ∧
      Tiles byteOffset bytes 0 context.slices (spec.rawChunkCount * spec.typeBytes) := by
  obtain ⟨hpos, hle⟩ := P.depth_pos
  have htype : 0 < spec.typeBytes := by
    have := P.valid.typeBytes_pos
    unfold PipelineSpec.typeBytes
    omega
  have hcount : ∀ k,
      0 < (exactSlice spec.rawChunkCount context.depth spec.typeBytes k).elementCount :=
    fun k => Nat.add_pos_left (Nat.div_pos hle hpos) _
  have hend : sliceBound spec.rawChunkCount context.depth context.depth = spec.rawChunkCount :=
    if_pos rfl
  have hstart : ∀ k < context.depth, sliceBound spec.rawChunkCount context.depth k =
      (exactSlice spec.rawChunkCount context.depth spec.typeBytes k).elementOffset :=
    fun k hk => if_neg hk.ne
  rw [P.slices]
  constructor
  · have htiles := @tiles_map_range _ elementOffset elementCount
      (exactSlice spec.rawChunkCount context.depth spec.typeBytes)
      (sliceBound spec.rawChunkCount context.depth) context.depth
      fun k hk => ⟨(hstart k hk).symm, hcount k, sliceBound_succ hk⟩
    rwa [sliceBound_zero hpos, hend] at htiles
  · have htiles := @tiles_map_range _ byteOffset bytes
      (exactSlice spec.rawChunkCount context.depth spec.typeBytes)
      (fun k => sliceBound spec.rawChunkCount context.depth k * spec.typeBytes) context.depth
      fun k hk => ⟨?_, mul_pos (hcount k) htype, ?_⟩
    · simp only [sliceBound_zero hpos, zero_mul, hend] at htiles
      exact htiles
    · simp only [hstart k hk]
      rfl
    · simp only [← @sliceBound_succ _ _ spec.typeBytes _ hk, add_mul]
      rfl

/-! ## The user's memory -/

variable (hraw : spec.stages.foldl carriedCompressor none = none)

include hraw

/-- The last output of a pipeline that leaves raw data has exactly the slice's rows. -/
theorem outputBytes_final {s : ℕ} (hs : s < context.depth) :
    context.outputBytes s (context.stageCount - 1) =
      context.plan.finalChunks * (context.slice s).bytes := by
  obtain ⟨plan, input, final, outputs, R⟩ := P.sliceRun hraw hs
  have hlast := R.slicePlan.last
  rw [List.getLast?_eq_getElem?, R.length] at hlast
  rw [outputBytes_eq R.bytes hlast, (R.final_raw P).2.2, mul_comm]

theorem userReads_subset (hdepth : 1 < context.depth) {s : ℕ} (hs : s < context.depth) :
    context.userReads s ⊆ context.inputRows s := by
  rintro l ⟨huser, step, hstep, hl⟩
  have hrows : context.stagesOutput → ∀ slice < context.depth,
      context.plan.finalChunks * (context.slice slice).bytes ≤
        context.outputBytes slice (context.stageCount - 1) :=
    fun _ slice hslice => (P.outputBytes_final hraw hslice).ge
  rcases P.reads_cases hdepth hs hstep hl hrows with ⟨-, -, hrow⟩ | ⟨i, -, hi, -⟩
  · exact hrow
  · exact absurd huser (tempLocs_not_user hi)

theorem userWrites_subset (hdepth : 1 < context.depth) {s : ℕ} (hs : s < context.depth) :
    context.userWrites s ⊆ context.outputRows s := by
  rintro l ⟨huser, step, hstep, hl⟩
  obtain rfl : step = context.lastStep := by
    rcases P.writes_cases hs hstep hl with ⟨-, hlast⟩ | ⟨i, -, hi, -⟩
    · exact hlast
    · exact absurd huser (tempLocs_not_user hi)
  unfold lastStep at hl
  split_ifs at hl with hout
  · exact hl
  · -- a single row, written by the last stage itself
    have hpos := P.stageCount_pos
    have hnone : context.outputTemp (context.stageCount - 1) = none := by
      rw [P.tempShape.outputTemp _ (by omega), if_neg (by simp [hout]; omega)]
    have hpayload : l ∈ context.payloadLocs s (context.stageCount - 1) := by
      unfold finalStep payloadWriter at hl
      split_ifs at hl
      · exact hl
      · simpa [stepWrites, frameLocs, frameMetadata, hnone] using hl
    unfold payloadLocs payload at hpayload
    rw [hnone] at hpayload
    obtain ⟨-, hlo, hhi⟩ := hpayload
    simp only [P.outputBytes_final hraw hs] at hlo hhi
    have hchunks := P.stagesOutput_iff.not.mp hout
    have hone : context.plan.finalChunks = 1 := by
      have hne : context.plan.finalChunks ≠ 0 := by
        intro hzero
        rw [hzero, zero_mul] at hhi
        omega
      omega
    refine ⟨huser, 0, by omega, ?_, ?_⟩
    · simpa using hlo
    · rw [hone, one_mul] at hhi
      simpa using hhi

end Prepared

/-- **Slicing is safe for every placement of the user's buffers**, where the stages leave the user
raw chunks. -/
theorem cocclPreparePipeline_slices
    (h : cocclPreparePipeline plugins spec requestedDepth = .ok context) :
    Tiles elementOffset elementCount 0 context.slices spec.rawChunkCount ∧
    Tiles byteOffset bytes 0 context.slices
      (spec.rawChunkCount * spec.typeBytes) ∧
    (spec.stages.foldl carriedCompressor none = none → 1 < context.depth →
      ∀ s t, s < context.depth → t < context.depth → s ≠ t →
        Disjoint (context.userWrites s) (context.userReads t)) := by
  obtain ⟨chunks, requireSerial, logical, P⟩ := cocclPreparePipeline_prepared h
  refine ⟨P.slices_tile.1, P.slices_tile.2, fun hraw hdepth s t hs ht hst => ?_⟩
  exact (P.rows_disjoint hdepth hs ht hst).mono (P.userWrites_subset hraw hdepth hs)
    (P.userReads_subset hraw hdepth ht)

end

/-- An exchange of two chunks in place, in two slices. -/
def inPlaceExchange : PipelineSpec Unit where
  input := 4096
  output := 4096
  rawChunkCount := 5
  inputChunks := 2
  datatype := .float32
  ownerComm := ⟨0, 0, 2, 1, 2, Nat.two_pos, Nat.one_pos⟩
  stages := [.compress (some ()), .allToAll ⟨0, 0, 2, 1, 2, Nat.two_pos, Nat.one_pos⟩, .decompress]
  inPlaceLayout := .sameBuffer
  inputLayout := .contiguous

theorem inPlaceExchange_slices : ∃ context,
    cocclPreparePipeline (fun _ => ⟨fun _ => false, none⟩) inPlaceExchange 2 = .ok context ∧
    context.depth = 2 ∧
    Tiles elementOffset elementCount 0 context.slices 5 ∧
    Disjoint (context.userWrites 0) (context.userReads 1) := by
  obtain ⟨context, hcontext, hdepth⟩ : ∃ context,
      cocclPreparePipeline (fun _ => ⟨fun _ => false, none⟩) inPlaceExchange 2 = .ok context ∧
      decide (context.depth = 2) = true := Checked.exists_of_any (by decide +kernel)
  rw [decide_eq_true_eq] at hdepth
  obtain ⟨htiles, -, hdisjoint⟩ := cocclPreparePipeline_slices hcontext
  exact ⟨context, hcontext, hdepth, htiles, hdisjoint rfl (by omega) 0 1 (by omega)
    (by omega) (by omega)⟩

/-- A framed compressor that may take more room than the raw data. -/
def roomyPlugin : Plugin where
  capabilities := fun capability => capability = .compress ∨ capability = .framed
  getEncodedSizeBound := some fun query => .ok (64 * query.chunks)

/-- Four floats that are left encoded right below the input. -/
def encodedBelow : PipelineSpec Unit :=
  { inPlaceExchange with
    input := 4112
    rawChunkCount := 4
    inputChunks := 1
    stages := [.compress (some ())]
    inPlaceLayout := .none }

/-- The first slice's encoding reaches into what the second one reads. -/
theorem encodedBelow_meets : ∃ context,
    cocclPreparePipeline (fun _ => roomyPlugin) encodedBelow 2 = .ok context ∧
    context.depth = 2 ∧ ¬ Disjoint (context.userWrites 0) (context.userReads 1) := by
  obtain ⟨context, h, hshape⟩ := Checked.map_eq_ok
    (show (cocclPreparePipeline (fun _ => roomyPlugin) encodedBelow 2).map
      (fun c => (c.depth, c.sliceSteps, c.payload 0 0, c.plan.inputStagingTemp,
        c.spec.input + (c.slice 1).byteOffset, c.inputBytes 1)) =
          .ok (2, [.stage 0], ⟨.user, 4096, 64⟩, none, 4120, 8) from rfl)
  simp only [Prod.mk.injEq] at hshape
  obtain ⟨hdepth, hsteps, hpayload, hstaging, hstart, hbytes⟩ := hshape
  refine ⟨context, h, hdepth, Set.not_disjoint_iff.mpr ⟨(.user, 4120), ⟨rfl, .stage 0, ?_, ?_⟩,
    rfl, .stage 0, ?_, ?_⟩⟩
  · simp [hsteps]
  · refine .inl ?_
    rw [payloadLocs, hpayload]
    exact ⟨rfl, by decide, by decide⟩
  · simp [hsteps]
  · rw [stepReads, stageInput, hstaging, hstart, hbytes]
    exact ⟨rfl, by decide, by decide⟩

end Coccl
