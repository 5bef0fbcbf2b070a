import Coccl.Pipeline.Prepared
import Coccl.Pipeline.Workspace

/-!
# Where the slices of a prepared pipeline lie

Every workspace access of a step stays inside one or two temporaries of its slice, and two slices
share a temporary's bytes only in a ring, two slices apart. The accesses to the user's buffers are
rows of the input or of the output.
-/

namespace Coccl

open Checked PipelineContext List

/-! ## Regions as sets -/

theorem Region.disjoint_of_le {a b : Region} (h : a.Apart b) : Disjoint a.locs b.locs := by
  refine Set.disjoint_left.mpr fun l ha hb => ?_
  obtain ⟨hsa, hla, hla'⟩ := ha
  obtain ⟨hsb, hlb, hlb'⟩ := hb
  rcases h with h | h | h
  · exact h (hsa.symm.trans hsb)
  · omega
  · omega

theorem Region.subset_of_le {a b : Region} (hs : a.space = b.space) (h₁ : b.start ≤ a.start)
    (h₂ : a.start + a.bytes ≤ b.start + b.bytes) : a.locs ⊆ b.locs :=
  fun _ ⟨hsa, hl, hl'⟩ => ⟨hsa.trans hs, by omega, by omega⟩

namespace PipelineContext

variable {κ : Type} (context : PipelineContext κ)

/-- All bytes of a temporary in one slice. -/
def tempRegion (slice tempIndex : ℕ) : Region :=
  ⟨(context.tempPtr slice tempIndex).1, (context.tempPtr slice tempIndex).2,
    (context.temp tempIndex).alignedBytes⟩

theorem tempRegion_eq (slice tempIndex : ℕ) :
    context.tempRegion slice tempIndex = context.plan.tempRegion slice tempIndex := by
  have htemp : context.temp tempIndex = context.plan.temp tempIndex := rfl
  unfold tempRegion tempPtr PipelinePlan.tempRegion
  simp only [htemp]
  cases (context.plan.temp tempIndex).storage <;> simp only

def tempLocs (slice tempIndex : ℕ) : Set Loc := (context.tempRegion slice tempIndex).locs

/-- The index of the first stage's temporary. -/
def firstTemp : ℕ := if context.stagesInput then 1 else 0

/-- A temporary the slices share slot by slot. -/
def InRing (tempIndex : ℕ) : Prop := (context.temp tempIndex).storage = .rawRing

end PipelineContext

/-! ## The user's buffers -/

/-- The buffers are in place in the way a layout provides for. -/
def InPlaceLayout.Matches (input inputChunks output outputChunks rawChunkBytes rank : ℕ) :
    InPlaceLayout → Prop
  | .none => False
  | .sameBuffer => inputChunks = outputChunks ∧ input = output
  | .inputRankChunk => inputChunks = 1 ∧ input = output + rawChunkBytes * rank
  | .outputRankChunk => outputChunks = 1 ∧ output = input + rawChunkBytes * rank

/-- The buffers share bytes in another way than the layout provides for. -/
def UnprovidedOverlap (layout : InPlaceLayout)
    (input inputChunks output outputChunks rawChunkBytes rank : ℕ) : Prop :=
  input < output + rawChunkBytes * outputChunks ∧ output < input + rawChunkBytes * inputChunks ∧
    ¬ layout.Matches input inputChunks output outputChunks rawChunkBytes rank

theorem requireSerial_spec {input inputChunks output outputChunks rawChunkBytes rank : ℕ}
    {layout : InPlaceLayout} {requireSerial : Bool}
    (h : cocclPipelineUserBuffersRequireSerial input inputChunks output outputChunks rawChunkBytes
      rank layout = .ok requireSerial) :
    rawChunkBytes * inputChunks ≤ sizeMax - input ∧ (requireSerial = true ↔
      UnprovidedOverlap layout input inputChunks output outputChunks rawChunkBytes rank) := by
  obtain ⟨inputBytes, hin, h⟩ := bind_eq_ok.mp h
  obtain ⟨outputBytes, hout, h⟩ := bind_eq_ok.mp h
  obtain ⟨rfl, -⟩ := mul_eq_some.mp (orElse_eq_ok.mp hin)
  obtain ⟨rfl, -⟩ := mul_eq_some.mp (orElse_eq_ok.mp hout)
  obtain ⟨hfits, h⟩ := ite_error_eq_ok.mp h
  refine ⟨by omega, ?_⟩
  unfold UnprovidedOverlap
  split at h
  · obtain rfl := Except.ok.inj h
    constructor
    · nofun
    · omega
  · rename_i hoverlap
    rw [not_or, not_le, not_le] at hoverlap
    rw [and_iff_right hoverlap.1, and_iff_right hoverlap.2]
    cases layout with
    | none =>
      obtain rfl := Except.ok.inj h
      exact ⟨fun _ => id, fun _ => rfl⟩
    | sameBuffer =>
      obtain rfl := Except.ok.inj h
      simp only [InPlaceLayout.Matches, Bool.not_eq_true', decide_eq_false_iff_not]
    | inputRankChunk | outputRankChunk =>
      obtain ⟨-, h⟩ := ite_error_eq_ok.mp h
      obtain ⟨offset, hoffset, h⟩ := bind_eq_ok.mp h
      obtain ⟨-, h⟩ := ite_error_eq_ok.mp h
      obtain ⟨rfl, -⟩ := mul_eq_some.mp (orElse_eq_ok.mp hoffset)
      obtain rfl := Except.ok.inj h
      simp only [InPlaceLayout.Matches, Bool.not_eq_true', decide_eq_false_iff_not]

/-- User buffers that do not force a serial run are apart, or a whole number of rank chunks
apart. -/
theorem userBuffers_aligned {input inputChunks output outputChunks rawChunkBytes rank : ℕ}
    {layout : InPlaceLayout} (h : cocclPipelineUserBuffersRequireSerial input inputChunks output
      outputChunks rawChunkBytes rank layout = .ok false) :
    output + rawChunkBytes * outputChunks ≤ input ∨ input + rawChunkBytes * inputChunks ≤ output ∨
      ∃ k, input = output + k * rawChunkBytes ∨ output = input + k * rawChunkBytes := by
  have h := (not_congr (requireSerial_spec h).2).mp Bool.false_ne_true
  simp only [UnprovidedOverlap, not_and_or, not_lt, not_not] at h
  refine h.imp_right (Or.imp_right fun h => ?_)
  cases layout with
  | none => exact h.elim
  | sameBuffer => exact ⟨0, .inl (by simpa using h.2)⟩
  | inputRankChunk => exact ⟨rank, .inl (by rw [h.2, mul_comm])⟩
  | outputRankChunk => exact ⟨rank, .inr (by rw [h.2, mul_comm])⟩

/-- Rows of two slices that are disjoint parts of a rank chunk are disjoint. -/
theorem rows_apart {a b p q B x y : ℕ} (hx : x < B) (hy : y < B) (hxy : x ≠ y)
    (hk : ∃ k, a = b + k * B ∨ b = a + k * B) : a + p * B + x ≠ b + q * B + y := by
  intro heq
  have hmod : ∀ {m n}, x + m * B = y + n * B → x = y := fun h => by
    simpa [Nat.mod_eq_of_lt hx, Nat.mod_eq_of_lt hy] using congrArg (· % B) h
  obtain ⟨k, rfl | rfl⟩ := hk
  · exact hxy (hmod (show x + (k + p) * B = y + q * B by linarith [add_mul k p B]))
  · exact hxy (hmod (show x + p * B = y + (k + q) * B by linarith [add_mul k q B]))

section

variable {κ : Type} [DecidableEq κ] {plugins : κ → Plugin} {spec : PipelineSpec κ}
  {requestedDepth : ℤ} {context : PipelineContext κ} {chunks : List ℕ} {requireSerial : Bool}
  {logical : PipelinePlan}

namespace Prepared

variable {i : ℕ} {item : TempPlan}

omit [DecidableEq κ] in
theorem temp_eq (h : context.plan.temps[i]? = some item) : context.temp i = item := by
  simp [temp, getD_eq_getElem?_getD, h]

variable {s : ℕ} {outputs : List (PlannedEdge κ)} {k : ℕ}

omit [DecidableEq κ] in
theorem outputBytes_eq (hbytes : context.sliceStageOutputBytes[s]? = some (outputs.map (·.bytes)))
    {output : PlannedEdge κ} (hk : outputs[k]? = some output) :
    context.outputBytes s k = output.bytes := by
  simp [outputBytes, getD_eq_getElem?_getD, hbytes, hk]

variable (P : Prepared plugins spec requestedDepth context chunks requireSerial logical)

include P

/-- Temporaries of different slices meet only in a slot of one ring. -/
theorem tempLocs_disjoint {t i j : ℕ} (hst : s ≠ t) (hi : i < context.plan.temps.length)
    (hj : j < context.plan.temps.length)
    (hring : ¬(context.InRing i ∧ i = j ∧ rawSlot s = rawSlot t)) :
    Disjoint (context.tempLocs s i) (context.tempLocs t j) := by
  rw [tempLocs, tempLocs, context.tempRegion_eq, context.tempRegion_eq]
  exact Region.disjoint_of_le (P.layout.slices_apart hst hi hj hring)

theorem tempRegion_adjacent (s : ℕ) (hi : i + 1 < context.plan.temps.length) :
    (context.tempRegion s i).Apart (context.tempRegion s (i + 1)) := by
  rw [context.tempRegion_eq, context.tempRegion_eq]
  exact P.layout.adjacent_apart hi

/-- Neighbouring temporaries of one slice are apart. -/
theorem tempLocs_adjacent (s : ℕ) (hi : i + 1 < context.plan.temps.length) :
    Disjoint (context.tempLocs s i) (context.tempLocs s (i + 1)) :=
  Region.disjoint_of_le (P.tempRegion_adjacent s hi)

/-- Only the boundary temporaries of the split layout lie in rings. -/
theorem inRing_boundary (hi : i < context.plan.temps.length) (hring : context.InRing i) :
    context.plan.workspaceKind = .split ∧
      (context.plan.inputStagingTemp = some i ∨ context.plan.outputStagingTemp = some i) := by
  obtain ⟨hkind, hboundary⟩ := P.layout.ring i (context.temp i) (by simp [temp, hi]) hring
  exact ⟨hkind, by simpa [boundaryTemp] using hboundary⟩

/-! ## The temporaries of the stages -/

theorem depth_pos : 0 < context.depth ∧ context.depth ≤ spec.rawChunkCount := by
  rw [P.depth_eq]
  split
  · exact ⟨one_pos, P.valid.rawChunkCount_pos⟩
  · exact pipelineDepth_pos P.valid.rawChunkCount_pos

theorem zip_ne : spec.stages.zip chunks ≠ [] := by
  intro hnil
  have hlen := congrArg List.length hnil
  rw [length_zip, stageChunks_length P.chunks_eq, min_self, length_nil] at hlen
  exact P.valid.stages_ne (length_eq_zero_iff.mp hlen)

/-- The plan of a slice, with its edges. -/
theorem slicePlan (hs : s < context.depth) : ∃ plan input final outputs,
      SlicePlan plugins spec context.depth context.stageContext.inputLayout chunks
        (exactSlice spec.rawChunkCount context.depth spec.typeBytes s) plan input final outputs ∧
      Covers logical plan ∧
      context.sliceStageOutputBytes[s]? = some (outputs.map (·.bytes)) ∧
      context.sliceStageFrameStrideBytes[s]? = some (stageFrameStrides plan) ∧
      outputs.length = context.stageCount := by
  obtain ⟨plan, hplan, hcovers, hbytes, hstrides⟩ := P.plans s hs
  obtain ⟨input, final, outputs, hslice⟩ := buildLogicalPlan_spec P.zip_ne hplan
  refine ⟨plan, input, final, outputs, hslice, hcovers, ?_, hstrides, ?_⟩
  · rw [hbytes, hslice.capacities]
  · rw [hslice.chain.length, length_zip, stageChunks_length P.chunks_eq, min_self,
      stageCount, P.spec_eq]

theorem stageCount_pos : 0 < context.stageCount := by
  rw [stageCount, P.spec_eq]
  exact length_pos_iff.mpr P.valid.stages_ne

/-- The temporaries: the staged input, one for each stage's output, except that of the last stage
where it goes to the user's buffer. -/
structure TempShape (context : PipelineContext κ) : Prop where
  inputStagingTemp : context.plan.inputStagingTemp =
    if context.stagesInput then some 0 else none
  outputStagingTemp : context.plan.outputStagingTemp =
    if context.stagesOutput then some (context.firstTemp + context.stageCount - 1) else none
  temps_length : context.plan.temps.length =
    context.firstTemp + (context.stageCount - if context.stagesOutput then 0 else 1)
  outputTemp : ∀ k < context.stageCount, context.outputTemp k =
    if k + 1 < context.stageCount ∨ context.stagesOutput then some (context.firstTemp + k) else none

theorem stagesInput_iff : context.stagesInput = true ↔
      StagesInput spec context.depth context.stageContext.inputLayout := by
  obtain ⟨plan, input, final, outputs, hslice, hcovers, -⟩ := P.slicePlan P.depth_pos.1
  rw [stagesInput, P.layout.inputStagingTemp, hcovers.inputStagingTemp, hslice.inputStagingTemp]
  split_ifs <;> simp_all

theorem stagesOutput_iff :
    context.stagesOutput = true ↔ 1 < context.depth ∧ 1 < context.plan.finalChunks := by
  obtain ⟨plan, input, final, outputs, hslice, hcovers, -⟩ := P.slicePlan P.depth_pos.1
  rw [stagesOutput, P.layout.outputStagingTemp, hcovers.outputStagingTemp,
    hslice.outputStagingTemp, P.layout.finalChunks, hcovers.finalChunks, hslice.finalChunks]
  show _ ↔ StagesOutput context.depth final
  split_ifs <;> simp_all

theorem firstTemp_eq : context.firstTemp =
      if StagesInput spec context.depth context.stageContext.inputLayout then 1 else 0 := by
  unfold firstTemp
  simp only [P.stagesInput_iff]

theorem tempShape : TempShape context := by
  obtain ⟨plan, input, final, outputs, hslice, hcovers, -, -, hlen⟩ := P.slicePlan P.depth_pos.1
  have hfinal : context.stagesOutput = true ↔ StagesOutput context.depth final := by
    rw [P.stagesOutput_iff, P.layout.finalChunks, hcovers.finalChunks, hslice.finalChunks]
    rfl
  have htemps : context.plan.temps.length = plan.temps.length := by
    rw [← hcovers.temps_length]
    exact P.layout.temps_length
  have hcount : plan.temps.length = context.firstTemp +
      (context.stageCount - if context.stagesOutput then 0 else 1) := by
    rw [hslice.temps_length, P.firstTemp_eq, hlen]
    simp only [hfinal]
  have hpos := P.stageCount_pos
  refine ⟨?_, ?_, htemps.trans hcount, fun k hk => ?_⟩
  · rw [P.layout.inputStagingTemp, hcovers.inputStagingTemp, hslice.inputStagingTemp]
    simp only [P.stagesInput_iff]
  · rw [P.layout.outputStagingTemp, hcovers.outputStagingTemp, hslice.outputStagingTemp, hcount]
    simp only [hfinal]
    split_ifs
    · congr 1
    · rfl
  · rw [outputTemp, P.layout.stageOutputTemp, hcovers.stageOutputTemp,
      hslice.stageOutputTemp, getD_eq_getElem?_getD, outputTemps_getElem?, hlen, if_pos hk,
      Option.getD_some, ← P.firstTemp_eq, hcount]
    by_cases hs : context.stagesOutput = true
    · rw [if_pos (by simp [hs]; omega), if_pos (Or.inr hs)]
    · by_cases hk' : k + 1 < context.stageCount
      · rw [if_pos (by simp [hs]; omega), if_pos (Or.inl hk')]
      · rw [if_neg (by simp [hs]; omega), if_neg (by simp [hs, hk'])]

/-! ## What the temporaries hold -/

/-- A pipeline whose only temporary is its staged input has no rings. -/
theorem workspaceKind_unified (hone : context.stageCount = 1) (hin : context.stagesInput = true)
    (hout : context.stagesOutput = false) : context.plan.workspaceKind ≠ .split := by
  intro hsplit
  obtain ⟨i, hi, hb⟩ := P.layout.core hsplit
  have hshape := P.tempShape
  have hlen := hshape.temps_length
  have hsame := P.layout.temps_length
  have hfirst : context.firstTemp = 1 := by simp [firstTemp, hin]
  rw [hone, hout, hfirst] at hlen
  obtain rfl : i = 0 := by
    simp at hlen
    omega
  have hstaging := hshape.inputStagingTemp
  rw [if_pos hin, P.layout.inputStagingTemp] at hstaging
  simp [boundaryTemp, hstaging] at hb

variable {plan : PipelinePlan}

/-- A placed temporary is as large as the one planned for any slice. -/
theorem temp_covers (hcovers : Covers logical plan) (hi : plan.temps[i]? = some item) :
    i < context.plan.temps.length ∧ (context.temp i).WellSized ∧
      item.payloadBytes ≤ (context.temp i).payloadBytes ∧
      (context.temp i).frameMetadataBytes = item.frameMetadataBytes := by
  obtain ⟨cover, hcover, hsized, hpayload, hframes⟩ := hcovers.temps i item hi
  obtain ⟨storage, offset, hplaced⟩ := P.layout.temps i
  rw [hcover, Option.map_some] at hplaced
  rw [temp_eq hplaced]
  exact ⟨(List.getElem?_eq_some_iff.mp hplaced).1, ⟨hsized.payload_le, hsized.metadata_le⟩,
    hpayload, hframes⟩

variable {s k t : ℕ}

/-- The temporary of a stage's output in the plan of one slice. -/
theorem stageTempFor {input final output : PlannedEdge κ} (hslice : SlicePlan plugins spec
      context.depth context.stageContext.inputLayout chunks (exactSlice spec.rawChunkCount
      context.depth spec.typeBytes s) plan input final outputs) (hcovers : Covers logical plan)
    (hlen : outputs.length = context.stageCount) (houtput : outputs[k]? = some output)
    (ht : context.outputTemp k = some t) :
    t = context.firstTemp + k ∧ t < context.plan.temps.length ∧ (context.temp t).WellSized ∧
      ∃ item, plan.temps[t]? = some item ∧ TempFor output item ∧
        item.payloadBytes ≤ (context.temp t).payloadBytes ∧
        (context.temp t).frameMetadataBytes = item.frameMetadataBytes := by
  have hfinal : context.stagesOutput = true ↔ StagesOutput context.depth final := by
    rw [P.stagesOutput_iff, P.layout.finalChunks, hcovers.finalChunks, hslice.finalChunks]
    rfl
  have hk : k < context.stageCount := hlen ▸ (List.getElem?_eq_some_iff.mp houtput).1
  rw [P.tempShape.outputTemp k hk] at ht
  split_ifs at ht with hcond
  obtain rfl := Option.some.inj ht
  obtain ⟨item, hitem, htempFor⟩ := hslice.stageTemp houtput (by rw [hlen, ← hfinal]; exact hcond)
  rw [← P.firstTemp_eq] at hitem
  obtain ⟨hlt, hsized, hpayload, hframes⟩ := P.temp_covers hcovers hitem
  exact ⟨rfl, hlt, hsized, item, hitem, htempFor, hpayload, hframes⟩

variable (hs : s < context.depth) (hk : k < context.stageCount)

include hs hk

/-- The temporary of a stage's output: it exists, and its payload holds the output of any slice. -/
theorem stageTemp (ht : context.outputTemp k = some t) :
    t = context.firstTemp + k ∧ t < context.plan.temps.length ∧ (context.temp t).WellSized ∧
      context.outputBytes s k ≤ (context.temp t).payloadBytes := by
  obtain ⟨plan, input, final, outputs, hslice, hcovers, hbytes, -, hlen⟩ := P.slicePlan hs
  have houtput : outputs[k]? = some (outputs.get ⟨k, by omega⟩) := by simp
  obtain ⟨hindex, hlt, hsized, item, -, htempFor, hpayload, -⟩ :=
    P.stageTempFor hslice hcovers hlen houtput ht
  refine ⟨hindex, hlt, hsized, ?_⟩
  rw [outputBytes_eq hbytes houtput, ← htempFor.payloadBytes]
  exact hpayload

theorem payload_subset (ht : context.outputTemp k = some t) :
    context.payloadLocs s k ⊆ context.tempLocs s t := by
  obtain ⟨-, -, hsized, hle⟩ := P.stageTemp hs hk ht
  unfold payloadLocs payload
  rw [ht]
  have := hsized.payload_le
  exact Region.subset_of_le rfl le_rfl (by simp only [tempRegion]; omega)

theorem frames_subset (ht : context.outputTemp k = some t) :
    context.frameLocs s k ⊆ context.tempLocs s t := by
  obtain ⟨-, -, hsized, -⟩ := P.stageTemp hs hk ht
  unfold frameLocs frameMetadata
  rw [ht]
  simp only
  by_cases hzero : (context.temp t).frameMetadataBytes = 0
  · simp [hzero]
  · rw [if_neg hzero]
    have := hsized.metadata_le hzero
    exact Region.subset_of_le rfl (by simp only [tempRegion]; omega)
      (by simp only [tempRegion]; omega)

/-- The metadata of an output lies behind its payload. -/
theorem payload_frames_disjoint : Disjoint (context.payloadLocs s k) (context.frameLocs s k) := by
  rcases ht : context.outputTemp k with _ | t
  · simp [frameLocs, frameMetadata, ht]
  · obtain ⟨-, -, hsized, hle⟩ := P.stageTemp hs hk ht
    unfold payloadLocs payload frameLocs frameMetadata
    rw [ht]
    simp only
    by_cases hzero : (context.temp t).frameMetadataBytes = 0
    · simp [hzero]
    · rw [if_neg hzero]
      have := hsized.metadata_le hzero
      exact Region.disjoint_of_le (.inr (.inl (by simp only; omega)))

omit hk

/-- The input of a slice, all its chunks, is within range. -/
theorem inputBytes_eq :
    context.slice s = exactSlice spec.rawChunkCount context.depth spec.typeBytes s ∧
      context.inputBytes s = (context.slice s).bytes * spec.inputChunks := by
  obtain ⟨plan, input, final, outputs, hslice, -⟩ := P.slicePlan hs
  have hshape : context.slice s =
      exactSlice spec.rawChunkCount context.depth spec.typeBytes s := by
    simp [slice, P.slices, getD_eq_getElem?_getD, hs]
  refine ⟨hshape, ?_⟩
  obtain ⟨-, hle, -⟩ := planRawEdge_eq hslice.input_eq
  rw [inputBytes, P.spec_eq, hshape, sizeMul_eq hle]

theorem packed_subset {t : ℕ} (ht : context.plan.inputStagingTemp = some t) :
    t = 0 ∧ 0 < context.plan.temps.length ∧
      (context.packedInput s t).locs ⊆ context.tempLocs s t := by
  obtain ⟨plan, input, final, outputs, hslice, hcovers, -⟩ := P.slicePlan hs
  have hin : StagesInput spec context.depth context.stageContext.inputLayout :=
    P.stagesInput_iff.mp (by simp [stagesInput, ht])
  rw [P.layout.inputStagingTemp, hcovers.inputStagingTemp, hslice.inputStagingTemp,
    if_pos hin] at ht
  obtain rfl := Option.some.inj ht
  obtain ⟨item, hitem, htempFor⟩ := hslice.inputTemp hin
  obtain ⟨hlt, hsized, hpayload, -⟩ := P.temp_covers hcovers hitem
  obtain ⟨hshape, hbytes⟩ := P.inputBytes_eq hs
  obtain ⟨rfl, -⟩ := planRawEdge_eq hslice.input_eq
  have hle := hsized.payload_le
  have hinput := htempFor.payloadBytes
  simp only at hinput
  rw [hshape] at hbytes
  refine ⟨rfl, hlt, Region.subset_of_le rfl le_rfl ?_⟩
  simp only [tempRegion, packedInput]
  omega

/-! ## The rows of the slices -/

omit hs

theorem requireSerial_eq (hdepth : 1 < context.depth) : requireSerial = false := by
  have := P.depth_eq
  by_contra hne
  rw [Bool.not_eq_false] at hne
  rw [if_pos hne] at this
  omega

/-- The chunks of the last stage's output, as the test on the user buffers counts them. -/
theorem finalChunks_eq : context.plan.finalChunks = chunks.getLastD spec.inputChunks := by
  obtain ⟨plan, input, final, outputs, hslice, hcovers, -⟩ := P.slicePlan P.depth_pos.1
  rw [P.layout.finalChunks, hcovers.finalChunks, hslice.finalChunks]
  have hlast := hslice.last
  have hlen := stageChunks_length P.chunks_eq
  have hchunks := hslice.chain.chunks_eq
  rw [map_snd_zip (by omega)] at hchunks
  rw [← hchunks, getLastD_eq_getLast?, getLast?_map, hlast]
  rfl

/-- The rows one slice packs and the rows another one unpacks to are apart. -/
theorem rows_disjoint (hdepth : 1 < context.depth) {t : ℕ} (hs : s < context.depth)
    (ht : t < context.depth) (hst : s ≠ t) :
    Disjoint (context.outputRows s) (context.inputRows t) := by
  have hserial := P.serial
  rw [P.requireSerial_eq hdepth, ← P.finalChunks_eq, P.rawChunkBytes] at hserial
  have haligned := userBuffers_aligned hserial
  obtain ⟨hshapeS, -⟩ := P.inputBytes_eq hs
  obtain ⟨hshapeT, -⟩ := P.inputBytes_eq ht
  have hendS := @exactSlice_end_le spec.rawChunkCount context.depth spec.typeBytes s hs
  have hendT := @exactSlice_end_le spec.rawChunkCount context.depth spec.typeBytes t ht
  rw [← hshapeS] at hendS
  rw [← hshapeT] at hendT
  have hparts : (context.slice s).byteOffset + (context.slice s).bytes ≤
        (context.slice t).byteOffset ∨
      (context.slice t).byteOffset + (context.slice t).bytes ≤ (context.slice s).byteOffset := by
    rw [hshapeS, hshapeT]
    rcases lt_or_gt_of_ne hst with hlt | hlt
    · exact .inl (exactSlice_le hlt ht)
    · exact .inr (exactSlice_le hlt hs)
  refine Set.disjoint_left.mpr ?_
  rintro ⟨space, l⟩ ⟨-, c, hc, hlo, hhi⟩ ⟨-, c', hc', hlo', hhi'⟩
  rw [P.rawChunkBytes, P.spec_eq] at hlo hhi hlo' hhi'
  rw [P.spec_eq] at hc'
  generalize spec.rawChunkCount * spec.typeBytes = B at *
  simp only at hlo hhi hlo' hhi'
  rcases haligned with hle | hle | hk
  · have := @Blocks.mul_add_le _ B _ hc
    rw [mul_comm context.plan.finalChunks] at this
    omega
  · have := @Blocks.mul_add_le _ B _ hc'
    rw [mul_comm spec.inputChunks] at this
    omega
  · -- both rows hold `l` at their own offset into the rank chunk
    set x := l - (spec.output + c * B) with hx
    set y := l - (spec.input + c' * B) with hy
    refine @rows_apart spec.output spec.input c c' B x y (by omega) (by omega) (by omega) ?_ ?_
    · obtain ⟨k, h | h⟩ := hk
      · exact ⟨k, .inr h⟩
      · exact ⟨k, .inl h⟩
    · omega

end Prepared

end

end Coccl
