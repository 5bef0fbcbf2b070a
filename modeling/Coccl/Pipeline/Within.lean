import Coccl.Pipeline.Simulation

/-!
# The buffers of a running slice

The temporaries of neighbouring stages are apart, the workspace is apart from the user's buffers,
and the rows of a slice stay inside them, so the check in front of a stage never finds its input and
its output to meet.
-/

namespace Coccl

open Checked PipelineContext List Option PipelineWorkspace

/-! ## Address ranges -/

/-- Two address ranges that do not meet. -/
def Apart (first firstBytes second secondBytes : ℕ) : Prop :=
  first + firstBytes ≤ second ∨ second + secondBytes ≤ first

theorem Apart.mono {a m b n a' m' b' n' : ℕ} (h : Apart a m b n) (ha : a ≤ a')
    (ham : a' + m' ≤ a + m) (hb : b ≤ b') (hbn : b' + n' ≤ b + n) : Apart a' m' b' n' := by
  unfold Apart at *
  omega

theorem Apart.symm {a m b n : ℕ} (h : Apart a m b n) : Apart b n a m := Or.symm h

theorem buffersOverlap_eq_false {first firstBytes second secondBytes : ℕ}
    (h : Apart first firstBytes second secondBytes) (hfirst : first + firstBytes ≤ sizeMax)
    (hsecond : second + secondBytes ≤ sizeMax) :
    buffersOverlap first firstBytes second secondBytes = false := by
  unfold Apart at h
  rw [buffersOverlap, sizeAdd_eq hfirst, sizeAdd_eq hsecond, decide_eq_false_iff_not]
  omega

/-- The bytes of a memory of the workspace. -/
def PipelineContext.workspaceBytes {κ : Type} (context : PipelineContext κ) : Space → ℕ
  | .user => 0
  | .registered => context.plan.registeredBytes
  | .raw => context.plan.rawBytes

section

variable {κ : Type} [DecidableEq κ] {plugins : κ → Plugin} {spec : PipelineSpec κ}
  {requestedDepth : ℤ} {context : PipelineContext κ} {chunks : List ℕ} {requireSerial : Bool}
  {logical : PipelinePlan} (workspace : PipelineWorkspace context)

namespace Prepared

/-- The rows of a slice end inside the chunks they are cut from. -/
theorem rows_end_le {offset bytes pitch count : ℕ} (h : offset + bytes ≤ pitch)
    (hcount : 0 < count) : offset + ((count - 1) * pitch + bytes) ≤ pitch * count := by
  obtain ⟨n, rfl⟩ : ∃ n, count = n + 1 := ⟨count - 1, by omega⟩
  calc offset + ((n + 1 - 1) * pitch + bytes) = n * pitch + (offset + bytes) := by
        rw [Nat.add_sub_cancel]
        ring
    _ ≤ n * pitch + pitch := by omega
    _ = pitch * (n + 1) := by ring

variable (P : Prepared plugins spec requestedDepth context chunks requireSerial logical)

include P

/-- A temporary lies inside one of the two memories of the workspace. -/
theorem tempRegion_inside {s i : ℕ} (hs : s < context.depth) (hi : i < context.plan.temps.length) :
    (context.tempRegion s i).space ≠ .user ∧
      (context.tempRegion s i).start + (context.tempRegion s i).bytes ≤
        context.workspaceBytes (context.tempRegion s i).space := by
  have hitem : context.plan.temps[i]? = some (context.temp i) := by
    simp [temp, hi]
  unfold tempRegion tempPtr
  simp only
  cases hstorage : (context.temp i).storage with
  | registeredArena =>
    have hin := P.layout.inside i _ hitem hstorage
    have hslice := @Blocks.mul_add_le _ context.plan.registeredSliceBytes _ hs
    rw [mul_comm context.depth, ← P.inside.registered] at hslice
    exact ⟨by simp, by simp only [workspaceBytes]; omega⟩
  | rawRing =>
    have hring := P.inside.ring i _ hitem hstorage
    have hslot : s % kCocclPipelineRawRingSlots ≤ 1 :=
      Nat.le_of_lt_succ (Nat.mod_lt _ (by decide))
    have hle := Nat.mul_le_mul_right (context.temp i).alignedBytes hslot
    refine ⟨by simp, ?_⟩
    simp only [workspaceBytes, kCocclPipelineRawRingSlots] at hring hle ⊢
    omega

/-- The address range of a temporary is inside the range of its memory. -/
theorem tempAddress_inside {s i : ℕ} (hs : s < context.depth) (hi : i < context.plan.temps.length) :
    ∃ base bytes, ((base, bytes) = (workspace.registeredBase, context.plan.registeredBytes) ∨
        (base, bytes) = (workspace.rawBase, context.plan.rawBytes)) ∧
      base + bytes ≤ sizeMax ∧ base ≤ workspace.address (context.tempPtr s i) ∧
      workspace.address (context.tempPtr s i) + (context.temp i).alignedBytes ≤ base + bytes := by
  obtain ⟨hspace, hle⟩ := P.tempRegion_inside hs hi
  unfold address
  simp only [tempRegion] at hspace hle
  cases hcase : (context.tempPtr s i).1 with
  | user => exact absurd hcase hspace
  | registered =>
    rw [hcase] at hle
    simp only [workspaceBytes] at hle
    exact ⟨_, _, .inl rfl, workspace.registered_end, Nat.le_add_right _ _,
      by simp only [base]; omega⟩
  | raw =>
    rw [hcase] at hle
    simp only [workspaceBytes] at hle
    exact ⟨_, _, .inr rfl, workspace.raw_end, Nat.le_add_right _ _, by simp only [base]; omega⟩

theorem tempAddress_le {s i : ℕ} (hs : s < context.depth) (hi : i < context.plan.temps.length) :
    workspace.address (context.tempPtr s i) + (context.temp i).alignedBytes ≤ sizeMax := by
  obtain ⟨base, bytes, -, hend, -, hle⟩ := P.tempAddress_inside workspace hs hi
  exact hle.trans hend

/-- Neighbouring temporaries are apart in the address space. -/
theorem tempAddress_adjacent {s i : ℕ} (hs : s < context.depth)
    (hi : i + 1 < context.plan.temps.length) :
    Apart (workspace.address (context.tempPtr s i)) (context.temp i).alignedBytes
      (workspace.address (context.tempPtr s (i + 1))) (context.temp (i + 1)).alignedBytes := by
  obtain ⟨hspace, hle⟩ := P.tempRegion_inside hs (show i < context.plan.temps.length by omega)
  obtain ⟨hspace', hle'⟩ := P.tempRegion_inside hs hi
  have hadjacent := P.tempRegion_adjacent s hi
  have happart := workspace.workspaces
  simp only [tempRegion, Region.Apart] at hspace hle hspace' hle' hadjacent
  unfold Apart address
  cases hcase : (context.tempPtr s i).1 <;> cases hcase' : (context.tempPtr s (i + 1)).1 <;>
    simp only [hcase, hcase', workspaceBytes, base, ne_eq,
      reduceCtorEq, not_false_eq_true, not_true_eq_false, false_or] at * <;> omega

/-! ## The user's buffers -/

/-- A slice is a part of a rank chunk. -/
theorem slice_end_le {s : ℕ} (hs : s < context.depth) :
    (context.slice s).byteOffset + (context.slice s).bytes ≤
      context.stageContext.rawChunkBytes := by
  rw [(P.inputBytes_eq hs).1, P.rawChunkBytes]
  exact exactSlice_end_le hs

theorem rawChunkBytes_pos : 0 < context.stageContext.rawChunkBytes := by
  rw [P.rawChunkBytes]
  have htype := P.valid.typeBytes_pos
  exact mul_pos P.valid.rawChunkCount_pos (by unfold PipelineSpec.typeBytes; omega)

/-- The user's input ends inside the address space. -/
theorem input_end :
    spec.input + context.stageContext.rawChunkBytes * spec.inputChunks ≤ sizeMax := by
  have hfits := (requireSerial_spec P.serial).1
  have := mul_pos P.rawChunkBytes_pos P.valid.inputChunks_pos
  omega

theorem pitchedSpan_eq {s count : ℕ} (hs : s < context.depth) (hcount : 0 < count)
    (hle : context.stageContext.rawChunkBytes * count ≤ sizeMax) :
    pitchedSpan (context.stageContextForSlice s) count =
      (count - 1) * context.stageContext.rawChunkBytes + (context.slice s).bytes := by
  have hrows := rows_end_le (P.slice_end_le hs) hcount
  have hprod : sizeMul (count - 1) context.stageContext.rawChunkBytes =
      (count - 1) * context.stageContext.rawChunkBytes := sizeMul_eq (by omega)
  show sizeAdd (sizeMul (count - 1) context.stageContext.rawChunkBytes) (context.slice s).bytes = _
  rw [hprod, sizeAdd_eq (by omega)]

/-- Rows that need no packing are consecutive: a single one, or whole chunks. -/
theorem contiguous_end_le {s count : ℕ} (hs : s < context.depth)
    (hone : count ≤ 1 ∨ context.depth ≤ 1) :
    (context.slice s).byteOffset + (context.slice s).bytes * count ≤
      context.stageContext.rawChunkBytes * max 1 count := by
  have hend := P.slice_end_le hs
  rcases hone with hle | hdepth
  · rw [max_eq_left hle, mul_one]
    have := Nat.mul_le_mul_left (context.slice s).bytes hle
    omega
  · have hzero : (context.slice s).byteOffset = 0 := by
      rw [(P.inputBytes_eq hs).1]
      simp [exactSlice, show s = 0 by omega]
    rw [hzero, Nat.zero_add] at hend ⊢
    exact Nat.mul_le_mul hend (Nat.le_max_right _ _)

end Prepared

end

/-! ## A slice and its plan -/

section

variable {κ : Type} [DecidableEq κ] (plugins : κ → Plugin) (spec : PipelineSpec κ)

/-- What the stages of a collective have in common: there are two at least, none packs or unpacks,
the last leaves raw data, and every all-to-all splits its chunks evenly. -/
structure PipelineSpec.Regular : Prop where
  two_le : 2 ≤ spec.stages.length
  listed : ∀ stage ∈ spec.stages, stage ≠ .pack ∧ stage ≠ .unpack
  raw : spec.stages.foldl carriedCompressor none = none
  splits : Splits spec.stages spec.inputChunks

omit [DecidableEq κ] in
/-- The temporary of an output holds it, and behind it the metadata of its frames. -/
structure TempHolds (temp : TempPlan) (output : PlannedEdge κ) : Prop where
  bytes_le : output.bytes ≤ temp.alignedBytes
  frameMetadataBytes : temp.frameMetadataBytes =
    if output.framed then output.logicalChunks * frameMetadataSize else 0
  metadata_behind : temp.frameMetadataBytes ≠ 0 → output.bytes ≤ temp.frameMetadataOffset ∧
    temp.frameMetadataOffset + temp.frameMetadataBytes ≤ temp.alignedBytes

/-- The plan of one slice of a prepared pipeline that leaves raw data. -/
structure SliceRun (context : PipelineContext κ) (chunks : List ℕ) (logical : PipelinePlan) (s : ℕ)
    (plan : PipelinePlan) (input final : PlannedEdge κ) (outputs : List (PlannedEdge κ)) :
    Prop where
  slice_lt : s < context.depth
  slicePlan : SlicePlan plugins spec context.depth context.stageContext.inputLayout chunks
    (exactSlice spec.rawChunkCount context.depth spec.typeBytes s) plan input final outputs
  covers : Covers logical plan
  bytes : context.sliceStageOutputBytes[s]? = some (outputs.map (·.bytes))
  strides : context.sliceStageFrameStrideBytes[s]? = some (stageFrameStrides plan)
  length : outputs.length = context.stageCount
  raw : spec.stages.foldl carriedCompressor none = none

variable {plugins spec} {requestedDepth : ℤ} {context : PipelineContext κ} {chunks : List ℕ}
  {requireSerial : Bool} {logical : PipelinePlan} {s : ℕ} {plan : PipelinePlan}
  {input final : PlannedEdge κ} {outputs : List (PlannedEdge κ)}
  (P : Prepared plugins spec requestedDepth context chunks requireSerial logical)

include P in
theorem Prepared.sliceRun
    (hraw : spec.stages.foldl carriedCompressor none = none) (hs : s < context.depth) :
    ∃ plan input final outputs,
      SliceRun plugins spec context chunks logical s plan input final outputs := by
  obtain ⟨plan, input, final, outputs, hslice, hcovers, hbytes, hstrides, hlen⟩ := P.slicePlan hs
  exact ⟨plan, input, final, outputs, hs, hslice, hcovers, hbytes, hstrides, hlen, hraw⟩

namespace SliceRun

variable (R : SliceRun plugins spec context chunks logical s plan input final outputs)
include R P

theorem slice_eq : exactSlice spec.rawChunkCount context.depth spec.typeBytes s = context.slice s :=
  (P.inputBytes_eq R.slice_lt).1.symm

theorem input_eq : input = ⟨(context.slice s).bytes * spec.inputChunks,
      (context.slice s).elementCount * spec.inputChunks, spec.datatype, spec.inputChunks, none,
      false, 0⟩ := by
  rw [← R.slice_eq P]
  exact (planRawEdge_eq R.slicePlan.input_eq).1

theorem stageChunks_eq : stageChunks spec.stages input.logicalChunks = .ok chunks := by
  rw [R.slicePlan.input_framed.2]
  exact P.chunks_eq

variable {output : PlannedEdge κ} {k : ℕ}

theorem step (hk : outputs[k]? = some output) :
    ∃ stage previous outputChunks, spec.stages[k]? = some stage ∧
      (input :: outputs)[k]? = some previous ∧
      PlannedStep plugins spec.datatype (context.slice s) stage previous output outputChunks := by
  have hchain := R.slicePlan.chain
  rw [R.slice_eq P] at hchain
  refine hchain.step ?_ (R.stageChunks_eq P) hk
  rw [R.input_eq P]
  exact ⟨fun _ => ⟨rfl, rfl, rfl⟩, nofun⟩

omit P in
theorem last : (input :: outputs).getLast? = some final := by
  rw [getLast?_cons, R.slicePlan.last]
  rfl

/-- The last output is raw, and what the pipeline leaves in the user's buffer. -/
theorem final_raw : final.framed = false ∧ final.frameStrideBytes = 0 ∧
      final.bytes = (context.slice s).bytes * context.plan.finalChunks := by
  have hlast := R.slicePlan.last
  have hcompressor := R.slicePlan.chain.last_compressor (stageChunks_length P.chunks_eq).ge R.last
  have hinput : input.compressor = none := by rw [R.input_eq P]
  rw [hinput, R.raw] at hcompressor
  rw [getLast?_eq_getElem?] at hlast
  obtain ⟨_, _, _, -, -, hstep⟩ := R.step P hlast
  have hchunks : context.plan.finalChunks = final.logicalChunks := by
    rw [P.layout.finalChunks, R.covers.finalChunks, R.slicePlan.finalChunks]
  rw [hchunks]
  exact hstep.shaped.raw hcompressor

/-- An output that goes to the user's buffer is the last one. -/
theorem output_final (hk : outputs[k]? = some output) (htemp : context.outputTemp k = none) :
    k + 1 = context.stageCount ∧ context.stagesOutput = false ∧ output = final := by
  have hlt : k < context.stageCount := R.length ▸ (List.getElem?_eq_some_iff.mp hk).1
  rw [P.tempShape.outputTemp k hlt] at htemp
  split_ifs at htemp with hcond
  obtain ⟨hlast, hstages⟩ := not_or.mp hcond
  have hindex : k + 1 = context.stageCount := by omega
  have hfinal := R.slicePlan.last
  rw [getLast?_eq_getElem?, R.length, ← hindex, Nat.add_sub_cancel, hk] at hfinal
  exact ⟨hindex, by simpa using hstages, some.inj hfinal⟩

variable {t k : ℕ}

/-- The stride of a stage's frames, as planned for the slice. -/
theorem frameStrideBytes_eq {item : TempPlan} (ht : context.outputTemp k = some t)
    (hitem : plan.temps[t]? = some item) :
    context.frameStrideBytes s k = item.frameStrideBytes := by
  have htemp : plan.stageOutputTemp[k]? = some (some t) := by
    rw [outputTemp, P.layout.stageOutputTemp, R.covers.stageOutputTemp, getD_eq_getElem?_getD] at ht
    cases hget : plan.stageOutputTemp[k]? with
    | none =>
      rw [hget] at ht
      cases ht
    | some temp =>
      rw [hget, getD_some] at ht
      rw [ht]
  simp [frameStrideBytes, R.strides, stageFrameStrides, htemp, hitem]

variable (workspace : PipelineWorkspace context)

theorem outputFor (hk : outputs[k]? = some output) :
    OutputFor output (stageOutput workspace s k) := by
  have hcapacity : context.outputBytes s k = output.bytes := Prepared.outputBytes_eq R.bytes hk
  unfold stageOutput
  cases ht : context.outputTemp k with
  | none =>
    obtain ⟨-, -, rfl⟩ := R.output_final P hk ht
    obtain ⟨hframed, hstride, -⟩ := R.final_raw P
    exact ⟨hcapacity, hframed.symm, hstride.symm⟩
  | some t =>
    obtain ⟨-, -, -, item, hitem, htempFor, -, hframes⟩ :=
      P.stageTempFor R.slicePlan R.covers R.length hk ht
    obtain ⟨_, _, _, -, -, hstep⟩ := R.step P hk
    refine ⟨hcapacity, ?_, ?_⟩
    · rw [htempFor.frameMetadataBytes] at hframes
      simp only [hframes]
      cases hframed : output.framed with
      | false => simp
      | true =>
        have hpos := hstep.shaped.framed hframed
        have hne : output.logicalChunks * frameMetadataSize ≠ 0 :=
          (mul_pos hpos (by decide)).ne'
        simp [hne]
    · exact (R.frameStrideBytes_eq P ht hitem).trans htempFor.frameStrideBytes

/-! ## Along the stages -/

omit R P in
variable (s) in
/-- Where the edge lies after the first `stages` stages. -/
def edgePtr : ℕ → ℕ
  | 0 =>
    match context.plan.inputStagingTemp with
    | some t => workspace.address (context.tempPtr s t)
    | none => context.spec.input + (context.slice s).byteOffset
  | stage + 1 => (stageOutput workspace s stage).ptr

theorem contextFor :
    ContextFor (context.slice s) spec.datatype (context.stageContextForSlice s) where
  rawSliceCount := rfl
  rawSliceBytes := rfl
  rawDatatype := P.rawDatatype
  bytes_eq := by
    rw [← R.slice_eq P]
    rfl

theorem inputEdge_simulates : Simulates input (context.inputEdgeOf s) := by
  have hbytes := (P.inputBytes_eq R.slice_lt).2
  rw [inputBytes] at hbytes
  rw [R.input_eq P]
  refine ⟨?_, ?_, rfl, rfl, rfl, ?_⟩
  · exact hbytes.le
  · show context.spec.inputChunks = spec.inputChunks
    rw [P.spec_eq]
  · show context.spec.inputChunks ∣ sizeMul _ _
    rw [hbytes, P.spec_eq]
    exact dvd_mul_left _ _

variable {edge : PipelineEdge κ}

/-- **The executor's edges follow the planner's.** -/
theorem edgeAfter_simulates {runtime : CompressorRuntime κ} (hdecodes : DecodesAsPlanned runtime)
    {framesValid : Stage κ → PipelineEdge κ → Bool} (hk : k ≤ context.stageCount)
    (h : edgeAfter plugins runtime framesValid workspace s k = .ok edge) :
    ∃ planned, (input :: outputs)[k]? = some planned ∧ Simulates planned edge ∧
      edge.ptr = edgePtr s workspace k := by
  induction k generalizing edge with
  | zero =>
    have hsim := R.inputEdge_simulates P
    refine ⟨input, rfl, ?_⟩
    unfold edgePtr
    simp only [edgeAfter, packedEdge] at h
    cases htemp : context.plan.inputStagingTemp with
    | none =>
      rw [htemp] at h
      obtain rfl := Except.ok.inj h
      exact ⟨hsim, rfl⟩
    | some t =>
      rw [htemp] at h
      obtain ⟨-, h⟩ := ite_error_eq_ok.mp h
      obtain rfl := Except.ok.inj h
      exact ⟨hsim.moved _, rfl⟩
  | succ k ih =>
    obtain ⟨before, hbefore, h⟩ := bind_eq_ok.mp h
    obtain ⟨previous, hprevious, hsim, -⟩ := ih (by omega) hbefore
    have houtput : outputs[k]? = some (outputs.get ⟨k, by have := R.length; omega⟩) := by simp
    obtain ⟨stage, previous', chunks', hstage, hprevious', hstep⟩ := R.step P houtput
    obtain rfl := some.inj (hprevious.symm.trans hprevious')
    rw [P.spec_eq, hstage] at h
    obtain ⟨-, h⟩ := ite_error_eq_ok.mp h
    refine ⟨_, houtput, ?_⟩
    exact StageHandler.handlers_simulates hdecodes (R.contextFor P) hstep.chunks hstep.plan
      (R.outputFor P workspace houtput) hsim h

/-! ## The buffers of a stage -/

/-- The staged input is the first temporary, and holds the slice's input. -/
theorem inputTemp_room (ht : context.plan.inputStagingTemp = some t) :
    t = 0 ∧ context.firstTemp = 1 ∧ t < context.plan.temps.length ∧
      input.bytes ≤ (context.temp t).alignedBytes := by
  have hstaged : context.stagesInput = true := by simp [stagesInput, ht]
  have hzero := P.tempShape.inputStagingTemp
  rw [if_pos hstaged, ht] at hzero
  obtain rfl := some.inj hzero
  obtain ⟨item, hitem, htempFor⟩ := R.slicePlan.inputTemp (P.stagesInput_iff.mp hstaged)
  obtain ⟨hlt, hsized, hpayload, -⟩ := P.temp_covers R.covers hitem
  refine ⟨rfl, ?_, hlt, ?_⟩
  · rw [firstTemp, if_pos hstaged]
  · rw [← htempFor.payloadBytes]
    exact hpayload.trans hsized.payload_le

/-- A stage's temporary holds the stage's output. -/
theorem outputTemp_room (hk : outputs[k]? = some output) (ht : context.outputTemp k = some t) :
    t = context.firstTemp + k ∧ t < context.plan.temps.length ∧ (stageOutput workspace s k).ptr =
        workspace.address (context.tempPtr s t) ∧
      output.bytes ≤ (context.temp t).alignedBytes := by
  obtain ⟨hindex, hlt, hsized, item, -, htempFor, hpayload, -⟩ :=
    P.stageTempFor R.slicePlan R.covers R.length hk ht
  refine ⟨hindex, hlt, ?_, ?_⟩
  · simp only [stageOutput, ht]
  · rw [← htempFor.payloadBytes]
    exact hpayload.trans hsized.payload_le

/-- The edge in front of a stage: in the temporary before the stage's own, or in the user's
buffer. -/
theorem edge_room (hk : k < context.stageCount)
    {planned : PlannedEdge κ} (hplanned : (input :: outputs)[k]? = some planned) :
    (∃ t, t + 1 = context.firstTemp + k ∧ t < context.plan.temps.length ∧
        edgePtr s workspace k = workspace.address (context.tempPtr s t) ∧
        planned.bytes ≤ (context.temp t).alignedBytes) ∨
      (k = 0 ∧ edgePtr s workspace k = spec.input + (context.slice s).byteOffset ∧
        (context.slice s).byteOffset + planned.bytes ≤
          context.stageContext.rawChunkBytes * spec.inputChunks) := by
  cases k with
  | zero =>
    obtain rfl := some.inj hplanned
    unfold edgePtr
    cases htemp : context.plan.inputStagingTemp with
    | none =>
      refine .inr ⟨rfl, by rw [P.spec_eq], ?_⟩
      have hnot : ¬StagesInput spec context.depth context.stageContext.inputLayout := by
        rw [← P.stagesInput_iff]
        simp [stagesInput, htemp]
      have hpos := P.valid.inputChunks_pos
      have hone : spec.inputChunks ≤ 1 ∨ context.depth ≤ 1 := by
        unfold StagesInput at hnot
        omega
      have hend := P.contiguous_end_le R.slice_lt hone
      rw [max_eq_right hpos] at hend
      rw [R.input_eq P]
      exact hend
    | some t =>
      obtain ⟨rfl, hfirst, hlt, hroom⟩ := R.inputTemp_room P htemp
      exact .inl ⟨0, hfirst.symm, hlt, rfl, hroom⟩
  | succ k =>
    have hshape := P.tempShape.outputTemp k (by omega)
    rw [if_pos (.inl hk)] at hshape
    obtain ⟨-, hlt, hptr, hroom⟩ := R.outputTemp_room P workspace hplanned hshape
    exact .inl ⟨context.firstTemp + k, rfl, hlt, hptr, hroom⟩

/-- The output of a stage: in the stage's temporary, or in the user's buffer. -/
theorem output_room (hk : outputs[k]? = some output) :
    (context.firstTemp + k < context.plan.temps.length ∧ (stageOutput workspace s k).ptr =
          workspace.address (context.tempPtr s (context.firstTemp + k)) ∧
        output.bytes ≤ (context.temp (context.firstTemp + k)).alignedBytes) ∨
      (k + 1 = context.stageCount ∧ (stageOutput workspace s k).ptr =
          spec.output + (context.slice s).byteOffset ∧
        (context.slice s).byteOffset + output.bytes ≤
          context.stageContext.rawChunkBytes * max 1 context.plan.finalChunks) := by
  cases ht : context.outputTemp k with
  | none =>
    obtain ⟨hindex, hstages, rfl⟩ := R.output_final P hk ht
    obtain ⟨-, -, hbytes⟩ := R.final_raw P
    have hnot := P.stagesOutput_iff.not.mp (by simp [hstages])
    refine .inr ⟨hindex, ?_, ?_⟩
    · simp only [stageOutput, ht]
      rw [P.spec_eq]
    · rw [hbytes]
      exact P.contiguous_end_le R.slice_lt (by omega)
  | some t =>
    obtain ⟨rfl, hlt, hptr, hroom⟩ := R.outputTemp_room P workspace hk ht
    exact .inl ⟨hlt, hptr, hroom⟩

omit R in
/-- A temporary is apart from the user's input and output. -/
theorem temp_apart_user (hs : s < context.depth) (ht : t < context.plan.temps.length) :
    Apart (workspace.address (context.tempPtr s t)) (context.temp t).alignedBytes spec.input
        (context.stageContext.rawChunkBytes * spec.inputChunks) ∧
      Apart (workspace.address (context.tempPtr s t)) (context.temp t).alignedBytes spec.output
        (context.stageContext.rawChunkBytes * max 1 context.plan.finalChunks) := by
  obtain ⟨base, bytes, hbase, -, hlo, hhi⟩ := P.tempAddress_inside workspace hs ht
  have hin := workspace.input_apart base bytes hbase
  have hout := workspace.output_apart base bytes hbase
  rw [P.spec_eq] at hin hout
  unfold Apart
  constructor <;> omega

/-- **The check in front of a stage finds its buffers apart.** -/
theorem stageOverlaps_eq_false (hregular : spec.Regular) {planned output : PlannedEdge κ}
    (hplanned : (input :: outputs)[k]? = some planned)
    (houtput : outputs[k]? = some output) {stage : Stage κ} (hstage : spec.stages[k]? = some stage)
    (hsim : Simulates planned edge) (hptr : edge.ptr = edgePtr s workspace k) :
    stageOverlaps (context.stageContextForSlice s) stage edge
      (stageOutput workspace s k) = false := by
  have hlisted := hregular.listed stage (mem_of_getElem? hstage)
  have hk : k < context.stageCount := R.length ▸ (List.getElem?_eq_some_iff.mp houtput).1
  have htwo : 2 ≤ context.stageCount := by
    rw [stageCount, P.spec_eq]
    exact hregular.two_le
  have hcapacity := (R.outputFor P workspace houtput).capacityBytes
  have hle := hsim.bytes_le
  have hcheck : stageOverlaps (context.stageContextForSlice s) stage edge
      (stageOutput workspace s k) =
        buffersOverlap edge.ptr edge.bytes (stageOutput workspace s k).ptr
          (stageOutput workspace s k).capacityBytes := by
    cases stage <;> first | rfl | exact absurd rfl hlisted.1 | exact absurd rfl hlisted.2
  rw [hcheck, hptr, hcapacity]
  obtain ⟨t, ht, hlt, hin, hroom⟩ | ⟨hzero, hin, hroom⟩ := R.edge_room P workspace hk hplanned <;>
    obtain ⟨hlt', hout, hroom'⟩ | ⟨hlast, hout, hroom'⟩ := R.output_room P workspace houtput <;>
    rw [hin, hout]
  · -- from one temporary to the next
    rw [← ht] at hlt' hroom' ⊢
    have hend := P.tempAddress_le workspace R.slice_lt hlt
    have hend' := P.tempAddress_le workspace R.slice_lt hlt'
    exact buffersOverlap_eq_false ((P.tempAddress_adjacent workspace R.slice_lt hlt').mono le_rfl
      (by omega) le_rfl (by omega)) (by omega) (by omega)
  · -- the last stage, to the user's buffer
    have hend := P.tempAddress_le workspace R.slice_lt hlt
    have hend' := workspace.output_end
    rw [P.spec_eq] at hend'
    exact buffersOverlap_eq_false ((temp_apart_user P workspace R.slice_lt hlt).2.mono le_rfl
      (by omega) (by omega) (by omega)) (by omega) (by omega)
  · -- the first stage, from the user's buffer
    have hend := P.input_end
    have hend' := P.tempAddress_le workspace R.slice_lt hlt'
    exact buffersOverlap_eq_false (((temp_apart_user P workspace R.slice_lt hlt').1.mono le_rfl
      (by omega) (by omega) (by omega)).symm) (by omega) (by omega)
  · -- a first stage that is the last one
    omega

theorem pack_not_overlapping (ht : context.plan.inputStagingTemp = some t) :
    stageOverlaps (context.stageContextForSlice s) .pack (context.inputEdgeOf s)
      (packOutput workspace s t) = false := by
  have hpos := P.valid.inputChunks_pos
  have hsim := (R.inputEdge_simulates P).bytes_le
  have hend := P.input_end
  have hspan := P.pitchedSpan_eq R.slice_lt hpos (by omega)
  have hrows := Prepared.rows_end_le (P.slice_end_le R.slice_lt) hpos
  obtain ⟨-, -, hlt, hroom⟩ := R.inputTemp_room P ht
  have hend' := P.tempAddress_le workspace R.slice_lt hlt
  show buffersOverlap (context.spec.input + (context.slice s).byteOffset)
    (pitchedSpan (context.stageContextForSlice s) context.spec.inputChunks)
    (workspace.address (context.tempPtr s t)) (context.inputEdgeOf s).bytes = false
  rw [P.spec_eq, hspan]
  exact buffersOverlap_eq_false ((temp_apart_user P workspace R.slice_lt hlt).1.mono le_rfl
    (by omega) (by omega) (by omega)).symm (by omega) (by omega)

theorem unpack_not_overlapping (ht : context.plan.outputStagingTemp = some t)
    (hsim : Simulates final edge) (hptr : edge.ptr = edgePtr s workspace context.stageCount) :
    stageOverlaps (context.stageContextForSlice s) .unpack edge
      (unpackOutput context s edge) = false := by
  have hstaged : context.stagesOutput = true := by simp [stagesOutput, ht]
  have hpos : 1 < context.plan.finalChunks := (P.stagesOutput_iff.mp hstaged).2
  have hchunks : edge.logicalChunks = context.plan.finalChunks := by
    rw [hsim.logicalChunks, P.layout.finalChunks, R.covers.finalChunks, R.slicePlan.finalChunks]
  have hend := workspace.output_end
  rw [P.spec_eq, max_eq_right hpos.le] at hend
  have hspan := P.pitchedSpan_eq R.slice_lt (show 0 < edge.logicalChunks by omega)
    (by rw [hchunks]; omega)
  have hrows := Prepared.rows_end_le (P.slice_end_le R.slice_lt)
    (show 0 < edge.logicalChunks by omega)
  rw [hchunks] at hspan hrows
  -- the edge lies in the last stage's temporary
  obtain ⟨n, hn⟩ : ∃ n, context.stageCount = n + 1 :=
    ⟨context.stageCount - 1, by have := P.stageCount_pos; omega⟩
  have hlast := R.slicePlan.last
  rw [getLast?_eq_getElem?, R.length, hn, Nat.add_sub_cancel] at hlast
  have htemp := P.tempShape.outputTemp n (by omega)
  rw [if_pos (.inr hstaged)] at htemp
  obtain ⟨-, hlt, hptr', hroom⟩ := R.outputTemp_room P workspace hlast htemp
  rw [hn, edgePtr, hptr'] at hptr
  have hle := hsim.bytes_le
  have hend' := P.tempAddress_le workspace R.slice_lt hlt
  have happart := (temp_apart_user P workspace R.slice_lt hlt).2
  rw [max_eq_right hpos.le] at happart
  show buffersOverlap edge.ptr edge.bytes (context.spec.output + (context.slice s).byteOffset)
    (pitchedSpan (context.stageContextForSlice s) edge.logicalChunks) = false
  rw [P.spec_eq, hchunks, hspan, hptr]
  exact buffersOverlap_eq_false (happart.mono le_rfl (by omega) (by omega) (by omega)) (by omega)
    (by omega)

theorem tempHolds (hk : outputs[k]? = some output) (ht : context.outputTemp k = some t) :
    TempHolds (context.temp t) output := by
  obtain ⟨-, -, hsized, item, -, htempFor, hpayload, hframes⟩ :=
    P.stageTempFor R.slicePlan R.covers R.length hk ht
  rw [htempFor.payloadBytes] at hpayload
  refine ⟨hpayload.trans hsized.payload_le, hframes.trans htempFor.frameMetadataBytes,
    fun hne => ?_⟩
  obtain ⟨hle, hend⟩ := hsized.metadata_le hne
  exact ⟨hpayload.trans hle, hend⟩

end SliceRun

/-! ## A whole slice -/

variable (plugins) (runtime : CompressorRuntime κ)
  (framesValid : Stage κ → PipelineEdge κ → Bool)

/-- A stage of a running slice stays within the plan: its input is within the edge planned for it,
its buffers are apart, an all-to-all splits evenly, and what the handler leaves is within the
output planned for it, which its temporary holds. What a plugin encodes is accepted where it is
within the plugin's own bound and, without frames, within the raw data. -/
structure StageWithin (workspace : PipelineWorkspace context) (s k : ℕ) (stage : Stage κ)
    (planned output : PlannedEdge κ) (edge : PipelineEdge κ) : Prop where
  input : Simulates planned edge
  apart : stageOverlaps (context.stageContextForSlice s) stage edge
    (stageOutput workspace s k) = false
  even : ∀ comm, stage = .allToAll comm → comm.nRanks ∣ edge.bytes
  capacity : context.outputBytes s k = output.bytes
  produces : ∀ edge', StageHandler.handlers plugins runtime framesValid
      (context.stageContextForSlice s) stage edge (stageOutput workspace s k) =
        .ok edge' → Simulates output edge'
  compresses : ∀ policy, stage = .compress (some policy) → StageHandler.Accepts plugins runtime
    framesValid (context.stageContextForSlice s) stage edge (stageOutput workspace s k)
      (RoomFor plugins policy planned)
  reencodes : ∀ reduceChunks policy, stage = .decompReduceComp reduceChunks (some policy) →
    ∃ raw, planRawEdge context.spec.datatype (context.slice s) output.logicalChunks = .ok raw ∧
      StageHandler.Accepts plugins runtime framesValid (context.stageContextForSlice s) stage edge
        (stageOutput workspace s k) fun bytes =>
          RoomFor plugins policy raw bytes ∨ FusedRoomFor plugins policy planned raw bytes
  temp : ∀ t, context.outputTemp k = some t → TempHolds (context.temp t) output

/-- A slice stays within its plan, from the pack step to the unpack step. -/
structure SliceWithin (workspace : PipelineWorkspace context) (s : ℕ) : Prop where
  temps_le : context.plan.temps.length ≤ kCocclPipelineMaxTemps
  pack : ∀ t, context.plan.inputStagingTemp = some t →
    stageOverlaps (context.stageContextForSlice s) .pack (context.inputEdgeOf s)
      (packOutput workspace s t) = false
  stages : ∃ chunks input outputs,
    stageChunks context.spec.stages context.spec.inputChunks = .ok chunks ∧
    planRawEdge context.spec.datatype (context.slice s) context.spec.inputChunks = .ok input ∧
    PlannedChain plugins context.spec.datatype (context.slice s) input
      (context.spec.stages.zip chunks) outputs ∧
    ∀ k stage edge, context.spec.stages[k]? = some stage →
      edgeAfter plugins runtime framesValid workspace s k = .ok edge →
      ∃ planned output, (input :: outputs)[k]? = some planned ∧ outputs[k]? = some output ∧
        StageWithin plugins runtime framesValid workspace s k stage planned output edge
  unpack : ∀ t edge, context.plan.outputStagingTemp = some t →
    edgeAfter plugins runtime framesValid workspace s context.stageCount =
      .ok edge →
    stageOverlaps (context.stageContextForSlice s) .unpack edge
      (unpackOutput context s edge) = false

variable {plugins runtime}

include P

theorem Prepared.temps_le : context.plan.temps.length ≤ kCocclPipelineMaxTemps := by
  have hcount : context.stageCount ≤ kCocclPipelineExplicitStages := by
    rw [stageCount, P.spec_eq]
    exact P.valid.stages_le
  have hfirst : context.firstTemp ≤ 1 := by
    unfold firstTemp
    split <;> omega
  rw [P.tempShape.temps_length]
  unfold kCocclPipelineExplicitStages at hcount
  unfold kCocclPipelineMaxTemps
  omega

/-- **A regular pipeline never outgrows its plan.** -/
theorem Prepared.sliceWithin
    (hregular : spec.Regular) (hdecodes : DecodesAsPlanned runtime)
    (workspace : PipelineWorkspace context) (hs : s < context.depth) :
    SliceWithin plugins runtime framesValid workspace s := by
  obtain ⟨plan, input, final, outputs, R⟩ := P.sliceRun hregular.raw hs
  refine ⟨P.temps_le, fun t ht => R.pack_not_overlapping P workspace ht, ?_, ?_⟩
  · refine ⟨chunks, input, outputs, ?_, ?_, ?_, fun k stage edge hstage hedge => ?_⟩
    · rw [P.spec_eq]
      exact P.chunks_eq
    · rw [P.spec_eq, ← R.slice_eq P]
      exact R.slicePlan.input_eq
    · rw [P.spec_eq, ← R.slice_eq P]
      exact R.slicePlan.chain
    · rw [P.spec_eq] at hstage
      have hk : k < context.stageCount := by
        rw [stageCount, P.spec_eq]
        exact (List.getElem?_eq_some_iff.mp hstage).1
      obtain ⟨planned, hplanned, hsim, hptr⟩ :=
        R.edgeAfter_simulates P workspace hdecodes hk.le hedge
      have houtput : outputs[k]? = some (outputs.get ⟨k, by have := R.length; omega⟩) := by simp
      obtain ⟨stage', planned', outputChunks, hstage', hplanned', hstep⟩ := R.step P houtput
      obtain rfl := some.inj (hstage.symm.trans hstage')
      obtain rfl := some.inj (hplanned.symm.trans hplanned')
      refine ⟨planned, _, hplanned, houtput, hsim,
        R.stageOverlaps_eq_false P workspace hregular hplanned houtput hstage hsim hptr,
        fun comm hcomm => ?_, outputBytes_eq R.bytes houtput, fun edge' hedge' => ?_,
        ?_, ?_, fun t ht => R.tempHolds P houtput ht⟩
      · rw [hcomm] at hstage
        have hsplits := hregular.splits
        rw [← R.slicePlan.input_framed.2] at hsplits
        have hdvd := R.slicePlan.chain.splits hsplits (R.stageChunks_eq P) hstage hplanned
        rw [← hsim.logicalChunks] at hdvd
        exact hdvd.trans hsim.dvd
      · exact (StageHandler.handlers_simulates hdecodes (R.contextFor P) hstep.chunks hstep.plan
          (R.outputFor P workspace houtput) hsim hedge').1
      · rintro policy rfl
        exact StageHandler.compress_accepts hstep.plan hsim hstep.chunks
          (R.outputFor P workspace houtput)
      · rintro reduceChunks policy rfl
        rw [P.spec_eq, (planStageOutput_carries hstep.plan).1]
        exact StageHandler.reduceComp_accepts hstep.plan hsim hstep.chunks
          (R.outputFor P workspace houtput)
  · intro t edge ht hedge
    obtain ⟨planned, hplanned, hsim, hptr⟩ :=
      R.edgeAfter_simulates P workspace hdecodes le_rfl hedge
    have hfinal := R.last
    rw [getLast?_eq_getElem?, length_cons, Nat.add_sub_cancel, R.length] at hfinal
    obtain rfl := some.inj (hplanned.symm.trans hfinal)
    exact R.unpack_not_overlapping P workspace ht hsim hptr

end

end Coccl
