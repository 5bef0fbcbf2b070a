import Coccl.Pipeline.Logical

/-!
# What an accepted pipeline guarantees

`Prepared` collects what is known of a context that `cocclPreparePipeline` returned, without the
order in which it was computed.
-/

namespace Coccl

open Checked List

/-! ## Slices -/

/-- The shape of a slice, its products within range. -/
def exactSlice (rawChunkCount depth typeBytes slice : ℕ) : SliceShape :=
  let count := rawChunkCount / depth + if slice + 1 = depth then rawChunkCount % depth else 0
  ⟨slice * (rawChunkCount / depth), count, slice * (rawChunkCount / depth) * typeBytes,
    count * typeBytes⟩

variable {rawChunkCount depth slice : ℕ}

theorem sliceShape_eq {typeBytes : ℕ} {shape : SliceShape}
    (h : sliceShape rawChunkCount depth typeBytes slice = .ok shape) :
    shape = exactSlice rawChunkCount depth typeBytes slice := by
  obtain ⟨byteOffset, hoffset, h⟩ := bind_eq_ok.mp h
  obtain ⟨bytes, hbytes, h⟩ := bind_eq_ok.mp h
  obtain ⟨rfl, -⟩ := mul_eq_some.mp (orElse_eq_ok.mp hoffset)
  obtain ⟨rfl, -⟩ := mul_eq_some.mp (orElse_eq_ok.mp hbytes)
  exact (Except.ok.inj h).symm

section

variable {rawChunkCount depth typeBytes : ℕ}

/-- A slice ends where the next one starts. -/
theorem exactSlice_next (h : slice + 1 < depth) :
    (exactSlice rawChunkCount depth typeBytes slice).byteOffset +
        (exactSlice rawChunkCount depth typeBytes slice).bytes =
      (exactSlice rawChunkCount depth typeBytes (slice + 1)).byteOffset := by
  simp only [exactSlice, if_neg (show ¬slice + 1 = depth by omega)]
  ring

theorem exactSlice_le {s t : ℕ} (hst : s < t) (ht : t < depth) :
    (exactSlice rawChunkCount depth typeBytes s).byteOffset +
        (exactSlice rawChunkCount depth typeBytes s).bytes ≤
      (exactSlice rawChunkCount depth typeBytes t).byteOffset := by
  rw [exactSlice_next (by omega)]
  simp only [exactSlice]
  exact Nat.mul_le_mul_right _ (Nat.mul_le_mul_right _ (by omega))

/-- The last slice ends with the rank chunk. -/
theorem exactSlice_last (hd : 0 < depth) :
    (exactSlice rawChunkCount depth typeBytes (depth - 1)).byteOffset +
        (exactSlice rawChunkCount depth typeBytes (depth - 1)).bytes =
      rawChunkCount * typeBytes := by
  simp only [exactSlice, if_pos (show depth - 1 + 1 = depth by omega)]
  have hdiv := Nat.div_add_mod rawChunkCount depth
  obtain ⟨d, rfl⟩ : ∃ d, depth = d + 1 := ⟨depth - 1, by omega⟩
  calc d * (rawChunkCount / (d + 1)) * typeBytes +
        (rawChunkCount / (d + 1) + rawChunkCount % (d + 1)) * typeBytes
      = ((d + 1) * (rawChunkCount / (d + 1)) + rawChunkCount % (d + 1)) * typeBytes := by ring
    _ = rawChunkCount * typeBytes := by rw [hdiv]

theorem exactSlice_end_le {s : ℕ} (hs : s < depth) :
    (exactSlice rawChunkCount depth typeBytes s).byteOffset +
        (exactSlice rawChunkCount depth typeBytes s).bytes ≤ rawChunkCount * typeBytes := by
  rcases Nat.eq_or_lt_of_le (show s ≤ depth - 1 by omega) with rfl | hlt
  · exact (exactSlice_last (by omega)).le
  · have hnext := @exactSlice_le rawChunkCount depth typeBytes s (depth - 1) hlt (by omega)
    have hlast := @exactSlice_last rawChunkCount depth typeBytes (by omega)
    omega

/-- All slices but the last have the element count of the first. -/
theorem exactSlice_inner {s : ℕ} (hs : s + 1 < depth) :
    (exactSlice rawChunkCount depth typeBytes s).elementCount =
        (exactSlice rawChunkCount depth typeBytes 0).elementCount ∧
      (exactSlice rawChunkCount depth typeBytes s).bytes =
        (exactSlice rawChunkCount depth typeBytes 0).bytes := by
  simp only [exactSlice, if_neg (show ¬s + 1 = depth by omega),
    if_neg (show ¬0 + 1 = depth by omega), and_self]

end

/-! ## Plans depend on the sizes of a slice only -/

section

variable {κ : Type} [DecidableEq κ] {plugins : κ → Plugin} {slice slice' : SliceShape}

omit [DecidableEq κ] in
theorem planRawEdge_congr (datatype : DataType) (hcount : slice.elementCount = slice'.elementCount)
    (hbytes : slice.bytes = slice'.bytes) :
    @planRawEdge κ datatype slice = planRawEdge datatype slice' := by
  funext chunks
  rw [planRawEdge, planRawEdge, hcount, hbytes]

theorem planStageOutput_congr (datatype : DataType)
    (hcount : slice.elementCount = slice'.elementCount) (hbytes : slice.bytes = slice'.bytes) :
    planStageOutput plugins datatype slice = planStageOutput plugins datatype slice' := by
  funext stage chunks input
  cases stage <;> simp only [planStageOutput, planRawEdge_congr datatype hcount hbytes]

theorem buildLogicalPlan_congr (spec : PipelineSpec κ) (depth : ℕ) (inputLayout : InputLayout)
    (chunks : List ℕ) (hcount : slice.elementCount = slice'.elementCount)
    (hbytes : slice.bytes = slice'.bytes) :
    buildLogicalPlan plugins spec depth inputLayout chunks slice =
      buildLogicalPlan plugins spec depth inputLayout chunks slice' := by
  have hstages : planStages plugins spec.datatype slice =
      planStages plugins spec.datatype slice' := by
    funext depth stages
    induction stages with
    | nil => rfl
    | cons stage rest ih =>
      funext plan edge
      simp only [planStages, planStage, planStageOutput_congr spec.datatype hcount hbytes, ih]
  simp only [buildLogicalPlan, planRawEdge_congr spec.datatype hcount hbytes, hstages]

end

/-! ## Prepared pipelines -/

section

variable {κ : Type} [DecidableEq κ] (plugins : κ → Plugin)

/-- The arguments `cocclPreparePipeline` checks first. -/
structure ValidSpec (spec : PipelineSpec κ) : Prop where
  input_ne : spec.input ≠ 0
  output_ne : spec.output ≠ 0
  rawChunkCount_pos : 0 < spec.rawChunkCount
  inputChunks_pos : 0 < spec.inputChunks
  stages_ne : spec.stages ≠ []
  stages_le : spec.stages.length ≤ kCocclPipelineExplicitStages
  typeBytes_pos : 0 < ncclTypeSize spec.datatype

/-- Bytes of one element of a specification's datatype. -/
def PipelineSpec.typeBytes (spec : PipelineSpec κ) : ℕ := (ncclTypeSize spec.datatype).toNat

/-- A context that `cocclPreparePipeline` returned for `spec`, with the chunk counts along the
stages, the outcome of the test on the user buffers and the logical plan it was laid out from. -/
structure Prepared (spec : PipelineSpec κ) (requestedDepth : ℤ) (context : PipelineContext κ)
    (chunks : List ℕ) (requireSerial : Bool) (logical : PipelinePlan) : Prop where
  valid : ValidSpec spec
  spec_eq : context.spec = spec
  rawChunkBytes : context.stageContext.rawChunkBytes = spec.rawChunkCount * spec.typeBytes
  rawChunkBytes_le : spec.rawChunkCount * spec.typeBytes ≤ sizeMax
  rawDatatype : context.stageContext.rawDatatype = spec.datatype
  chunks_eq : stageChunks spec.stages spec.inputChunks = .ok chunks
  serial : cocclPipelineUserBuffersRequireSerial spec.input spec.inputChunks spec.output
    (chunks.getLastD spec.inputChunks) context.stageContext.rawChunkBytes spec.ownerComm.rank
    spec.inPlaceLayout = .ok requireSerial
  depth_eq : context.depth =
    if requireSerial then 1 else pipelineDepth requestedDepth spec.rawChunkCount
  slices : context.slices =
    (List.range context.depth).map (exactSlice spec.rawChunkCount context.depth spec.typeBytes)
  inputLayout : context.stageContext.inputLayout = plannedInputLayout plugins spec
  swizzle : context.stageContext.inputLayout = .hierarchicalSwizzle →
    context.stageContext.nNodes = spec.ownerComm.nRanks / spec.ownerComm.localRanks ∧
      context.stageContext.ranksPerNode = spec.ownerComm.localRanks
  layout : WorkspaceLayout logical context.plan
  inside : WorkspaceInside context.plan context.depth
  plans : ∀ slice < context.depth, ∃ plan,
    buildLogicalPlan plugins spec context.depth context.stageContext.inputLayout chunks
      (exactSlice spec.rawChunkCount context.depth spec.typeBytes slice) = .ok plan ∧
    Covers logical plan ∧
    context.sliceStageOutputBytes[slice]? = some plan.stageOutputCapacityBytes ∧
    context.sliceStageFrameStrideBytes[slice]? = some (stageFrameStrides plan)

variable {plugins} {requestedDepth : ℤ}

theorem pipelineDepth_pos (h : 0 < rawChunkCount) :
    0 < pipelineDepth requestedDepth rawChunkCount ∧
      pipelineDepth requestedDepth rawChunkCount ≤ rawChunkCount := by
  unfold pipelineDepth
  simp only
  split_ifs <;> constructor <;> omega

omit [DecidableEq κ] in
theorem stageChunks_length {stages : List (Stage κ)} {inputChunks : ℕ} {chunks : List ℕ}
    (h : stageChunks stages inputChunks = .ok chunks) : chunks.length = stages.length := by
  induction stages generalizing inputChunks chunks with
  | nil =>
    obtain rfl := Except.ok.inj h
    rfl
  | cons stage rest ih =>
    obtain ⟨output, -, h⟩ := bind_eq_ok.mp h
    obtain ⟨outputs, houtputs, h⟩ := bind_eq_ok.mp h
    obtain rfl := Except.ok.inj h
    simp [ih houtputs]

/-- The slices as the loop computes them. -/
theorem slices_eq {typeBytes : ℕ} {slices : List SliceShape}
    (h : (List.range depth).mapM (sliceShape rawChunkCount depth typeBytes) = .ok slices) :
    slices = (List.range depth).map (exactSlice rawChunkCount depth typeBytes) := by
  have hall := mapM_eq_ok h
  refine ext_getElem (by simp [← hall.length_eq]) fun i hi hi' => ?_
  have := hall.get (by simpa using hi') hi
  simpa using sliceShape_eq this

variable {spec : PipelineSpec κ}

/-- The logical plans of all slices, from those of the first and the last one. -/
theorem slicePlans_covered {inputLayout : InputLayout} {chunks : List ℕ} {first last : SliceShape}
    {regular tail : PipelinePlan} (hdepth : 0 < depth) (hstages : spec.stages.zip chunks ≠ [])
    (hfirst : first = exactSlice spec.rawChunkCount depth spec.typeBytes 0)
    (hlast : last = exactSlice spec.rawChunkCount depth spec.typeBytes (depth - 1))
    (hregular : buildLogicalPlan plugins spec depth inputLayout chunks first = .ok regular)
    (htail : tailPlan plugins spec depth inputLayout chunks first last regular = .ok tail) :
    let logical :=
      if last.elementCount ≠ first.elementCount then mergeLogicalPlan tail regular else regular
    BoundaryDistinct logical ∧ ∀ slice < depth,
      buildLogicalPlan plugins spec depth inputLayout chunks
        (exactSlice spec.rawChunkCount depth spec.typeBytes slice) =
          .ok (if slice + 1 = depth then tail else regular) ∧
      Covers logical (if slice + 1 = depth then tail else regular) := by
  obtain ⟨input, final, outputs, hplan⟩ := buildLogicalPlan_spec hstages hregular
  -- a slice before the last one is planned as the first one
  have hinner : ∀ slice, slice + 1 < depth → buildLogicalPlan plugins spec depth inputLayout chunks
      (exactSlice spec.rawChunkCount depth spec.typeBytes slice) = .ok regular := by
    intro slice hslice
    obtain ⟨hcount, hbytes⟩ :=
      @exactSlice_inner spec.rawChunkCount depth spec.typeBytes slice hslice
    rw [buildLogicalPlan_congr spec depth inputLayout chunks hcount hbytes, ← hfirst, hregular]
  have hlastIndex : ∀ slice, slice + 1 = depth → slice = depth - 1 := by omega
  unfold tailPlan at htail
  by_cases hcount : last.elementCount ≠ first.elementCount
  · rw [if_pos hcount] at htail
    obtain ⟨input', final', outputs', hplan'⟩ := buildLogicalPlan_spec hstages htail
    have hsame := hplan'.sameTemps hplan
    obtain ⟨hcoverRegular, hcoverTail⟩ := mergeLogicalPlan_covers hsame
    simp only [if_pos hcount]
    refine ⟨⟨hplan.boundaryDistinct.ne⟩, fun slice hslice => ?_⟩
    by_cases hlastSlice : slice + 1 = depth
    · rw [if_pos hlastSlice, hlastIndex slice hlastSlice, ← hlast]
      exact ⟨htail, hcoverTail⟩
    · rw [if_neg hlastSlice]
      exact ⟨hinner slice (by omega), hcoverRegular⟩
  · rw [if_neg hcount] at htail
    obtain rfl := Except.ok.inj htail
    simp only [if_neg hcount, ite_self]
    refine ⟨hplan.boundaryDistinct, fun slice hslice => ⟨?_, .refl hplan.sized⟩⟩
    by_cases hlastSlice : slice + 1 = depth
    · -- the last slice has as many elements as the first, hence as many bytes
      rw [hlastIndex slice hlastSlice, ← hlast]
      rw [not_not] at hcount
      have hbytes : last.bytes = first.bytes := by
        rw [hlast, hfirst] at hcount ⊢
        exact congrArg (· * spec.typeBytes) hcount
      rw [buildLogicalPlan_congr spec depth inputLayout chunks hcount hbytes, hregular]
    · exact hinner slice (by omega)

/-- **An accepted pipeline is prepared.** -/
theorem cocclPreparePipeline_prepared {context : PipelineContext κ}
    (h : cocclPreparePipeline plugins spec requestedDepth = .ok context) :
    ∃ chunks requireSerial logical,
      Prepared plugins spec requestedDepth context chunks requireSerial logical := by
  unfold cocclPreparePipeline at h
  obtain ⟨hvalid, h⟩ := ite_error_eq_ok.mp h
  simp only [not_or, not_le, not_lt] at hvalid
  obtain ⟨hin, hout, hcount, hchunks, hstages, hlen, htype⟩ := hvalid
  obtain ⟨rawChunkBytes, hraw, h⟩ := bind_eq_ok.mp h
  obtain ⟨hrawEq, hrawLe⟩ := mul_eq_some.mp (orElse_eq_ok.mp hraw)
  obtain ⟨chunks, hchunksEq, h⟩ := bind_eq_ok.mp h
  obtain ⟨requireSerial, hserial, h⟩ := bind_eq_ok.mp h
  obtain ⟨slices, hslices, h⟩ := bind_eq_ok.mp h
  obtain ⟨regular, hregular, h⟩ := bind_eq_ok.mp h
  obtain ⟨tail, htail, h⟩ := bind_eq_ok.mp h
  obtain ⟨plan, hplan, h⟩ := bind_eq_ok.mp h
  have hcontext := (Except.ok.inj h).symm
  set depth := if requireSerial then 1 else pipelineDepth requestedDepth spec.rawChunkCount
    with hdepth
  have hdepthPos : 0 < depth := by
    rw [hdepth]
    split
    · exact one_pos
    · exact (pipelineDepth_pos (pos_of_ne_zero hcount)).1
  have hslicesEq := slices_eq hslices
  have hzip : spec.stages.zip chunks ≠ [] := by
    intro hnil
    have := congrArg List.length hnil
    rw [length_zip, stageChunks_length hchunksEq, min_self, length_nil] at this
    exact hstages (length_eq_zero_iff.mp this)
  have hfirst : slices.headD default = exactSlice spec.rawChunkCount depth spec.typeBytes 0 := by
    rw [hslicesEq, headD_eq_head?_getD, head?_map, head?_range]
    simp [hdepthPos.ne', PipelineSpec.typeBytes]
  have hlast : slices.getLastD default =
      exactSlice spec.rawChunkCount depth spec.typeBytes (depth - 1) := by
    rw [hslicesEq, getLastD_eq_getLast?, getLast?_map, getLast?_range]
    simp [hdepthPos.ne', PipelineSpec.typeBytes]
  obtain ⟨hdistinct, hplans⟩ := slicePlans_covered hdepthPos hzip hfirst hlast hregular htail
  refine ⟨chunks, requireSerial,
    if (slices.getLastD default).elementCount ≠ (slices.headD default).elementCount then
      mergeLogicalPlan tail regular else regular, ?_⟩
  subst hcontext
  exact
    { valid := ⟨hin, hout, pos_of_ne_zero hcount, pos_of_ne_zero hchunks, hstages, hlen,
        htype⟩
      spec_eq := rfl
      rawChunkBytes := hrawEq
      rawChunkBytes_le := hrawLe
      rawDatatype := rfl
      chunks_eq := hchunksEq
      serial := hserial
      depth_eq := hdepth
      slices := hslicesEq
      inputLayout := rfl
      swizzle := fun hswizzle => ⟨if_pos hswizzle, if_pos hswizzle⟩
      layout := (cocclPlanPipelineWorkspace_layout hdistinct hplan).1
      inside := (cocclPlanPipelineWorkspace_layout hdistinct hplan).2
      plans := fun slice hslice => ⟨if slice + 1 = depth then tail else regular,
        (hplans slice hslice).1, (hplans slice hslice).2,
        by simp [show slice < depth from hslice], by simp [show slice < depth from hslice]⟩ }

end

end Coccl
