import Coccl.Pipeline.Stage

/-!
# The executor stays within the plan

The planner walks the stages over planned edges, the executor over edges with the sizes the handlers
and plugins report. A run-time edge `Simulates` the planned one if it has the same chunks, frames
and compressor and at most its bytes. What a plugin encodes is accepted where the plan has room for
it, by the bound the plugin declares and the raw data it is given.
-/

namespace Coccl

open Checked Except CompressorRuntime

/-! ## Planned edges -/

variable {reduceChunks : ℕ}

section

variable {κ : Type} {plugins : κ → Plugin} {datatype : DataType} {slice : SliceShape}

/-- An edge without a compressor holds the raw chunks, one with frames has a chunk at least. -/
structure PlannedEdge.Shaped (slice : SliceShape) (edge : PlannedEdge κ) : Prop where
  raw : edge.compressor = none →
    edge.framed = false ∧ edge.frameStrideBytes = 0 ∧ edge.bytes = slice.bytes * edge.logicalChunks
  framed : edge.framed = true → 0 < edge.logicalChunks

theorem queryEncodedBound_spec {compressor : Option κ} {operation : CompressorOperation}
    {edge : PlannedEdge κ} {bound : ℕ}
    (h : queryEncodedBound plugins compressor operation edge = .ok bound) :
    compressor ≠ none ∧ 0 < edge.logicalChunks := by
  cases compressor with
  | none => cases h
  | some policy =>
    exact ⟨Option.some_ne_none policy, (cocclQueryCompressorEncodedSizeBound_spec h).2.1⟩

variable (plugins) in
/-- Room for `bytes` bytes that `raw` is encoded into: at most what the plugin declares, and without
frames at most the raw data. -/
def RoomFor (policy : κ) (raw : PlannedEdge κ) (bytes : ℕ) : Prop :=
  ∃ bound, queryEncodedBound plugins (some policy) .compress raw = .ok bound ∧ bytes ≤ bound ∧
    (cocclCompressorSupports plugins (some policy) .framed = false → bytes ≤ raw.bytes)

variable (plugins) in
/-- Room for what a fused reduction of `input` leaves: as much as it declares, where that is no more
than the raw data. -/
def FusedRoomFor (policy : κ) (input raw : PlannedEdge κ) (bytes : ℕ) : Prop :=
  cocclCompressorSupports plugins (some policy) .framed = false ∧ input.compressor = some policy ∧
    cocclCompressorSupports plugins (some policy) .decompressReduceCompress = true ∧
    ∃ bound, queryEncodedBound plugins (some policy) .decompressReduceCompress raw = .ok bound ∧
      bound ≤ raw.bytes ∧ bytes ≤ bound

variable {policy : κ} {input raw : PlannedEdge κ} {bytes : ℕ}

theorem RoomFor.chunks_pos (h : RoomFor plugins policy raw bytes) : 0 < raw.logicalChunks := by
  obtain ⟨bound, hbound, -⟩ := h
  exact (queryEncodedBound_spec hbound).2

theorem FusedRoomFor.chunks_pos (h : FusedRoomFor plugins policy input raw bytes) :
    0 < raw.logicalChunks := by
  obtain ⟨-, -, -, bound, hbound, -⟩ := h
  exact (queryEncodedBound_spec hbound).2

variable [DecidableEq κ] {input output : PlannedEdge κ}

/-- Planning a stage's output keeps the shape of the edge. -/
theorem planStageOutput_shaped {stage : Stage κ} {outputChunks : ℕ} (hinput : input.Shaped slice)
    (hchunks : cocclPipelineStageOutputChunks stage input.logicalChunks = .ok outputChunks)
    (h : planStageOutput plugins datatype slice stage outputChunks input = .ok output) :
    output.Shaped slice := by
  cases stage with
  | compress compressor =>
    obtain ⟨bound, hbound, h⟩ := bind_eq_ok.mp h
    obtain ⟨hne, hpos⟩ := queryEncodedBound_spec hbound
    obtain rfl := ok.inj hchunks
    obtain rfl := ok.inj h
    exact ⟨fun hnone => absurd hnone hne, fun _ => hpos⟩
  | decompReduceComp reduceChunks compressor =>
    obtain ⟨rawOutput, hraw, h⟩ := bind_eq_ok.mp h
    obtain ⟨bound, hbound, h⟩ := bind_eq_ok.mp h
    obtain ⟨bytes, -, h⟩ := bind_eq_ok.mp h
    obtain ⟨hne, hpos⟩ := queryEncodedBound_spec hbound
    obtain ⟨rfl, -⟩ := planRawEdge_eq hraw
    obtain rfl := ok.inj h
    exact ⟨fun hnone => absurd hnone hne, fun _ => hpos⟩
  | allGather comm =>
    obtain ⟨bytes, hbytes, h⟩ := bind_eq_ok.mp h
    obtain ⟨elements, -, h⟩ := bind_eq_ok.mp h
    obtain ⟨rfl, -⟩ := mul_eq_some.mp (orElse_eq_ok.mp hbytes)
    obtain ⟨rfl, -⟩ := mul_eq_some.mp (orElse_eq_ok.mp hchunks)
    obtain rfl := ok.inj h
    refine ⟨fun hnone => ?_, fun hframed => mul_pos (hinput.framed hframed) comm.nRanks_pos⟩
    obtain ⟨hframed, hstride, hraw⟩ := hinput.raw hnone
    exact ⟨hframed, hstride, by rw [hraw, mul_assoc]⟩
  | allToAll _ | pack | unpack =>
    obtain rfl := ok.inj hchunks
    obtain rfl := ok.inj h
    exact ⟨hinput.raw, hinput.framed⟩
  | decompressReduce _ | decompress | reduceScatter _ =>
    obtain ⟨rfl, -⟩ := planRawEdge_eq h
    exact ⟨fun _ => ⟨rfl, rfl, rfl⟩, nofun⟩

section

variable {policy : κ} {outputChunks : ℕ} {input output : PlannedEdge κ}

/-- The output planned for a compression has exactly the room. -/
theorem le_compress_bytes_iff (h : planStageOutput plugins datatype slice (.compress (some policy))
      outputChunks input = .ok output) (bytes : ℕ) :
    bytes ≤ output.bytes ↔ RoomFor plugins policy input bytes := by
  obtain ⟨bound, hbound, h⟩ := bind_eq_ok.mp h
  obtain rfl := ok.inj h
  simp only [RoomFor, hbound, ok.injEq, exists_eq_left']
  cases cocclCompressorSupports plugins (some policy) .framed
  · simp only [Bool.not_false, true_and, forall_const]
    split_ifs <;> omega
  · simp

theorem plannedReduceCompressBytes_eq {rawOutput : PlannedEdge κ} {genericBytes planned : ℕ}
    (h : plannedReduceCompressBytes plugins input (some policy) rawOutput genericBytes =
      .ok planned) (bytes : ℕ) :
    bytes ≤ planned ↔ bytes ≤ genericBytes ∧ bytes ≤ rawOutput.bytes ∨
      input.compressor = some policy ∧
      cocclCompressorSupports plugins (some policy) .decompressReduceCompress = true ∧
      ∃ bound, queryEncodedBound plugins (some policy) .decompressReduceCompress rawOutput =
        .ok bound ∧ bound ≤ rawOutput.bytes ∧ bytes ≤ bound := by
  unfold plannedReduceCompressBytes at h
  split_ifs at h with hfused
  · obtain ⟨fused, hquery, h⟩ := bind_eq_ok.mp h
    obtain rfl := ok.inj h
    simp only [hfused, hquery, ok.injEq, exists_eq_left', true_and]
    split_ifs <;> omega
  · obtain rfl := ok.inj h
    rw [← and_assoc, or_iff_left fun hroom => hfused hroom.1, Nat.le_min]

/-- The output planned for a reduction that is encoded anew. -/
theorem le_reduceComp_bytes_iff (h : planStageOutput plugins datatype slice (.decompReduceComp
      reduceChunks (some policy)) outputChunks input = .ok output) :
    ∃ raw, planRawEdge datatype slice outputChunks = .ok raw ∧ ∀ bytes, bytes ≤ output.bytes ↔
      RoomFor plugins policy raw bytes ∨ FusedRoomFor plugins policy input raw bytes := by
  obtain ⟨raw, hraw, h⟩ := bind_eq_ok.mp h
  obtain ⟨bound, hbound, h⟩ := bind_eq_ok.mp h
  obtain ⟨planned, hplanned, h⟩ := bind_eq_ok.mp h
  obtain rfl := ok.inj h
  refine ⟨raw, hraw, fun bytes => ?_⟩
  simp only [RoomFor, FusedRoomFor, hbound, ok.injEq, exists_eq_left']
  cases cocclCompressorSupports plugins (some policy) .framed
  · simpa using plannedReduceCompressBytes_eq hplanned bytes
  · simp

end

variable (plugins datatype slice) in
/-- How the output of a stage is planned from the edge in front of it. -/
structure PlannedStep (stage : Stage κ) (input output : PlannedEdge κ) (outputChunks : ℕ) :
    Prop where
  input_shaped : input.Shaped slice
  shaped : output.Shaped slice
  chunks : cocclPipelineStageOutputChunks stage input.logicalChunks = .ok outputChunks
  plan : planStageOutput plugins datatype slice stage outputChunks input = .ok output

variable {outputs : List (PlannedEdge κ)} {stages : List (Stage κ)} {chunks : List ℕ}

/-- Every output along the stages is planned by one step; the stages behind it are accepted. -/
theorem PlannedChain.step (hinput : input.Shaped slice)
    (hchunks : stageChunks stages input.logicalChunks = .ok chunks)
    (h : PlannedChain plugins datatype slice input (stages.zip chunks) outputs) {k : ℕ}
    (hk : outputs[k]? = some output) :
    ∃ stage previous outputChunks, stages[k]? = some stage ∧
      (input :: outputs)[k]? = some previous ∧
      PlannedStep plugins datatype slice stage previous output outputChunks := by
  induction stages generalizing chunks input outputs k with
  | nil =>
    cases h
    simp at hk
  | cons stage rest ih =>
    obtain ⟨first, hfirst, hchunks⟩ := bind_eq_ok.mp hchunks
    obtain ⟨others, hothers, hchunks⟩ := bind_eq_ok.mp hchunks
    obtain rfl := ok.inj hchunks
    cases h with
    | @cons _ next _ _ _ outputs head tail =>
      have hshaped := planStageOutput_shaped hinput hfirst head
      have hnext := (planStageOutput_carries head).1
      cases k with
      | zero =>
        obtain rfl := Option.some.inj hk
        exact ⟨stage, input, first, rfl, rfl, hinput, hshaped, hfirst, head⟩
      | succ k =>
        rw [List.getElem?_cons_succ] at hk
        rw [← hnext] at hothers
        obtain ⟨stage', previous, c, hstage, hprevious, hstep⟩ := ih hshaped hothers tail hk
        exact ⟨stage', previous, c, hstage, hprevious, hstep⟩

/-- Every all-to-all of an accepted list of stages splits its chunks evenly over its ranks. -/
def Splits : List (Stage κ) → ℕ → Prop
  | [], _ => True
  | stage :: rest, chunks =>
    (∀ comm counts, stage = .allToAll comm → stageChunks rest chunks = .ok counts →
      comm.nRanks ∣ chunks) ∧
      ∀ outputChunks, cocclPipelineStageOutputChunks stage chunks = .ok outputChunks →
        Splits rest outputChunks

theorem PlannedChain.splits (hsplits : Splits stages input.logicalChunks)
    (hchunks : stageChunks stages input.logicalChunks = .ok chunks)
    (h : PlannedChain plugins datatype slice input (stages.zip chunks) outputs) {k : ℕ}
    {previous : PlannedEdge κ} {comm : Comm} (hstage : stages[k]? = some (.allToAll comm))
    (hk : (input :: outputs)[k]? = some previous) : comm.nRanks ∣ previous.logicalChunks := by
  induction stages generalizing chunks input outputs k with
  | nil => simp at hstage
  | cons stage rest ih =>
    obtain ⟨first, hfirst, hchunks⟩ := bind_eq_ok.mp hchunks
    obtain ⟨others, hothers, hchunks⟩ := bind_eq_ok.mp hchunks
    obtain rfl := ok.inj hchunks
    cases h with
    | @cons _ next _ _ _ outputs head tail =>
      have hnext := (planStageOutput_carries head).1
      cases k with
      | zero =>
        obtain rfl := Option.some.inj hk
        obtain rfl := Option.some.inj hstage
        obtain rfl := ok.inj hfirst
        exact hsplits.1 comm others rfl hothers
      | succ k =>
        rw [List.getElem?_cons_succ] at hk hstage
        rw [← hnext] at hothers hfirst
        exact ih (hsplits.2 _ hfirst) hothers tail hstage hk

/-- The compressor of the last output is what the stages carry. -/
theorem PlannedChain.last_compressor {final : PlannedEdge κ}
    (hchunks : stages.length ≤ chunks.length)
    (h : PlannedChain plugins datatype slice input (stages.zip chunks) outputs)
    (hfinal : (input :: outputs).getLast? = some final) :
    final.compressor = stages.foldl carriedCompressor input.compressor := by
  induction stages generalizing chunks input outputs with
  | nil =>
    cases h
    obtain rfl := Option.some.inj hfinal
    rfl
  | cons stage rest ih =>
    cases chunks with
    | nil => exact absurd hchunks (by simp)
    | cons first others =>
      cases h with
      | @cons _ next _ _ _ outputs head tail =>
        obtain ⟨-, -, hcarried⟩ := planStageOutput_carries head
        rw [List.foldl_cons, ← hcarried]
        exact ih (by simpa using hchunks) tail (by simpa using hfinal)

end

/-! ## The relation -/

/-- A run-time edge stays within the planned one. -/
structure Simulates {κ : Type} (planned : PlannedEdge κ) (edge : PipelineEdge κ) : Prop where
  bytes_le : edge.bytes ≤ planned.bytes
  logicalChunks : edge.logicalChunks = planned.logicalChunks
  compressor : edge.compressor = planned.compressor
  framed : edge.frameMetadata.isSome = planned.framed
  frameStrideBytes : edge.frameStrideBytes = planned.frameStrideBytes
  dvd : edge.logicalChunks ∣ edge.bytes

/-- A buffer made for a planned output. -/
structure OutputFor {κ : Type} (planned : PlannedEdge κ) (output : StageOutput) : Prop where
  capacityBytes : output.capacityBytes = planned.bytes
  framed : output.frameMetadata.isSome = planned.framed
  frameStrideBytes : output.frameStrideBytes = planned.frameStrideBytes

/-- The context of a stage that runs on `slice`. -/
structure ContextFor (slice : SliceShape) (datatype : DataType) (context : StageContext) :
    Prop where
  rawSliceCount : context.rawSliceCount = slice.elementCount
  rawSliceBytes : context.rawSliceBytes = slice.bytes
  rawDatatype : context.rawDatatype = datatype
  bytes_eq : slice.bytes = slice.elementCount * dataTypeSize datatype

section

variable {κ : Type} {plugins : κ → Plugin} {runtime : CompressorRuntime κ}
  {framesValid : Stage κ → PipelineEdge κ → Bool} {datatype : DataType} {slice : SliceShape}
  {context : StageContext} {outputChunks : ℕ} {input planned : PlannedEdge κ}
  {edge edge' : PipelineEdge κ} {output : StageOutput}

/-- The elements of a raw edge and their bytes are within range. -/
theorem ContextFor.bytes (hcontext : ContextFor slice datatype context) {chunks : ℕ}
    (hbytes : slice.bytes * chunks ≤ sizeMax) (hcount : slice.elementCount * chunks ≤ sizeMax) :
    sizeMul context.rawSliceCount chunks = slice.elementCount * chunks ∧
      sizeMul (slice.elementCount * chunks) (dataTypeSize context.rawDatatype) =
        slice.bytes * chunks := by
  have heq : slice.elementCount * chunks * dataTypeSize datatype = slice.bytes * chunks := by
    rw [hcontext.bytes_eq]
    ring
  rw [hcontext.rawSliceCount, hcontext.rawDatatype, sizeMul_eq hcount, sizeMul_eq (heq ▸ hbytes)]
  exact ⟨rfl, heq⟩

theorem Fills.simulates {view filled : CompressorView} {compressor : Option κ}
    (h : Fills view filled planned.logicalChunks) (houtput : OutputFor planned output)
    (hcapacity : view.capacityBytes = output.capacityBytes)
    (hframes : view.frameMetadata = output.frameMetadata)
    (hstride : view.frameStrideBytes = output.frameStrideBytes)
    (hcompressor : compressor = planned.compressor) :
    Simulates planned
      (edgeOfView filled compressor filled.frameMetadata filled.frameStrideBytes) where
  bytes_le := h.bytes_le.trans_eq (hcapacity.trans houtput.capacityBytes)
  logicalChunks := h.chunks_eq
  compressor := hcompressor
  framed := by
    rw [← houtput.framed, ← hframes, ← h.frameMetadata]
    rfl
  frameStrideBytes := h.frameStrideBytes.trans (hstride.trans houtput.frameStrideBytes)
  dvd := by
    show filled.chunks ∣ filled.bytes
    rw [h.chunks_eq]
    exact h.dvd

theorem Fills.simulates_raw {view filled : CompressorView}
    (h : Fills view filled planned.logicalChunks) (hcapacity : view.capacityBytes = planned.bytes)
    (hraw : planned.compressor = none ∧ planned.framed = false ∧ planned.frameStrideBytes = 0) :
    Simulates planned (edgeOfView filled none none 0) where
  bytes_le := h.bytes_le.trans_eq hcapacity
  logicalChunks := h.chunks_eq
  compressor := hraw.1.symm
  framed := hraw.2.1.symm
  frameStrideBytes := hraw.2.2.symm
  dvd := by
    show filled.chunks ∣ filled.bytes
    rw [h.chunks_eq]
    exact h.dvd

theorem Simulates.moved (h : Simulates planned edge) (ptr : ℕ) :
    Simulates planned { edge with ptr := ptr } :=
  ⟨h.bytes_le, h.logicalChunks, h.compressor, h.framed, h.frameStrideBytes, h.dvd⟩

/-- Frames are exchanged into an output with room for them. -/
theorem Simulates.exchanged (h : Simulates planned edge) (houtput : OutputFor planned output) :
    Simulates planned { edge with
      ptr := output.ptr
      frameMetadata := output.frameMetadata
      frameStrideBytes := output.frameStrideBytes } :=
  ⟨h.bytes_le, h.logicalChunks, h.compressor, houtput.framed, houtput.frameStrideBytes, h.dvd⟩

namespace StageHandler

theorem exchangeFrames_eq {stage : Stage κ}
    (h : exchangeFrames framesValid stage edge output = .ok edge') :
    edge' = { edge with
      ptr := output.ptr
      frameMetadata := output.frameMetadata
      frameStrideBytes := output.frameStrideBytes } := by
  obtain ⟨-, h⟩ := ite_error_eq_ok.mp h
  obtain ⟨-, h⟩ := ite_error_eq_ok.mp h
  exact (ok.inj h).symm

theorem runAllToAll_simulates {comm : Comm} (hsim : Simulates planned edge)
    (houtput : OutputFor planned output)
    (h : runAllToAll framesValid comm edge output = .ok edge') :
    Simulates planned edge' ∧ edge'.ptr = output.ptr := by
  unfold runAllToAll at h
  split at h
  · obtain ⟨-, h⟩ := ite_error_eq_ok.mp h
    obtain rfl := exchangeFrames_eq h
    exact ⟨hsim.exchanged houtput, rfl⟩
  · obtain rfl := ok.inj h
    exact ⟨hsim.moved _, rfl⟩

/-- Gathering multiplies the planned and the run-time sizes alike; the planned products are in
range, so the unchecked ones are. -/
theorem gathered_simulates {comm : Comm} {elements : ℕ} (hsim : Simulates input edge)
    (hbytes : input.bytes * comm.nRanks ≤ sizeMax)
    (hchunks : input.logicalChunks * comm.nRanks ≤ sizeMax) :
    Simulates { input with
        bytes := input.bytes * comm.nRanks
        totalElements := elements
        logicalChunks := input.logicalChunks * comm.nRanks }
      (gathered comm edge) := by
  have hle : edge.bytes * comm.nRanks ≤ input.bytes * comm.nRanks :=
    Nat.mul_le_mul_right _ hsim.bytes_le
  have hbytesEq : sizeMul edge.bytes comm.nRanks = edge.bytes * comm.nRanks :=
    sizeMul_eq (hle.trans hbytes)
  have hchunksEq : sizeMul edge.logicalChunks comm.nRanks = edge.logicalChunks * comm.nRanks :=
    sizeMul_eq (hsim.logicalChunks ▸ hchunks)
  refine ⟨?_, ?_, hsim.compressor, hsim.framed, hsim.frameStrideBytes, ?_⟩
  · exact hbytesEq.le.trans hle
  · exact hchunksEq.trans (by rw [hsim.logicalChunks])
  · show sizeMul edge.logicalChunks comm.nRanks ∣ sizeMul edge.bytes comm.nRanks
    rw [hbytesEq, hchunksEq]
    exact mul_dvd_mul_right hsim.dvd _

theorem runAllGather_simulates {comm : Comm} {elements : ℕ} (hsim : Simulates input edge)
    (hbytes : input.bytes * comm.nRanks ≤ sizeMax)
    (hchunks : input.logicalChunks * comm.nRanks ≤ sizeMax)
    (hplanned : planned = { input with
      bytes := input.bytes * comm.nRanks
      totalElements := elements
      logicalChunks := input.logicalChunks * comm.nRanks })
    (houtput : OutputFor planned output)
    (h : runAllGather framesValid comm edge output = .ok edge') :
    Simulates planned edge' ∧ edge'.ptr = output.ptr := by
  have hgathered := @gathered_simulates κ input edge comm elements hsim hbytes hchunks
  rw [← hplanned] at hgathered
  unfold runAllGather at h
  split at h
  · obtain ⟨-, h⟩ := ite_error_eq_ok.mp h
    obtain ⟨received, hreceived, h⟩ := bind_eq_ok.mp h
    obtain rfl := exchangeFrames_eq hreceived
    obtain rfl := ok.inj h
    exact ⟨hgathered.exchanged houtput, rfl⟩
  · obtain rfl := ok.inj h
    exact ⟨hgathered.moved _, rfl⟩

theorem runDecompressReduce_simulates (hdecodes : DecodesAsPlanned runtime)
    (hcontext : ContextFor slice datatype context)
    (hchunks : edge.logicalChunks / reduceChunks = outputChunks)
    (hplan : planRawEdge datatype slice outputChunks = .ok planned)
    (houtput : OutputFor planned output)
    (h : runDecompressReduce plugins runtime context reduceChunks edge output = .ok edge') :
    Simulates planned edge' ∧ edge'.ptr = output.ptr := by
  obtain ⟨rfl, hbytes, hcount⟩ := planRawEdge_eq hplan
  obtain ⟨elements, helements, h⟩ := bind_eq_ok.mp h
  obtain ⟨rfl, -⟩ := mul_eq_some.mp (orElse_eq_ok.mp helements)
  obtain ⟨reduced, hreduced, h⟩ := bind_eq_ok.mp h
  obtain rfl := ok.inj h
  obtain ⟨-, hproduct⟩ := hcontext.bytes hbytes hcount
  rw [hchunks, hcontext.rawSliceCount] at hreduced
  have hfills := ncclDecompressReduce_fills hdecodes hchunks.symm (by
      show outputChunks ∣ sizeMul (slice.elementCount * outputChunks) _
      rw [hproduct]
      exact dvd_mul_left _ _)
    (by
      show sizeMul (slice.elementCount * outputChunks) _ ≤ output.capacityBytes
      rw [hproduct, houtput.capacityBytes]) hreduced
  exact ⟨hfills.simulates_raw houtput.capacityBytes ⟨rfl, rfl, rfl⟩, hfills.data⟩

theorem runReduceScatter_simulates (hcontext : ContextFor slice datatype context) {comm : Comm}
    (hchunks : edge.logicalChunks / comm.nRanks = outputChunks)
    (hplan : planRawEdge datatype slice outputChunks = .ok planned)
    (h : runReduceScatter context comm edge output = .ok edge') :
    Simulates planned edge' ∧ edge'.ptr = output.ptr := by
  obtain ⟨rfl, hbytes, hcount⟩ := planRawEdge_eq hplan
  obtain rfl := ok.inj h
  obtain ⟨helements, hproduct⟩ := hcontext.bytes hbytes hcount
  simp only [hchunks, helements, hproduct, and_true]
  exact ⟨le_rfl, rfl, rfl, rfl, rfl, dvd_mul_left _ _⟩

/-! ### Encoded outputs -/

variable [DecidableEq κ]

/-- The policy a stage encodes with, and the call its handler makes to it. -/
def encoderCall (plugins : κ → Plugin) (runtime : CompressorRuntime κ) (context : StageContext)
    (stage : Stage κ) (edge : PipelineEdge κ) (output : StageOutput) :
    Result (κ × CompressorCall) :=
  let view (chunks : ℕ) : CompressorView :=
    ⟨output.ptr, output.capacityBytes, 0, 0, chunks, .int8, output.frameMetadata,
      output.frameStrideBytes⟩
  match stage with
  | .compress (some policy) =>
    .ok (policy, ⟨.compress, edge.view, view edge.logicalChunks, 0, edge.datatype,
      edge.totalElements⟩)
  | .decompReduceComp reduceChunks (some policy) => do
    let chunks := edge.logicalChunks / reduceChunks
    let elements ← orInvalid (cocclPipelineCheckedMultiply context.rawSliceCount chunks)
    if edge.view.frameMetadata = none ∧ edge.view.datatype ≠ compressorRawPassthrough ∧
        edge.compressor = some policy ∧
        cocclCompressorSupports plugins edge.compressor .decompressReduceCompress then
      pure (policy, ⟨.decompressReduceCompress, edge.view, view chunks, reduceChunks,
        context.rawDatatype, elements⟩)
    else do
      let scratch ← decompressToScratch runtime edge.compressor edge.view context.rawDatatype
        elements reduceChunks
      let bytes := sizeMul elements (dataTypeSize context.rawDatatype)
      pure (policy, ⟨.compress, ⟨scratch.1, bytes, bytes, elements, chunks, context.rawDatatype,
        none, 0⟩, view chunks, 0, context.rawDatatype, elements⟩)
  | _ => .error .invalidUsage

variable {policy : κ}

/-- The handler of a stage that encodes ends with the call. -/
theorem handlers_encoderCall {stage : Stage κ} {call : CompressorCall}
    (hchunks : cocclPipelineStageOutputChunks stage edge.logicalChunks = .ok outputChunks)
    (h : encoderCall plugins runtime context stage edge output = .ok (policy, call)) :
    (call.Encodes ∧ call.output.data = output.ptr ∧
        call.output.capacityBytes = output.capacityBytes ∧ call.output.chunks = outputChunks) ∧
      (handlers plugins runtime framesValid context stage edge output = .ok edge' ↔
        ∃ encoded, cocclExecuteCompressor runtime (some policy) call = .ok encoded ∧
          edgeOfView encoded (some policy) encoded.frameMetadata encoded.frameStrideBytes =
            edge') := by
  unfold encoderCall at h
  split at h
  · obtain ⟨rfl, rfl⟩ := Prod.mk.inj (ok.inj h)
    exact ⟨⟨.inl ⟨rfl, rfl⟩, rfl, rfl, ok.inj hchunks⟩,
      bind_eq_ok.trans (exists_congr fun _ => and_congr Iff.rfl (ok.injEq _ _).to_iff)⟩
  · obtain ⟨-, hchunks⟩ := ite_error_eq_ok.mp hchunks
    obtain rfl := ok.inj hchunks
    obtain ⟨elements, helements, h⟩ := bind_eq_ok.mp h
    simp only [handlers, runDecompReduceComp, CompressorRuntime.ncclDecompReduceComp, helements,
      bind_eq_ok, ok.injEq, exists_eq_left', pure, Except.pure]
    split_ifs at h with hfused
    · obtain ⟨rfl, rfl⟩ := Prod.mk.inj (ok.inj h)
      rw [← hfused.2.2.1]
      refine ⟨⟨.inr ⟨rfl, rfl⟩, rfl, rfl, rfl⟩, exists_congr fun encoded => and_congr ?_ Iff.rfl⟩
      rw [if_pos ⟨hfused.1, hfused.2.1, rfl, hfused.2.2.2⟩]
    · obtain ⟨scratch, hscratch, h⟩ := bind_eq_ok.mp h
      obtain ⟨rfl, rfl⟩ := Prod.mk.inj (ok.inj h)
      refine ⟨⟨.inl ⟨rfl, rfl⟩, rfl, rfl, rfl⟩, exists_congr fun encoded => and_congr ?_ Iff.rfl⟩
      rw [if_neg hfused, hscratch]
      rfl
  · cases h

/-- What a plugin encodes for a stage, in equal chunks, is accepted where there is room for it. -/
def Accepts (plugins : κ → Plugin) (runtime : CompressorRuntime κ)
    (framesValid : Stage κ → PipelineEdge κ → Bool) (context : StageContext) (stage : Stage κ)
    (edge : PipelineEdge κ) (output : StageOutput) (room : ℕ → Prop) : Prop :=
  ∀ policy call args, encoderCall plugins runtime context stage edge output = .ok (policy, call) →
    output.ptr ≠ 0 → runtime.execute policy call = .ok (some args) →
    args.Encodes call.output.chunks →
    ((∃ edge', handlers plugins runtime framesValid context stage edge output = .ok edge' ∧
      edge'.bytes = args.elements) ↔ room args.elements)

theorem handlers_accepts {stage : Stage κ}
    (hchunks : cocclPipelineStageOutputChunks stage edge.logicalChunks = .ok outputChunks)
    (hpos : 0 < outputChunks) (houtput : OutputFor planned output) {room : ℕ → Prop}
    (hroom : ∀ bytes, bytes ≤ planned.bytes ↔ room bytes) :
    Accepts plugins runtime framesValid context stage edge output room := by
  intro policy call args hcall hptr hexecute hargs
  obtain ⟨⟨hencodes, hdata, hcapacity, hcallChunks⟩, -⟩ :=
    @handlers_encoderCall _ _ _ framesValid _ _ _ edge _ _ _ _ _ hchunks hcall
  have haccepts := cocclExecuteCompressor_accepts hencodes (hdata ▸ hptr) (hcallChunks ▸ hpos)
    hargs hexecute
  rw [hcapacity, houtput.capacityBytes, hroom] at haccepts
  rw [← haccepts]
  simp only [(handlers_encoderCall hchunks hcall).2]
  constructor
  · rintro ⟨_, ⟨encoded, hencoded, rfl⟩, hbytes⟩
    exact ⟨encoded, hencoded, hbytes⟩
  · rintro ⟨encoded, hencoded, hbytes⟩
    exact ⟨_, ⟨encoded, hencoded, rfl⟩, hbytes⟩

/-- A compression accepts what the plan of its stage has room for. -/
theorem compress_accepts (hplan : planStageOutput plugins datatype slice (.compress (some policy))
      outputChunks input = .ok planned) (hsim : Simulates input edge)
    (hchunks : cocclPipelineStageOutputChunks (.compress (some policy)) input.logicalChunks =
      .ok outputChunks) (houtput : OutputFor planned output) :
    Accepts plugins runtime framesValid context (.compress (some policy)) edge output
      (RoomFor plugins policy input) := by
  have hroom := le_compress_bytes_iff hplan
  have hpos := ((hroom 0).mp (Nat.zero_le _)).chunks_pos
  rw [ok.inj hchunks] at hpos
  rw [← hsim.logicalChunks] at hchunks
  exact handlers_accepts hchunks hpos houtput hroom

/-- So does a reduction that is encoded anew. -/
theorem reduceComp_accepts (hplan : planStageOutput plugins datatype slice (.decompReduceComp
      reduceChunks (some policy)) outputChunks input = .ok planned) (hsim : Simulates input edge)
    (hchunks : cocclPipelineStageOutputChunks (.decompReduceComp reduceChunks (some policy))
      input.logicalChunks = .ok outputChunks) (houtput : OutputFor planned output) :
    ∃ raw, planRawEdge datatype slice outputChunks = .ok raw ∧
      Accepts plugins runtime framesValid context (.decompReduceComp reduceChunks (some policy))
        edge output fun bytes =>
          RoomFor plugins policy raw bytes ∨ FusedRoomFor plugins policy input raw bytes := by
  obtain ⟨raw, hraw, hroom⟩ := le_reduceComp_bytes_iff hplan
  have hpos : 0 < raw.logicalChunks :=
    ((hroom 0).mp (Nat.zero_le _)).elim RoomFor.chunks_pos FusedRoomFor.chunks_pos
  rw [(planRawEdge_eq hraw).1] at hpos
  rw [← hsim.logicalChunks] at hchunks
  exact ⟨raw, hraw, handlers_accepts hchunks hpos houtput hroom⟩

/-- **Every stage keeps the simulation.** -/
theorem handlers_simulates (hdecodes : DecodesAsPlanned runtime)
    (hcontext : ContextFor slice datatype context) {stage : Stage κ}
    (hchunks : cocclPipelineStageOutputChunks stage input.logicalChunks = .ok outputChunks)
    (hplan : planStageOutput plugins datatype slice stage outputChunks input = .ok planned)
    (houtput : OutputFor planned output) (hsim : Simulates input edge)
    (h : handlers plugins runtime framesValid context stage edge output = .ok edge') :
    Simulates planned edge' ∧ edge'.ptr = output.ptr := by
  obtain ⟨hcarriedChunks, -, hcarried⟩ := planStageOutput_carries hplan
  cases stage with
  | compress compressor =>
    obtain ⟨encoded, hencoded, h⟩ := bind_eq_ok.mp h
    obtain rfl := ok.inj h
    have hfills := ncclCompress_fills hencoded
    have hinput : edge.logicalChunks = planned.logicalChunks :=
      (hsim.logicalChunks.trans (ok.inj hchunks)).trans hcarriedChunks.symm
    change Fills _ _ edge.logicalChunks at hfills
    rw [hinput] at hfills
    exact ⟨hfills.simulates houtput rfl rfl rfl hcarried.symm, hfills.data⟩
  | allToAll comm =>
    obtain rfl := ok.inj hchunks
    obtain rfl := ok.inj hplan
    exact runAllToAll_simulates hsim houtput h
  | allGather comm =>
    obtain ⟨bytes, hbytes, hplan⟩ := bind_eq_ok.mp hplan
    obtain ⟨elements, -, hplan⟩ := bind_eq_ok.mp hplan
    obtain ⟨rfl, hbytesLe⟩ := mul_eq_some.mp (orElse_eq_ok.mp hbytes)
    obtain ⟨rfl, hchunksLe⟩ := mul_eq_some.mp (orElse_eq_ok.mp hchunks)
    exact runAllGather_simulates hsim hbytesLe hchunksLe (ok.inj hplan).symm houtput h
  | decompReduceComp reduceChunks compressor =>
    obtain ⟨-, hchunks⟩ := ite_error_eq_ok.mp hchunks
    obtain ⟨elements, -, h⟩ := bind_eq_ok.mp h
    obtain ⟨encoded, hencoded, h⟩ := bind_eq_ok.mp h
    obtain rfl := ok.inj h
    have hfills := ncclDecompReduceComp_fills hencoded
    have hinput : edge.logicalChunks / reduceChunks = planned.logicalChunks := by
      rw [hsim.logicalChunks, ok.inj hchunks, hcarriedChunks]
    change Fills _ _ (edge.logicalChunks / reduceChunks) at hfills
    rw [hinput] at hfills
    exact ⟨hfills.simulates houtput rfl rfl rfl hcarried.symm, hfills.data⟩
  | decompressReduce reduceChunks =>
    obtain ⟨-, hchunks⟩ := ite_error_eq_ok.mp hchunks
    have hinput : edge.logicalChunks / reduceChunks = outputChunks := by
      rw [hsim.logicalChunks, ok.inj hchunks]
    exact runDecompressReduce_simulates hdecodes hcontext hinput hplan houtput h
  | decompress =>
    obtain ⟨decoded, hdecoded, h⟩ := bind_eq_ok.mp h
    obtain rfl := ok.inj h
    obtain ⟨rfl, -⟩ := planRawEdge_eq hplan
    have hinput : edge.logicalChunks = outputChunks :=
      hsim.logicalChunks.trans (ok.inj hchunks)
    have hfills := ncclDecompress_fills hdecodes (by rfl) hsim.dvd hdecoded
    change Fills _ _ edge.logicalChunks at hfills
    rw [hinput] at hfills
    exact ⟨hfills.simulates_raw houtput.capacityBytes ⟨rfl, rfl, rfl⟩, hfills.data⟩
  | reduceScatter comm =>
    have hinput : edge.logicalChunks / comm.nRanks = outputChunks := by
      rw [hsim.logicalChunks, ok.inj hchunks]
    exact runReduceScatter_simulates hcontext hinput hplan h
  | pack | unpack =>
    obtain rfl := ok.inj hchunks
    obtain rfl := ok.inj hplan
    obtain rfl := ok.inj h
    exact ⟨hsim.moved _, rfl⟩

end StageHandler

end

end Coccl
