import Coccl.Pipeline.Layout

/-!
# The logical plan

`buildLogicalPlan` walks the stages once, planning each stage's output and giving it a temporary.
Without the walk: the outputs form a chain along the stages (`PlannedChain`), and every output but a
last one in the user's buffer has the temporary of its own position, which holds its payload and,
behind it, the metadata of its frames (`TempPlan.WellSized`).
-/

namespace Coccl

open Checked List Except

/-! ## Temporaries -/

/-- A temporary holds its payload, and its frame metadata behind the payload. -/
structure TempPlan.WellSized (temp : TempPlan) : Prop where
  payload_le : temp.payloadBytes ≤ temp.alignedBytes
  metadata_le : temp.frameMetadataBytes ≠ 0 → temp.payloadBytes ≤ temp.frameMetadataOffset ∧
    temp.frameMetadataOffset + temp.frameMetadataBytes ≤ temp.alignedBytes

/-- `temp` is a temporary for `edge`. -/
structure TempFor {κ : Type} (edge : PlannedEdge κ) (temp : TempPlan) : Prop where
  sized : temp.WellSized
  payloadBytes : temp.payloadBytes = edge.bytes
  frameStrideBytes : temp.frameStrideBytes = edge.frameStrideBytes
  frameMetadataBytes : temp.frameMetadataBytes =
    if edge.framed then edge.logicalChunks * frameMetadataSize else 0

theorem align_le {bytes aligned : ℕ} (h : cocclAlignPipelineBytes bytes = some aligned) :
    bytes ≤ aligned :=
  (alignUp_spec (by decide) h).2.1

theorem frameSizes_spec {κ : Type} {edge : PlannedEdge κ} {sizes : ℕ × ℕ × ℕ}
    (h : frameSizes edge = .ok sizes) :
    edge.bytes ≤ sizes.2.2 ∧
    (sizes.2.1 ≠ 0 → edge.bytes ≤ sizes.1 ∧ sizes.1 + sizes.2.1 ≤ sizes.2.2) ∧
    sizes.2.1 = if edge.framed then edge.logicalChunks * frameMetadataSize else 0 := by
  unfold frameSizes at h
  split at h
  · rename_i hframed
    obtain ⟨offset, hoffset, h⟩ := bind_eq_ok.mp h
    obtain ⟨metadata, hmetadata, h⟩ := bind_eq_ok.mp h
    obtain ⟨logical, hlogical, h⟩ := bind_eq_ok.mp h
    have hpayload := align_le (orElse_eq_ok.mp hoffset)
    obtain ⟨rfl, -⟩ := mul_eq_some.mp (orElse_eq_ok.mp hmetadata)
    obtain rfl := add_le (orElse_eq_ok.mp hlogical)
    obtain rfl := ok.inj h
    exact ⟨hpayload.trans (Nat.le_add_right _ _), fun _ => ⟨hpayload, le_rfl⟩, by simp [hframed]⟩
  · rename_i hframed
    obtain rfl := ok.inj h
    exact ⟨le_rfl, fun h => absurd rfl h, by simp [hframed]⟩

theorem newTemp_spec {κ : Type} {role : TempRole} {edge : PlannedEdge κ} {temp : TempPlan}
    (h : newTemp role edge = .ok temp) : TempFor edge temp := by
  obtain ⟨sizes, hsizes, h⟩ := bind_eq_ok.mp h
  obtain ⟨aligned, haligned, h⟩ := bind_eq_ok.mp h
  obtain ⟨hpayload, hmetadata, hbytes⟩ := frameSizes_spec hsizes
  have hle := align_le (orElse_eq_ok.mp haligned)
  obtain rfl := ok.inj h
  refine ⟨⟨hpayload.trans hle, fun hne => ?_⟩, rfl, rfl, hbytes⟩
  obtain ⟨hoffset, hend⟩ := hmetadata hne
  exact ⟨hoffset, hend.trans hle⟩

/-! ## The chain of planned outputs -/

section

variable {κ : Type} [DecidableEq κ] (plugins : κ → Plugin) (datatype : DataType)
  (slice : SliceShape)

/-- The outputs planned along the stages, each from the one before it. -/
inductive PlannedChain : PlannedEdge κ → List (Stage κ × ℕ) → List (PlannedEdge κ) → Prop
  | nil (edge : PlannedEdge κ) : PlannedChain edge [] []
  | cons {edge output : PlannedEdge κ} {stage : Stage κ} {chunks : ℕ}
      {rest : List (Stage κ × ℕ)} {outputs : List (PlannedEdge κ)}
      (head : planStageOutput plugins datatype slice stage chunks edge = .ok output)
      (tail : PlannedChain output rest outputs) :
      PlannedChain edge ((stage, chunks) :: rest) (output :: outputs)

variable {plugins datatype slice} {edge : PlannedEdge κ} {stages : List (Stage κ × ℕ)}
  {outputs : List (PlannedEdge κ)}

theorem PlannedChain.length (h : PlannedChain plugins datatype slice edge stages outputs) :
    outputs.length = stages.length := by
  induction h with
  | nil => rfl
  | cons _ _ ih => simp [ih]

variable (plugins) in
/-- Whether a stage's output is framed, from whether its input is. -/
def stageFramed : Stage κ → Bool → Bool
  | .compress compressor, _ | .decompReduceComp _ compressor, _ =>
    cocclCompressorSupports plugins compressor .framed
  | .allToAll _, framed | .allGather _, framed | .pack, framed | .unpack, framed => framed
  | .decompressReduce _, _ | .decompress, _ | .reduceScatter _, _ => false

/-- The compressor of the data behind a stage. -/
def carriedCompressor (compressor : Option κ) : Stage κ → Option κ
  | .compress encoder | .decompReduceComp _ encoder => encoder
  | .allToAll _ | .allGather _ | .pack | .unpack => compressor
  | .decompressReduce _ | .decompress | .reduceScatter _ => none

variable {chunks : ℕ}

omit [DecidableEq κ] in
theorem planRawEdge_eq (h : planRawEdge datatype slice chunks = .ok edge) :
    edge = ⟨slice.bytes * chunks, slice.elementCount * chunks, datatype, chunks, none, false, 0⟩ ∧
      slice.bytes * chunks ≤ sizeMax ∧ slice.elementCount * chunks ≤ sizeMax := by
  obtain ⟨elements, helements, h⟩ := bind_eq_ok.mp h
  obtain ⟨bytes, hbytes, h⟩ := bind_eq_ok.mp h
  obtain ⟨rfl, hle⟩ := mul_eq_some.mp (orElse_eq_ok.mp helements)
  obtain ⟨rfl, hle'⟩ := mul_eq_some.mp (orElse_eq_ok.mp hbytes)
  exact ⟨(ok.inj h).symm, hle', hle⟩

variable {output : PlannedEdge κ} {stage : Stage κ}

/-- What every stage's output takes from its input and its stage. -/
theorem planStageOutput_carries
    (h : planStageOutput plugins datatype slice stage chunks edge = .ok output) :
    output.logicalChunks = chunks ∧ output.framed = stageFramed plugins stage edge.framed ∧
      output.compressor = carriedCompressor edge.compressor stage := by
  cases stage with
  | compress compressor =>
    obtain ⟨bound, -, h⟩ := bind_eq_ok.mp h
    obtain rfl := ok.inj h
    exact ⟨rfl, rfl, rfl⟩
  | allGather comm =>
    obtain ⟨_, -, h⟩ := bind_eq_ok.mp h
    obtain ⟨_, -, h⟩ := bind_eq_ok.mp h
    obtain rfl := ok.inj h
    exact ⟨rfl, rfl, rfl⟩
  | decompReduceComp reduceChunks compressor =>
    obtain ⟨_, -, h⟩ := bind_eq_ok.mp h
    obtain ⟨_, -, h⟩ := bind_eq_ok.mp h
    obtain ⟨_, -, h⟩ := bind_eq_ok.mp h
    obtain rfl := ok.inj h
    exact ⟨rfl, rfl, rfl⟩
  | decompressReduce reduceChunks | decompress | reduceScatter comm =>
    obtain ⟨rfl, -⟩ := planRawEdge_eq h
    exact ⟨rfl, rfl, rfl⟩
  | allToAll comm | pack | unpack =>
    obtain rfl := ok.inj h
    exact ⟨rfl, rfl, rfl⟩

theorem PlannedChain.chunks_eq
    (h : PlannedChain plugins datatype slice edge stages outputs) :
    outputs.map (·.logicalChunks) = stages.map Prod.snd := by
  induction h with
  | nil => rfl
  | cons head _ ih => simp [(planStageOutput_carries head).1, ih]

/-- Each output is planned from the edge before it. -/
theorem PlannedChain.getElem?
    (h : PlannedChain plugins datatype slice edge stages outputs) {k : ℕ}
    (hk : outputs[k]? = some output) :
    ∃ stage chunks previous, stages[k]? = some (stage, chunks) ∧
      (edge :: outputs)[k]? = some previous ∧
      planStageOutput plugins datatype slice stage chunks previous = .ok output := by
  induction h generalizing k with
  | nil => simp at hk
  | @cons edge _ stage chunks rest outputs head _ ih =>
    rcases k with _ | k
    · obtain rfl := Option.some.inj hk
      exact ⟨stage, chunks, edge, rfl, rfl, head⟩
    · obtain ⟨stage, chunks, previous, hstage, hprevious, hplan⟩ := ih (by simpa using hk)
      exact ⟨stage, chunks, previous, by simpa using hstage, by simpa using hprevious, hplan⟩

/-- Two edges that differ in their sizes only. -/
structure SameFrames (edge other : PlannedEdge κ) : Prop where
  framed : edge.framed = other.framed
  logicalChunks : edge.logicalChunks = other.logicalChunks

variable {slice' : SliceShape}

/-- The frames along the stages do not depend on the slice. -/
theorem PlannedChain.sameFrames {edge' : PlannedEdge κ} {outputs' : List (PlannedEdge κ)}
    (h : PlannedChain plugins datatype slice edge stages outputs)
    (h' : PlannedChain plugins datatype slice' edge' stages outputs')
    (hedge : edge.framed = edge'.framed) : List.Forall₂ SameFrames outputs outputs' := by
  induction h generalizing edge' outputs' with
  | nil => cases h'; exact .nil
  | cons head _ ih =>
    cases h' with
    | cons head' tail' =>
      obtain ⟨hchunks, hframed, -⟩ := planStageOutput_carries head
      obtain ⟨hchunks', hframed', -⟩ := planStageOutput_carries head'
      replace hframed := hframed.trans ((congrArg _ hedge).trans hframed'.symm)
      replace hchunks := hchunks.trans hchunks'.symm
      exact .cons ⟨hframed, hchunks⟩ (ih tail' hframed)

/-- Without a framed compressor no edge is framed. -/
theorem PlannedChain.unframed
    (h : PlannedChain plugins datatype slice edge stages outputs) (hedge : edge.framed = false)
    (hstages : ∀ stage ∈ stages,
      cocclCompressorSupports plugins stage.1.compressor .framed = false) :
    ∀ output ∈ outputs, output.framed = false := by
  induction h with
  | nil => simp
  | @cons edge output stage chunks rest outputs head _ ih =>
    have hframed : output.framed = false := by
      have hstage := hstages (stage, chunks) mem_cons_self
      rw [(planStageOutput_carries head).2.1, hedge]
      cases stage <;> simp_all [stageFramed, Stage.compressor]
    intro out hout
    rcases mem_cons.mp hout with rfl | hout
    · exact hframed
    · exact ih hframed (fun s hs => hstages s (mem_cons_of_mem _ hs)) out hout

/-! ## The walk over the stages -/

/-- Indices of `stages` outputs of which the first `count` have temporaries from `first` on. -/
def outputTemps : ℕ → ℕ → ℕ → List (Option ℕ)
  | _, _, 0 => []
  | first, 0, stages + 1 => none :: outputTemps first 0 stages
  | first, count + 1, stages + 1 => some first :: outputTemps (first + 1) count stages

theorem outputTemps_getElem? (first count stages i : ℕ) : (outputTemps first count stages)[i]? =
    if i < stages then some (if i < count then some (first + i) else none) else none := by
  induction stages generalizing first count i with
  | zero => simp [outputTemps]
  | succ stages ih =>
    rcases count with _ | count <;> rcases i with _ | i
    · simp [outputTemps]
    · simp [outputTemps, ih]
    · simp [outputTemps]
    · simp [outputTemps, ih, add_assoc, add_comm 1]

/-- The last output goes to a temporary of its own rather than to the user's buffer. -/
def StagesOutput (depth : ℕ) (edge : PlannedEdge κ) : Prop := 1 < depth ∧ 1 < edge.logicalChunks

instance (depth : ℕ) (edge : PlannedEdge κ) : Decidable (StagesOutput depth edge) :=
  inferInstanceAs (Decidable (1 < depth ∧ 1 < edge.logicalChunks))

variable (plugins datatype slice) in
/-- What the walk over the stages adds to a plan. -/
structure StagesPlanned (depth : ℕ) (stages : List (Stage κ × ℕ)) (plan : PipelinePlan)
    (edge : PlannedEdge κ) (plan' : PipelinePlan) (edge' : PlannedEdge κ)
    (outputs : List (PlannedEdge κ)) (temps : List TempPlan) : Prop where
  chain : PlannedChain plugins datatype slice edge stages outputs
  last : outputs.getLast? = some edge'
  tempFor : List.Forall₂ TempFor
    (if StagesOutput depth edge' then outputs else outputs.dropLast) temps
  plan_eq : plan' = { plan with
    stageOutputCapacityBytes := plan.stageOutputCapacityBytes ++ outputs.map (·.bytes)
    temps := plan.temps ++ temps
    stageOutputTemp := plan.stageOutputTemp ++
      outputTemps plan.temps.length temps.length outputs.length
    outputStagingTemp :=
      if StagesOutput depth edge' then some (plan.temps.length + temps.length - 1)
      else plan.outputStagingTemp }

variable {plan : PipelinePlan}

omit [DecidableEq κ] in
theorem addTemp_spec {role : TempRole} {added : PipelinePlan × ℕ}
    (h : addTemp plan role edge = .ok added) :
    ∃ temp, TempFor edge temp ∧
      added = ({ plan with temps := plan.temps ++ [temp] }, plan.temps.length) := by
  obtain ⟨temp, htemp, h⟩ := bind_eq_ok.mp h
  exact ⟨temp, newTemp_spec htemp, (ok.inj h).symm⟩

variable {depth : ℕ} {planned : PipelinePlan × PlannedEdge κ}

/-- The last round of the loop. -/
theorem planStage_final
    (h : planStage plugins datatype slice depth stage chunks true plan edge = .ok planned) :
    ∃ temps, StagesPlanned plugins datatype slice depth [(stage, chunks)] plan edge
      planned.1 planned.2 [planned.2] temps := by
  obtain ⟨output, houtput, h⟩ := bind_eq_ok.mp h
  have chain : PlannedChain plugins datatype slice edge [(stage, chunks)] [output] :=
    .cons houtput (.nil output)
  simp only [if_true] at h
  split at h
  · rename_i hstages
    obtain ⟨added, hadded, h⟩ := bind_eq_ok.mp h
    obtain ⟨temp, htemp, rfl⟩ := addTemp_spec hadded
    obtain rfl := ok.inj h
    have hstages : StagesOutput depth output := hstages
    refine ⟨[temp], chain, rfl, ?_, by simp [hstages, outputTemps]⟩
    rw [if_pos hstages]
    exact .cons htemp .nil
  · rename_i hstages
    obtain rfl := ok.inj h
    have hstages : ¬StagesOutput depth output := hstages
    refine ⟨[], chain, rfl, ?_, by simp [hstages, outputTemps]⟩
    rw [if_neg hstages]
    exact .nil

/-- A round before the last one. -/
theorem planStage_inner
    (h : planStage plugins datatype slice depth stage chunks false plan edge = .ok planned) :
    planStageOutput plugins datatype slice stage chunks edge = .ok planned.2 ∧
    ∃ temp, TempFor planned.2 temp ∧ planned.1 = { plan with
      stageOutputCapacityBytes := plan.stageOutputCapacityBytes ++ [planned.2.bytes]
      temps := plan.temps ++ [temp]
      stageOutputTemp := plan.stageOutputTemp ++ [some plan.temps.length] } := by
  obtain ⟨output, houtput, h⟩ := bind_eq_ok.mp h
  simp only [Bool.false_eq_true, if_false] at h
  obtain ⟨added, hadded, h⟩ := bind_eq_ok.mp h
  obtain ⟨temp, htemp, rfl⟩ := addTemp_spec hadded
  obtain rfl := ok.inj h
  exact ⟨houtput, temp, htemp, rfl⟩

variable {plan' : PipelinePlan}

theorem planStages_spec {edge' : PlannedEdge κ} (hne : stages ≠ [])
    (h : planStages plugins datatype slice depth stages plan edge = .ok (plan', edge')) :
    ∃ outputs temps,
      StagesPlanned plugins datatype slice depth stages plan edge plan' edge' outputs temps := by
  induction stages generalizing plan edge with
  | nil => exact absurd rfl hne
  | cons stage rest ih =>
    obtain ⟨stage, chunks⟩ := stage
    obtain ⟨first, hfirst, h⟩ := bind_eq_ok.mp h
    rcases rest with _ | ⟨next, rest⟩
    · obtain ⟨rfl, rfl⟩ := Prod.mk.inj (ok.inj h)
      obtain ⟨temps, hplanned⟩ := planStage_final hfirst
      exact ⟨_, temps, hplanned⟩
    · obtain ⟨houtput, temp, htemp, hplan⟩ := planStage_inner hfirst
      obtain ⟨outputs, temps, chain, hlast, htemps, heq⟩ := ih (by simp) h
      have houts : outputs ≠ [] := by
        rintro rfl
        simp at hlast
      refine ⟨first.2 :: outputs, temp :: temps, .cons houtput chain, ?_, ?_, ?_⟩
      · rw [getLast?_cons_of_ne_nil houts, hlast]
      · split at htemps
        · rw [if_pos ‹_›]
          exact .cons htemp htemps
        · rw [if_neg ‹_›, dropLast_cons_of_ne_nil houts]
          exact .cons htemp htemps
      · rw [heq, hplan]
        simp only [map_cons, append_assoc, length_append, length_cons,
          length_nil, outputTemps, cons_append, nil_append, zero_add]
        congr 1
        split
        · simp
        · rfl

/-! ## The plan of one slice -/

omit [DecidableEq κ] in
/-- The input is packed before the first stage. -/
def StagesInput (spec : PipelineSpec κ) (depth : ℕ) (inputLayout : InputLayout) : Prop :=
  1 < spec.inputChunks ∧ (1 < depth ∨ inputLayout = .hierarchicalSwizzle)

instance (spec : PipelineSpec κ) (depth : ℕ) (inputLayout : InputLayout) :
    Decidable (StagesInput spec depth inputLayout) :=
  inferInstanceAs (Decidable (1 < spec.inputChunks ∧
    (1 < depth ∨ inputLayout = .hierarchicalSwizzle)))

variable (plugins) in
/-- The plan of one slice: its edges, and the temporaries that hold them. -/
structure SlicePlan (spec : PipelineSpec κ) (depth : ℕ) (inputLayout : InputLayout)
    (chunks : List ℕ) (slice : SliceShape) (plan : PipelinePlan) (input final : PlannedEdge κ)
    (outputs : List (PlannedEdge κ)) : Prop where
  input_eq : planRawEdge spec.datatype slice spec.inputChunks = .ok input
  chain : PlannedChain plugins spec.datatype slice input (spec.stages.zip chunks) outputs
  last : outputs.getLast? = some final
  tempFor : List.Forall₂ TempFor
    ((if StagesInput spec depth inputLayout then [input] else []) ++
      if StagesOutput depth final then outputs else outputs.dropLast) plan.temps
  inputStagingTemp : plan.inputStagingTemp =
    if StagesInput spec depth inputLayout then some 0 else none
  outputStagingTemp : plan.outputStagingTemp =
    if StagesOutput depth final then some (plan.temps.length - 1) else none
  stageOutputTemp : plan.stageOutputTemp =
    outputTemps (if StagesInput spec depth inputLayout then 1 else 0)
      (plan.temps.length - if StagesInput spec depth inputLayout then 1 else 0) outputs.length
  capacities : plan.stageOutputCapacityBytes = outputs.map (·.bytes)
  finalChunks : plan.finalChunks = final.logicalChunks

variable {inputLayout : InputLayout} {spec : PipelineSpec κ}

omit [DecidableEq κ] in
/-- The plan the walk starts from holds the staged input, or nothing. -/
theorem planInputStaging_spec {input : PlannedEdge κ} {start : PipelinePlan}
    (h : planInputStaging spec depth inputLayout input = .ok start) :
    List.Forall₂ TempFor (if StagesInput spec depth inputLayout then [input] else []) start.temps ∧
    start.inputStagingTemp = (if StagesInput spec depth inputLayout then some 0 else none) ∧
    start.outputStagingTemp = none ∧ start.stageOutputTemp = [] ∧
    start.stageOutputCapacityBytes = [] := by
  unfold planInputStaging at h
  split at h
  · rename_i hstaged
    obtain ⟨added, hadded, h⟩ := bind_eq_ok.mp h
    obtain ⟨temp, htemp, rfl⟩ := addTemp_spec hadded
    obtain rfl := ok.inj h
    have hstaged : StagesInput spec depth inputLayout := hstaged
    rw [if_pos hstaged, if_pos hstaged]
    exact ⟨.cons htemp .nil, rfl, rfl, rfl, rfl⟩
  · rename_i hstaged
    obtain rfl := ok.inj h
    have hstaged : ¬StagesInput spec depth inputLayout := hstaged
    rw [if_neg hstaged, if_neg hstaged]
    exact ⟨.nil, rfl, rfl, rfl, rfl⟩

theorem buildLogicalPlan_spec {chunks : List ℕ} (hstages : spec.stages.zip chunks ≠ [])
    (h : buildLogicalPlan plugins spec depth inputLayout chunks slice = .ok plan) :
    ∃ input final outputs,
      SlicePlan plugins spec depth inputLayout chunks slice plan input final outputs := by
  obtain ⟨input, hinput, h⟩ := bind_eq_ok.mp h
  obtain ⟨start, hstart, h⟩ := bind_eq_ok.mp h
  obtain ⟨⟨walked, final⟩, hwalk, h⟩ := bind_eq_ok.mp h
  obtain ⟨outputs, temps, chain, hlast, htemps, hplan⟩ := planStages_spec hstages hwalk
  obtain ⟨hinputTemps, hin, hout, hstageTemps, hcaps⟩ := planInputStaging_spec hstart
  obtain rfl := ok.inj h
  have hlen : start.temps.length = if StagesInput spec depth inputLayout then 1 else 0 := by
    rw [← hinputTemps.length_eq]
    split <;> rfl
  subst hplan
  refine ⟨input, final, outputs, hinput, chain, hlast, ?_, hin, ?_, ?_, ?_, rfl⟩
  · exact rel_append hinputTemps htemps
  · simp [hout]
  · simp [hstageTemps, hlen]
  · simp [hcaps]

/-- The temporaries of two plans whose edges have the same frames. -/
structure SameTemps (plan other : PipelinePlan) : Prop where
  inputStagingTemp : plan.inputStagingTemp = other.inputStagingTemp
  outputStagingTemp : plan.outputStagingTemp = other.outputStagingTemp
  stageOutputTemp : plan.stageOutputTemp = other.stageOutputTemp
  finalChunks : plan.finalChunks = other.finalChunks
  sized : ∀ item ∈ plan.temps, item.WellSized
  sized' : ∀ item ∈ other.temps, item.WellSized
  frames : List.Forall₂ (fun item item' : TempPlan =>
    item.frameMetadataBytes = item'.frameMetadataBytes) plan.temps other.temps

namespace SlicePlan

variable {chunks : List ℕ} {input final : PlannedEdge κ}
  (h : SlicePlan plugins spec depth inputLayout chunks slice plan input final outputs)

include h

theorem outputs_ne : outputs ≠ [] := by
  rintro rfl
  simpa using h.last

theorem sized : ∀ item ∈ plan.temps, item.WellSized := by
  intro item hitem
  obtain ⟨i, hi, rfl⟩ := getElem_of_mem hitem
  exact (h.tempFor.get (h.tempFor.length_eq ▸ hi) hi).sized

/-- The staged input and the staged output are different temporaries. -/
theorem boundaryDistinct : BoundaryDistinct plan := by
  refine ⟨fun temp hin hout => ?_⟩
  have hlen := h.tempFor.length_eq
  have hpos := length_pos_iff.mpr h.outputs_ne
  rw [h.inputStagingTemp] at hin
  rw [h.outputStagingTemp] at hout
  split_ifs at hin hout hlen
  simp only [Option.some.injEq] at hin hout
  simp only [length_append, length_cons, length_nil] at hlen
  omega

theorem input_framed : input.framed = false ∧ input.logicalChunks = spec.inputChunks := by
  obtain ⟨rfl, -⟩ := planRawEdge_eq h.input_eq
  exact ⟨rfl, rfl⟩

/-- The plans of two slices of one pipeline have the same temporaries but for their sizes. -/
theorem sameTemps {input' final' : PlannedEdge κ} {outputs' : List (PlannedEdge κ)}
    (h' : SlicePlan plugins spec depth inputLayout chunks slice' plan' input' final' outputs') :
    SameTemps plan plan' := by
  have hinput : SameFrames input input' :=
    ⟨h.input_framed.1.trans h'.input_framed.1.symm, h.input_framed.2.trans h'.input_framed.2.symm⟩
  have houtputs := h.chain.sameFrames h'.chain hinput.framed
  have hfinal : SameFrames final final' := by
    have hlast := h.last
    have hlast' := h'.last
    rw [getLast?_eq_getElem?] at hlast hlast'
    obtain ⟨hi, rfl⟩ := List.getElem?_eq_some_iff.mp hlast
    rw [← houtputs.length_eq] at hlast'
    obtain ⟨hi', rfl⟩ := List.getElem?_eq_some_iff.mp hlast'
    exact houtputs.get hi hi'
  have hstages : StagesOutput depth final ↔ StagesOutput depth final' := by
    rw [StagesOutput, StagesOutput, hfinal.logicalChunks]
  -- the edges that have temporaries, and with them the temporaries, go in pairs
  have hedges : List.Forall₂ SameFrames
      ((if StagesInput spec depth inputLayout then [input] else []) ++
        if StagesOutput depth final then outputs else outputs.dropLast)
      ((if StagesInput spec depth inputLayout then [input'] else []) ++
        if StagesOutput depth final' then outputs' else outputs'.dropLast) := by
    refine rel_append ?_ ?_
    · split
      · exact .cons hinput .nil
      · exact .nil
    · by_cases hs : StagesOutput depth final
      · rw [if_pos hs, if_pos (hstages.mp hs)]
        exact houtputs
      · rw [if_neg hs, if_neg (hstages.not.mp hs), dropLast_eq_take, dropLast_eq_take,
          ← houtputs.length_eq]
        exact forall₂_take _ houtputs
  have hlen : plan.temps.length = plan'.temps.length := by
    rw [← h.tempFor.length_eq, ← h'.tempFor.length_eq, hedges.length_eq]
  refine ⟨?_, ?_, ?_, ?_, h.sized, h'.sized, ?_⟩
  · rw [h.inputStagingTemp, h'.inputStagingTemp]
  · rw [h.outputStagingTemp, h'.outputStagingTemp, hlen]
    simp only [hstages]
  · rw [h.stageOutputTemp, h'.stageOutputTemp, hlen, houtputs.length_eq]
  · rw [h.finalChunks, h'.finalChunks, hfinal.logicalChunks]
  · refine forall₂_iff_get.mpr ⟨hlen, fun i hi hi' => ?_⟩
    have hedge := h.tempFor.get (h.tempFor.length_eq ▸ hi) hi
    have hedge' := h'.tempFor.get (h'.tempFor.length_eq ▸ hi') hi'
    have hsame := hedges.get (h.tempFor.length_eq ▸ hi) (h'.tempFor.length_eq ▸ hi')
    rw [hedge.frameMetadataBytes, hedge'.frameMetadataBytes, hsame.framed, hsame.logicalChunks]

theorem temps_length :
    plan.temps.length = (if StagesInput spec depth inputLayout then 1 else 0) +
      (outputs.length - if StagesOutput depth final then 0 else 1) := by
  rw [← h.tempFor.length_eq, length_append]
  split_ifs <;> simp

/-- The temporary of a stage's output holds that output. -/
theorem stageTemp {k : ℕ} (houtput : outputs[k]? = some output)
    (hk : k + 1 < outputs.length ∨ StagesOutput depth final) :
    ∃ item, plan.temps[(if StagesInput spec depth inputLayout then 1 else 0) + k]? = some item ∧
      TempFor output item := by
  have hlt := (List.getElem?_eq_some_iff.mp houtput).1
  have hedge : ((if StagesInput spec depth inputLayout then [input] else []) ++
      if StagesOutput depth final then outputs else outputs.dropLast)[
        (if StagesInput spec depth inputLayout then 1 else 0) + k]? = some output := by
    rw [getElem?_append_right (by split_ifs <;> simp)]
    have hindex : (if StagesInput spec depth inputLayout then 1 else 0) + k -
        (if StagesInput spec depth inputLayout then [input] else []).length = k := by
      split_ifs <;> simp
    rw [hindex]
    split_ifs with hs
    · exact houtput
    · rw [getElem?_dropLast, if_pos (by have := hk.resolve_right hs; omega), houtput]
  obtain ⟨hi, hget⟩ := List.getElem?_eq_some_iff.mp hedge
  have hi' := h.tempFor.length_eq ▸ hi
  exact ⟨_, getElem?_eq_getElem hi', hget ▸ h.tempFor.get hi hi'⟩

/-- The staged input holds the slice's input. -/
theorem inputTemp (hs : StagesInput spec depth inputLayout) :
    ∃ item, plan.temps[0]? = some item ∧ TempFor input item := by
  have htemps := h.tempFor
  rw [if_pos hs] at htemps
  generalize plan.temps = temps at htemps
  cases htemps with
  | cons head tail => exact ⟨_, rfl, head⟩

end SlicePlan

/-! ## A plan for two slice shapes -/

/-- `logical` has the temporaries of `plan`, each at least as large. -/
structure Covers (logical plan : PipelinePlan) : Prop where
  inputStagingTemp : logical.inputStagingTemp = plan.inputStagingTemp
  outputStagingTemp : logical.outputStagingTemp = plan.outputStagingTemp
  stageOutputTemp : logical.stageOutputTemp = plan.stageOutputTemp
  finalChunks : logical.finalChunks = plan.finalChunks
  temps_length : logical.temps.length = plan.temps.length
  temps : ∀ (i : ℕ) (item : TempPlan), plan.temps[i]? = some item →
    ∃ cover, logical.temps[i]? = some cover ∧ cover.WellSized ∧
      item.payloadBytes ≤ cover.payloadBytes ∧
      cover.frameMetadataBytes = item.frameMetadataBytes

/-- A merged plan covers both plans it was merged from. -/
theorem mergeLogicalPlan_covers {source target : PipelinePlan} (h : SameTemps source target) :
    Covers (mergeLogicalPlan source target) target ∧
      Covers (mergeLogicalPlan source target) source := by
  have hlen : source.temps.length = target.temps.length := h.frames.length_eq
  have hmerged : (mergeLogicalPlan source target).temps.length = target.temps.length := by
    simp [mergeLogicalPlan, hlen]
  have cover : ∀ {i : ℕ} {mine theirs : TempPlan}, target.temps[i]? = some mine →
      source.temps[i]? = some theirs → ∃ cover,
        (mergeLogicalPlan source target).temps[i]? = some cover ∧ cover.WellSized ∧
        mine.payloadBytes ≤ cover.payloadBytes ∧ theirs.payloadBytes ≤ cover.payloadBytes ∧
        cover.frameMetadataBytes = mine.frameMetadataBytes ∧
        cover.frameMetadataBytes = theirs.frameMetadataBytes := by
    intro i mine theirs hmine htheirs
    have hframes : theirs.frameMetadataBytes = mine.frameMetadataBytes := by
      obtain ⟨hi, rfl⟩ := List.getElem?_eq_some_iff.mp htheirs
      obtain ⟨hi', rfl⟩ := List.getElem?_eq_some_iff.mp hmine
      exact h.frames.get hi hi'
    refine ⟨if mine.payloadBytes < theirs.payloadBytes then theirs else mine,
      by simp [mergeLogicalPlan, getElem?_zipWith, hmine, htheirs], ?_⟩
    split
    · exact ⟨h.sized _ (mem_of_getElem? htheirs), by omega, le_rfl, hframes, rfl⟩
    · exact ⟨h.sized' _ (mem_of_getElem? hmine), le_rfl, by omega, rfl, hframes.symm⟩
  constructor
  · refine ⟨rfl, rfl, rfl, rfl, hmerged, fun i mine hmine => ?_⟩
    have hi := (List.getElem?_eq_some_iff.mp hmine).1
    obtain ⟨item, hitem, hsized, hmineLe, -, hframes, -⟩ :=
      cover hmine (getElem?_eq_getElem (hlen ▸ hi))
    exact ⟨item, hitem, hsized, hmineLe, hframes⟩
  · refine ⟨h.inputStagingTemp.symm, h.outputStagingTemp.symm, h.stageOutputTemp.symm,
      h.finalChunks.symm, hmerged.trans hlen.symm, fun i theirs htheirs => ?_⟩
    have hi := (List.getElem?_eq_some_iff.mp htheirs).1
    obtain ⟨item, hitem, hsized, -, htheirsLe, -, hframes⟩ :=
      cover (getElem?_eq_getElem (hlen ▸ hi)) htheirs
    exact ⟨item, hitem, hsized, htheirsLe, hframes⟩

theorem Covers.refl (h : ∀ item ∈ plan.temps, item.WellSized) : Covers plan plan :=
  ⟨rfl, rfl, rfl, rfl, rfl, fun _ item hi =>
    ⟨item, hi, h item (mem_of_getElem? hi), le_rfl, rfl⟩⟩

end

end Coccl
