import Coccl.Pipeline.Alike
import Coccl.Pipeline.OverlapOrder

/-!
# The inner collectives of a pipeline

`issued` is the sequence of inner collectives a rank issues, one for each communicating stage of
each slice. For compressors of fixed size two ranks with pipelines that differ only in their
addresses issue the same sequence exactly when they cut their chunks into the same number of slices
(`issued_eq_iff`).
-/

namespace Coccl

open Streams PipelineContext List

/-! ## What a rank issues -/

inductive InnerCommKind where
  | allToAll
  | allGather
  | reduceScatter
  deriving DecidableEq, Repr

/-- One inner collective: its kind, its communicator (which one, and of how many ranks) and the
bytes for each peer. -/
structure InnerComm where
  kind : InnerCommKind
  comm : ℕ
  commRanks : ℕ
  bytesPerPeer : ℕ
  deriving DecidableEq, Repr

section

variable {κ : Type}

/-- The NCCL call of a stage's handler, for an edge without frames. -/
def innerComm (context : StageContext) (edge : PipelineEdge κ) : Stage κ → Option InnerComm
  | .allToAll comm => some ⟨.allToAll, comm.handle, comm.nRanks, edge.bytes / comm.nRanks⟩
  | .allGather comm => some ⟨.allGather, comm.handle, comm.nRanks, edge.bytes⟩
  | .reduceScatter comm =>
    some ⟨.reduceScatter, comm.handle, comm.nRanks,
      sizeMul (sizeMul context.rawSliceCount (edge.logicalChunks / comm.nRanks))
        (dataTypeSize context.rawDatatype)⟩
  | _ => none

theorem innerComm_alike {context context' : StageContext} {edge edge' : PipelineEdge κ}
    {stage stage' : Stage κ} (hcontext : context.Alike context') (hedge : edge.Alike edge')
    (hstage : stage.Alike stage') :
    innerComm context edge stage = innerComm context' edge' stage' := by
  cases hstage <;> simp_all [innerComm, hcontext.rawSliceCount, hcontext.rawDatatype, hedge.bytes,
      hedge.logicalChunks]

/-- The communicator of a stage that calls NCCL. -/
def Stage.communicator : Stage κ → Option Comm
  | .allToAll comm | .allGather comm | .reduceScatter comm => some comm
  | _ => none

theorem Stage.Alike.isSome_communicator {stage stage' : Stage κ} (h : stage.Alike stage') :
    stage.communicator.isSome = stage'.communicator.isSome := by
  cases h <;> rfl

/-- A stage calls NCCL on its communicator. -/
theorem innerComm_communicator (context : StageContext) (edge : PipelineEdge κ) (stage : Stage κ) :
    (innerComm context edge stage).map (fun inner => (inner.comm, inner.commRanks)) =
      stage.communicator.map fun comm => (comm.handle, comm.nRanks) := by
  cases stage <;> rfl

theorem isSome_innerComm (context : StageContext) (edge : PipelineEdge κ) (stage : Stage κ) :
    (innerComm context edge stage).isSome = stage.communicator.isSome := by
  cases stage <;> rfl

variable [DecidableEq κ] (plugins : κ → Plugin) (runtime : CompressorRuntime κ)
  (framesValid : Stage κ → PipelineEdge κ → Bool) {context : PipelineContext κ}
  (workspace : PipelineWorkspace context)

/-- The work of `cocclRunPipelineWithDepth` in the order it is enqueued. -/
def enqueuedWorks (context : PipelineContext κ) : List WorkOp :=
  if context.depth = 1 then context.serialWorks else hostWorks (overlapProgram plugins context)

/-- The inner collective of a piece of work, if the run gets there. -/
def innerCommOf : WorkOp → Option InnerComm
  | .at slice (.stage k) =>
    context.spec.stages[k]?.bind fun stage =>
      (edgeAfter plugins runtime framesValid workspace slice k).toOption.bind fun edge =>
        innerComm (context.stageContextForSlice slice) edge stage
  | _ => none

def issued : List InnerComm :=
  (enqueuedWorks plugins context).filterMap (innerCommOf plugins runtime framesValid workspace)

end

section

variable {κ : Type} [DecidableEq κ] {plugins : κ → Plugin} {runtime : CompressorRuntime κ}
  {framesValid : Stage κ → PipelineEdge κ → Bool} {spec : PipelineSpec κ} {requestedDepth : ℤ}
  {context : PipelineContext κ} {chunks : List ℕ} {requireSerial : Bool} {logical : PipelinePlan}
  {workspace : PipelineWorkspace context}

/-- The inner collectives of one slice. -/
def sliceIssued (plugins : κ → Plugin) (runtime : CompressorRuntime κ)
    (framesValid : Stage κ → PipelineEdge κ → Bool) (workspace : PipelineWorkspace context)
    (slice : ℕ) : List InnerComm :=
  (List.range context.stageCount).filterMap fun k =>
    innerCommOf plugins runtime framesValid workspace (.at slice (.stage k))

/-- Without frames the slices are enqueued one after another, serial or not. -/
theorem issued_eq (P : Prepared plugins spec requestedDepth context chunks requireSerial logical)
    (hfixed : pipelineUsesFramedCompressor plugins spec = false) :
    issued plugins runtime framesValid workspace =
      (List.range context.depth).flatMap (sliceIssued plugins runtime framesValid workspace) := by
  have hplain : ∀ k < context.stageCount, context.usesFrameExchange k = false :=
    fun k hk => P.usesFrameExchange_eq_false hfixed hk
  have hworks : (enqueuedWorks plugins context).filterMap
      (innerCommOf plugins runtime framesValid workspace) =
        context.serialWorks.filterMap (innerCommOf plugins runtime framesValid workspace) := by
    unfold enqueuedWorks overlapProgram
    rw [P.spec_eq, hfixed]
    split
    · rfl
    · rw [if_neg Bool.false_ne_true, hostWorks_runOverlap hplain, filterMap_append]
      exact append_nil _
  have hsteps : (List.range context.stageCount).flatMap context.stageSteps =
      (List.range context.stageCount).map .stage := by
    rw [map_eq_flatMap]
    refine flatMap_congr fun k hk => ?_
    rw [stageSteps, hplain k (mem_range.mp hk), if_neg Bool.false_ne_true]
  rw [issued, hworks, serialWorks, filterMap_flatMap]
  refine congrArg (fun f => (List.range context.depth).flatMap f) (funext fun slice => ?_)
  -- packing and unpacking issue nothing
  have hends : ∀ (condition : Bool) (step : Step), (step = .pack ∨ step = .unpack) →
      ((if condition then [step] else []).map (WorkOp.at slice)).filterMap
        (innerCommOf plugins runtime framesValid workspace) = [] := by
    rintro condition step (rfl | rfl) <;> cases condition <;> rfl
  rw [sliceSteps, hsteps, map_append, map_append, filterMap_append,
    filterMap_append, hends _ _ (.inl rfl), hends _ _ (.inr rfl), nil_append,
    append_nil, map_map, filterMap_map]
  rfl

/-- The slice runs to its end. -/
def SliceRuns (plugins : κ → Plugin) (runtime : CompressorRuntime κ)
    (framesValid : Stage κ → PipelineEdge κ → Bool) (workspace : PipelineWorkspace context)
    (slice : ℕ) : Prop :=
  ∃ final, edgeAfter plugins runtime framesValid workspace slice context.stageCount = .ok final

variable {slice : ℕ}

/-- Every edge of a slice that runs to its end exists. -/
theorem edgeAfter_ok {k n : ℕ} (hk : k ≤ n) {final : PipelineEdge κ}
    (h : edgeAfter plugins runtime framesValid workspace slice n = .ok final) :
    ∃ edge, edgeAfter plugins runtime framesValid workspace slice k = .ok edge := by
  induction n generalizing final with
  | zero =>
    obtain rfl := Nat.le_zero.mp hk
    exact ⟨final, h⟩
  | succ n ih =>
    rcases Nat.lt_or_eq_of_le hk with hlt | rfl
    · obtain ⟨before, hbefore, -⟩ := Checked.bind_eq_ok.mp h
      exact ih (Nat.le_of_lt_succ hlt) hbefore
    · exact ⟨final, h⟩

/-- The number of communicating stages. -/
def communications (spec : PipelineSpec κ) : ℕ := spec.stages.countP (·.communicator.isSome)

section

variable (P : Prepared plugins spec requestedDepth context chunks requireSerial logical)

include P

theorem length_sliceIssued (hruns : SliceRuns plugins runtime framesValid workspace slice) :
    (sliceIssued plugins runtime framesValid workspace slice).length = communications spec := by
  obtain ⟨final, hfinal⟩ := hruns
  have hcount : context.stageCount = spec.stages.length := by rw [stageCount, P.spec_eq]
  have hsome : ∀ k ∈ List.range context.stageCount,
      ((innerCommOf plugins runtime framesValid workspace (.at slice (.stage k))).isSome = true ↔
        (spec.stages[k]?.any (·.communicator.isSome)) = true) := by
    intro k hk
    have hlt := mem_range.mp hk
    obtain ⟨edge, hedge⟩ := edgeAfter_ok hlt.le hfinal
    rw [innerCommOf, hedge, P.spec_eq, getElem?_eq_getElem (hcount ▸ hlt)]
    simp only [Option.bind_some, Except.toOption, isSome_innerComm, Option.any_some]
  have hmap : (List.range spec.stages.length).map
      (fun k => spec.stages[k]?.any (·.communicator.isSome)) =
        spec.stages.map (·.communicator.isSome) := by
    apply ext_getElem <;> simp +contextual
  rw [sliceIssued, length_filterMap_eq_countP, countP_congr hsome, hcount, communications]
  exact (countP_map (p := id) ..).symm.trans ((congrArg _ hmap).trans (countP_map (p := id) ..))

/-- The stage a slice's inner collective comes from. -/
theorem mem_sliceIssued (hruns : SliceRuns plugins runtime framesValid workspace slice)
    {inner : InnerComm} :
    inner ∈ sliceIssued plugins runtime framesValid workspace slice ↔
      ∃ k, ∃ h : k < spec.stages.length, ∃ edge,
        edgeAfter plugins runtime framesValid workspace slice k = .ok edge ∧
        innerComm (context.stageContextForSlice slice) edge (spec.stages.get ⟨k, h⟩) =
          some inner := by
  obtain ⟨final, hfinal⟩ := hruns
  have hcount : context.stageCount = spec.stages.length := by rw [stageCount, P.spec_eq]
  simp only [sliceIssued, mem_filterMap, mem_range, hcount]
  refine exists_congr fun k => ⟨?_, ?_⟩
  · rintro ⟨hk, hinner⟩
    obtain ⟨edge, hedge⟩ := edgeAfter_ok (hcount ▸ hk.le) hfinal
    rw [innerCommOf, hedge, P.spec_eq, getElem?_eq_getElem hk] at hinner
    exact ⟨hk, edge, hedge, hinner⟩
  · rintro ⟨hk, edge, hedge, hinner⟩
    refine ⟨hk, ?_⟩
    rw [innerCommOf, hedge, P.spec_eq, getElem?_eq_getElem hk]
    exact hinner

variable (hfixed : pipelineUsesFramedCompressor plugins spec = false)
  (hruns : ∀ slice < context.depth, SliceRuns plugins runtime framesValid workspace slice)

include hfixed hruns

/-- The communicators of the inner collectives are those of the stages. -/
theorem communicator_issued (handle nRanks : ℕ) :
    (∃ inner ∈ issued plugins runtime framesValid workspace,
      inner.comm = handle ∧ inner.commRanks = nRanks) ↔
      ∃ stage ∈ spec.stages, ∃ comm, stage.communicator = some comm ∧ comm.handle = handle ∧
        comm.nRanks = nRanks := by
  rw [issued_eq P hfixed]
  constructor
  · rintro ⟨inner, hinner, rfl, rfl⟩
    obtain ⟨slice, hslice, hinner⟩ := mem_flatMap.mp hinner
    obtain ⟨k, hk, edge, -, hinner⟩ :=
      (mem_sliceIssued P (hruns slice (mem_range.mp hslice))).mp hinner
    have hcomm := innerComm_communicator (context.stageContextForSlice slice) edge
      (spec.stages.get ⟨k, hk⟩)
    rw [hinner] at hcomm
    obtain ⟨comm, hcomm, heq⟩ := Option.map_eq_some_iff.mp hcomm.symm
    exact ⟨_, get_mem _ _, comm, hcomm, congrArg Prod.fst heq, congrArg Prod.snd heq⟩
  · rintro ⟨stage, hstage, comm, hcomm, rfl, rfl⟩
    obtain ⟨⟨k, hk⟩, rfl⟩ := mem_iff_get.mp hstage
    obtain ⟨final, hfinal⟩ := hruns 0 P.depth_pos.1
    have hle : k ≤ context.stageCount := by rw [stageCount, P.spec_eq]; exact hk.le
    obtain ⟨edge, hedge⟩ := edgeAfter_ok hle hfinal
    have hinner := innerComm_communicator (context.stageContextForSlice 0) edge
      (spec.stages.get ⟨k, hk⟩)
    rw [hcomm] at hinner
    obtain ⟨inner, hinner, heq⟩ := Option.map_eq_some_iff.mp hinner
    refine ⟨inner, mem_flatMap.mpr ⟨0, mem_range.mpr P.depth_pos.1, ?_⟩,
      congrArg Prod.fst heq, congrArg Prod.snd heq⟩
    exact (mem_sliceIssued P ⟨final, hfinal⟩).mpr ⟨k, hk, edge, hedge, hinner⟩

theorem length_issued :
    (issued plugins runtime framesValid workspace).length =
      context.depth * communications spec := by
  have hslices : ∀ slice ∈ List.range context.depth,
      (sliceIssued plugins runtime framesValid workspace slice).length = communications spec :=
    fun slice hslice => length_sliceIssued P (hruns slice (mem_range.mp hslice))
  rw [issued_eq P hfixed, length_flatMap, map_congr_left hslices, map_const',
    sum_replicate, length_range, smul_eq_mul]

end

section

variable {runtime' : CompressorRuntime κ} {framesValid' : Stage κ → PipelineEdge κ → Bool}
  {spec' : PipelineSpec κ} {requestedDepth' : ℤ} {context' : PipelineContext κ}
  {chunks' : List ℕ} {requireSerial' : Bool} {logical' : PipelinePlan}
  {workspace' : PipelineWorkspace context'}
  (halike : spec.Alike spec') (hfixed : pipelineUsesFramedCompressor plugins spec = false)
  (hsizes : SameSizes runtime runtime')
  (P : Prepared plugins spec requestedDepth context chunks requireSerial logical)
  (P' : Prepared plugins spec' requestedDepth' context' chunks' requireSerial' logical')
include halike hfixed hsizes P P'

theorem sliceIssued_alike (hdepth : context.depth = context'.depth) (hslice : slice < context.depth)
    (hruns : SliceRuns plugins runtime framesValid workspace slice)
    (hruns' : SliceRuns plugins runtime' framesValid' workspace' slice) :
    sliceIssued plugins runtime framesValid workspace slice =
      sliceIssued plugins runtime' framesValid' workspace' slice := by
  obtain ⟨final, hfinal⟩ := hruns
  obtain ⟨final', hfinal'⟩ := hruns'
  have hcount := stageCount_alike P halike P'
  unfold sliceIssued
  rw [← hcount]
  refine filterMap_congr fun k hk => ?_
  have hk := mem_range.mp hk
  obtain ⟨edge, hedge⟩ := edgeAfter_ok hk.le hfinal
  obtain ⟨edge', hedge'⟩ := edgeAfter_ok (hcount ▸ hk).le hfinal'
  have hlt : k < spec.stages.length := by rwa [stageCount, P.spec_eq] at hk
  have hlt' : k < spec'.stages.length := halike.stages.length_eq ▸ hlt
  rw [innerCommOf, innerCommOf, hedge, hedge', P.spec_eq, P'.spec_eq,
    getElem?_eq_getElem hlt, getElem?_eq_getElem hlt']
  exact innerComm_alike (stageContextForSlice_alike P halike P' hdepth slice)
    (edgeAfter_alike P halike P' hdepth hfixed hsizes hslice hk.le hedge hedge')
    (halike.stages.get hlt hlt')

omit [DecidableEq κ] hfixed hsizes P P' in
theorem communications_alike : communications spec = communications spec' := by
  have hcount : ∀ {stages stages' : List (Stage κ)}, List.Forall₂ Stage.Alike stages stages' →
      stages.countP (·.communicator.isSome) = stages'.countP (·.communicator.isSome) := by
    intro stages stages' h
    induction h with
    | nil => rfl
    | cons hstage _ ih => simp only [countP_cons, hstage.isSome_communicator, ih]
  exact hcount halike.stages

/-- **Two ranks issue the same if and only if they cut their chunks alike.** -/
theorem issued_eq_iff (hpos : 0 < communications spec)
    (hruns : ∀ slice < context.depth, SliceRuns plugins runtime framesValid workspace slice)
    (hruns' : ∀ slice < context'.depth,
      SliceRuns plugins runtime' framesValid' workspace' slice) :
    issued plugins runtime framesValid workspace = issued plugins runtime' framesValid' workspace' ↔
      context.depth = context'.depth := by
  have hfixed' : pipelineUsesFramedCompressor plugins spec' = false :=
    pipelineUsesFramedCompressor_alike plugins halike ▸ hfixed
  constructor
  · intro h
    have hlength := congrArg List.length h
    rw [length_issued P hfixed hruns, length_issued P' hfixed' hruns',
      ← communications_alike halike] at hlength
    exact Nat.eq_of_mul_eq_mul_right hpos hlength
  · intro hdepth
    rw [issued_eq P hfixed, issued_eq P' hfixed', ← hdepth]
    refine flatMap_congr fun slice hslice => ?_
    have hslice := mem_range.mp hslice
    exact sliceIssued_alike halike hfixed hsizes P P' hdepth hslice (hruns slice hslice)
      (hruns' slice (hdepth ▸ hslice))

end

end

end Coccl
