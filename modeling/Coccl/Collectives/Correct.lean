import Coccl.Collectives.Algorithms
import Coccl.Collectives.Slices

/-!
# The collectives compute their defining result

The slices of a pipeline are followed one by one: the elements of the first `s` slices are in the
output, and what later slices read is still there.
-/

namespace Coccl

theorem foldlM_range_induction {σ : Type*} {n : ℕ} {f : σ → ℕ → Option σ} {I : ℕ → σ → Prop}
    (hstep : ∀ s < n, ∀ x, I s x → ∃ x', f x s = some x' ∧ I (s + 1) x') {x : σ} (hzero : I 0 x) :
    ∃ x', (List.range n).foldlM f x = some x' ∧ I n x' := by
  induction n with
  | zero => exact ⟨x, rfl, hzero⟩
  | succ n ih =>
    obtain ⟨y, hy, hIy⟩ := ih fun s hs => hstep s (Nat.lt_succ_of_lt hs)
    obtain ⟨z, hz, hIz⟩ := hstep n (Nat.lt_succ_self n) y hIy
    refine ⟨z, ?_, hIz⟩
    rw [List.range_succ, List.foldlM_append, hy]
    simpa using hz

/-- The result of an operation, element by element. -/
theorem chunkResult_apply {α : Type} [AddCommMonoid α] {m : ℕ} (nRanks : ℕ)
    (X : ℕ → ℕ → Fin m → α) (operation : Operation) (g c : ℕ) (j : Fin m) :
    chunkResult nRanks X operation g c j =
      chunkResult nRanks (fun q c => X q c j) operation g c := by
  cases operation with
  | allGather | allToAll => rfl
  | reduceScatter | allReduce =>
    simp only [chunkResult]
    rw [Pi.list_sum_apply, List.map_map]
    rfl

section

variable {α β κ : Type} [AddCommMonoid α] [DecidableEq κ] (plugins : κ → Plugin)
  (codecs : κ → Codec α β) (cluster : Cluster) (specs : ℕ → PipelineSpec κ)
  (contexts : ℕ → PipelineContext κ)

/-- The ranks prepared their pipelines with one shape, and the pack step permutes the chunks by
`source`. -/
structure PreparedAll (rawChunkCount depth inputChunks finalChunks : ℕ) (source : ℕ → ℕ) :
    Prop where
  prepared : ∀ g < cluster.nRanks, ∃ requestedDepth chunks requireSerial logical,
    Prepared plugins (specs g) requestedDepth (contexts g) chunks requireSerial logical
  rawChunkCount_eq : ∀ g < cluster.nRanks, (specs g).rawChunkCount = rawChunkCount
  depth_eq : ∀ g < cluster.nRanks, (contexts g).depth = depth
  inputChunks_eq : ∀ g < cluster.nRanks, (specs g).inputChunks = inputChunks
  finalChunks_eq : ∀ g < cluster.nRanks, (contexts g).plan.finalChunks = finalChunks
  stages_eq : ∀ g < cluster.nRanks, (specs g).stages.length = (specs 0).stages.length
  source_eq : ∀ g < cluster.nRanks, (contexts g).sourceChunk = source
  swizzle : ∀ g < cluster.nRanks,
    (contexts g).stageContext.inputLayout = .hierarchicalSwizzle →
      (specs g).inputChunks =
        (contexts g).stageContext.nNodes * (contexts g).stageContext.ranksPerNode

variable {plugins codecs cluster specs contexts}
  {rawChunkCount depth inputChunks finalChunks : ℕ} {source : ℕ → ℕ}

namespace PreparedAll

/-- What holds of the memories before slice `s`. -/
structure Reached (cluster : Cluster) (specs : ℕ → PipelineSpec κ)
    (rawChunkCount depth inputChunks finalChunks : ℕ) (operation : Operation)
    (initial : List (UserMemory α)) (s : ℕ) (memories : List (UserMemory α)) : Prop where
  done : ∀ g < cluster.nRanks, ∀ c < finalChunks, ∀ e < progress rawChunkCount depth s,
    memories.getD g 0 ((specs g).outputElement (c * rawChunkCount + e)) =
      chunkResult cluster.nRanks
        (fun q c => initial.getD q 0 ((specs q).inputElement (c * rawChunkCount + e))) operation g c
  kept : ∀ g < cluster.nRanks, ∀ t, s ≤ t → t < depth → ∀ c < inputChunks,
    ∀ j < (exactSlice rawChunkCount depth 0 t).elementCount,
      memories.getD g 0
          ((specs g).inputElement (c * rawChunkCount + (progress rawChunkCount depth t + j))) =
        initial.getD g 0
          ((specs g).inputElement (c * rawChunkCount + (progress rawChunkCount depth t + j)))

variable {operation : Operation} {initial memories : List (UserMemory α)}

variable (A : PreparedAll plugins cluster specs contexts rawChunkCount depth inputChunks finalChunks
  source)

include A

theorem spec_eq {g : ℕ} (hg : g < cluster.nRanks) : (contexts g).spec = specs g := by
  obtain ⟨_, _, _, _, P⟩ := A.prepared g hg
  exact P.spec_eq

/-- A slice does not write over what earlier slices wrote. -/
theorem outputElement_ne {g s e c c' j : ℕ} (hg : g < cluster.nRanks) (hs : s < depth)
    (he : e < progress rawChunkCount depth s)
    (hj : j < (exactSlice rawChunkCount depth 0 s).elementCount) :
    (specs g).outputElement (c' * rawChunkCount + (progress rawChunkCount depth s + j)) ≠
      (specs g).outputElement (c * rawChunkCount + e) := by
  obtain ⟨_, _, _, _, P⟩ := A.prepared g hg
  intro heq
  obtain ⟨-, hcolumn⟩ := Blocks.mul_add_inj (progress_add_lt hs hj)
    (he.trans_le (progress_le_count hs.le))
    ((specs g).outputElement_injective P.typeBytes_pos heq)
  omega

theorem outputElement_ne_inputElement {g s t : ℕ} (hg : g < cluster.nRanks) (hs : s < depth)
    (ht : t < depth) (hst : s ≠ t) {c j c' j' : ℕ} (hc : c < finalChunks)
    (hj : j < (exactSlice rawChunkCount depth 0 s).elementCount) (hc' : c' < inputChunks)
    (hj' : j' < (exactSlice rawChunkCount depth 0 t).elementCount) :
    (specs g).outputElement (c * rawChunkCount + (progress rawChunkCount depth s + j)) ≠
      (specs g).inputElement (c' * rawChunkCount + (progress rawChunkCount depth t + j')) := by
  obtain ⟨_, _, _, _, P⟩ := A.prepared g hg
  have hcount := A.rawChunkCount_eq g hg
  have hdepth := A.depth_eq g hg
  have hinput := A.inputChunks_eq g hg
  have hfinal := A.finalChunks_eq g hg
  subst hcount hdepth hinput hfinal
  exact P.outputElement_ne_inputElement hs ht hst hc hj hc' hj'

theorem inputEdge_holds {g s : ℕ} (hg : g < cluster.nRanks) (hs : s < depth)
    (memory : UserMemory α) :
    ((contexts g).inputEdge (exactSlice rawChunkCount depth 0 s).elementCount s memory :
        ValueEdge α β κ _).Holds codecs none inputChunks
      fun p j => memory ((specs g).inputElement
        (source p * rawChunkCount + (progress rawChunkCount depth s + j))) := by
  obtain ⟨_, _, _, _, P⟩ := A.prepared g hg
  obtain ⟨hcount, hdepth⟩ := And.intro (A.rawChunkCount_eq g hg) (A.depth_eq g hg)
  rw [← A.inputChunks_eq g hg, ← A.source_eq g hg, ← hcount, ← hdepth]
  exact P.inputEdge_holds (A.swizzle g hg) (hdepth ▸ hs) rfl memory

theorem storeSlice_spec {g s : ℕ} (hg : g < cluster.nRanks) (hs : s < depth)
    {edge : ValueEdge α β κ (exactSlice rawChunkCount depth 0 s).elementCount}
    {f : ℕ → Fin (exactSlice rawChunkCount depth 0 s).elementCount → α}
    (hedge : edge.Holds codecs none finalChunks f) (memory : UserMemory α) :
    ∃ memory', (contexts g).storeSlice s edge memory = some memory' ∧
      (∀ c < finalChunks, ∀ j : Fin (exactSlice rawChunkCount depth 0 s).elementCount,
        memory' ((specs g).outputElement
          (c * rawChunkCount + (progress rawChunkCount depth s + j))) = f c j) ∧
      ∀ a, (∀ c < finalChunks, ∀ j < (exactSlice rawChunkCount depth 0 s).elementCount,
        (specs g).outputElement (c * rawChunkCount + (progress rawChunkCount depth s + j)) ≠ a) →
        memory' a = memory a := by
  obtain ⟨_, _, _, _, P⟩ := A.prepared g hg
  have hcount := A.rawChunkCount_eq g hg
  have hdepth := A.depth_eq g hg
  have hfinal := A.finalChunks_eq g hg
  subst hcount hdepth hfinal
  exact P.storeSlice_spec hs rfl hedge memory

variable (hsource : ∀ p < inputChunks, source p < inputChunks)
  (hruns : ∀ {m : ℕ} (X : ℕ → ℕ → Fin m → α),
    Runs codecs plugins cluster (fun g => (specs g).stages) none inputChunks
      (fun g p => X g (source p)) none finalChunks (chunkResult cluster.nRanks X operation))

include hsource hruns

/-- **One slice.** -/
theorem runSlice_reached {s : ℕ} (hs : s < depth) (hsmall : ∀ g < cluster.nRanks, smallReductions
      (exactSlice rawChunkCount depth 0 s).elementCount (specs g).stages inputChunks = true)
    (h : Reached cluster specs rawChunkCount depth inputChunks finalChunks operation initial s
      memories) :
    ∃ memories', runSlice plugins codecs cluster contexts
        (exactSlice rawChunkCount depth 0 s).elementCount s memories = some memories' ∧
      Reached cluster specs rawChunkCount depth inputChunks finalChunks operation initial (s + 1)
        memories' := by
  let X : ℕ → ℕ → Fin (exactSlice rawChunkCount depth 0 s).elementCount → α := fun g c j =>
    initial.getD g 0
      ((specs g).inputElement (c * rawChunkCount + (progress rawChunkCount depth s + j)))
  -- the stages start from the initial rows, which earlier slices left alone
  have hedges : AllHold codecs cluster
      ((List.range cluster.nRanks).map fun g => ((contexts g).inputEdge
        (exactSlice rawChunkCount depth 0 s).elementCount s (memories.getD g 0) :
          ValueEdge α β κ _)) none inputChunks fun g p => X g (source p) := by
    intro g hg
    rw [List.getD_eq_getElem?_getD, List.getElem?_map, List.getElem?_range hg]
    refine (A.inputEdge_holds hg hs (memories.getD g 0)).congr fun p hp => funext fun j => ?_
    exact h.kept g hg s le_rfl hs _ (hsource p hp) j j.2
  have hlength : ∀ g < cluster.nRanks, (specs g).stages.length = (contexts 0).stageCount := by
    intro g hg
    rw [A.stages_eq g hg, PipelineContext.stageCount, A.spec_eq cluster.nRanks_pos]
  obtain ⟨edges', hstages, hedges'⟩ := (hruns X).run _ hlength hsmall _ hedges
  rw [runStages_congr (fun g hg => congrArg PipelineSpec.stages (A.spec_eq hg).symm)] at hstages
  obtain ⟨memories', hstore, hmemories'⟩ := exists_mapM_range (0 : UserMemory α)
    fun g hg => A.storeSlice_spec hg hs (hedges' g hg) (memories.getD g 0)
  refine ⟨memories', ?_, ?_, ?_⟩
  · rw [runSlice, hstages]
    exact hstore
  · intro g hg c hc e he
    obtain ⟨hwritten, hframe⟩ := hmemories' g hg
    rcases lt_or_ge e (progress rawChunkCount depth s) with hearlier | hlater
    · rw [hframe _ fun c' hc' j hj => A.outputElement_ne hg hs hearlier hj]
      exact h.done g hg c hc e hearlier
    · obtain ⟨j, rfl⟩ := Nat.exists_eq_add_of_le hlater
      rw [@progress_succ _ _ 0 _ hs] at he
      exact (hwritten c hc ⟨j, by omega⟩).trans (chunkResult_apply _ X operation g c _)
  · intro g hg t hst ht c hc j hj
    obtain ⟨-, hframe⟩ := hmemories' g hg
    rw [hframe _ fun c' hc' j' hj' =>
      A.outputElement_ne_inputElement hg hs ht (by omega) hc' hj' hc hj]
    exact h.kept g hg t (by omega) ht c hc j hj

/-- **All slices.** The run succeeds and leaves the operation's result in every element. -/
theorem runPipelines_spec
    (hsmall : ∀ g < cluster.nRanks, ∀ s < depth, smallReductions
      ((contexts g).slice s).elementCount (contexts g).spec.stages (contexts g).spec.inputChunks =
        true)
    (initial : List (UserMemory α)) :
    ∃ memories, runPipelines plugins codecs cluster contexts initial = some memories ∧
      ∀ g < cluster.nRanks, ∀ c < finalChunks, ∀ e < rawChunkCount,
        memories.getD g 0 ((specs g).outputElement (c * rawChunkCount + e)) =
          chunkResult cluster.nRanks
            (fun q c => initial.getD q 0 ((specs q).inputElement (c * rawChunkCount + e)))
            operation g c := by
  have hdepth := A.depth_eq 0 cluster.nRanks_pos
  have hslice : ∀ g < cluster.nRanks, ∀ s < depth,
      ((contexts g).slice s).elementCount = (exactSlice rawChunkCount depth 0 s).elementCount := by
    intro g hg s hs
    obtain ⟨_, _, _, _, P⟩ := A.prepared g hg
    rw [P.slice_eq ((A.depth_eq g hg).symm ▸ hs), A.rawChunkCount_eq g hg, A.depth_eq g hg]
    rfl
  have hshape : SameShape cluster contexts := by
    intro g hg
    refine ⟨(A.depth_eq g hg).trans hdepth.symm, ?_, fun s hs => ?_⟩
    · rw [PipelineContext.stageCount, PipelineContext.stageCount, A.spec_eq hg,
        A.spec_eq cluster.nRanks_pos, A.stages_eq g hg]
    · rw [hslice g hg s (hdepth ▸ hs), hslice 0 cluster.nRanks_pos s (hdepth ▸ hs)]
  have hstart : Reached cluster specs rawChunkCount depth inputChunks finalChunks operation
      initial 0 initial := by
    refine ⟨fun g hg c _ e he => ?_, fun _ _ _ _ _ _ _ _ _ => rfl⟩
    obtain ⟨_, _, _, _, P⟩ := A.prepared g hg
    rw [progress_zero (A.depth_eq g hg ▸ P.depth_pos.1)] at he
    exact absurd he (Nat.not_lt_zero e)
  have hstep : ∀ s < depth, ∀ memories, Reached cluster specs rawChunkCount depth inputChunks
      finalChunks operation initial s memories →
      ∃ memories', runSlice plugins codecs cluster contexts ((contexts 0).slice s).elementCount s
          memories = some memories' ∧
        Reached cluster specs rawChunkCount depth inputChunks finalChunks operation initial (s + 1)
          memories' := by
    intro s hs memories h
    rw [hslice 0 cluster.nRanks_pos s hs]
    refine A.runSlice_reached hsource hruns hs (fun g hg => ?_) h
    rw [← hslice g hg s hs, ← A.inputChunks_eq g hg, ← A.spec_eq hg]
    exact hsmall g hg s hs
  obtain ⟨memories, hrun, hreached⟩ := foldlM_range_induction hstep hstart
  refine ⟨memories, ?_, fun g hg c hc e he => ?_⟩
  · rw [runPipelines, if_pos hshape, hdepth]
    exact hrun
  · refine hreached.done g hg c hc e ?_
    rwa [progress, if_pos rfl]

end PreparedAll

end

end Coccl
