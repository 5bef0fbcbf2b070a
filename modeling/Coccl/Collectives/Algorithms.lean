import Coccl.Collectives.Primitives
import Coccl.Collectives.StageSpecs

/-!
# What the algorithms' stages compute

The stages of every algorithm, run on all ranks of a cluster, leave the collective's result chunk by
chunk. The hierarchical algorithms start from swizzled chunks: those of one local rank next to each
other, node by node.
-/

namespace Coccl

open Blocks List

namespace Cluster

variable (cluster : Cluster)

def hierarchy (rank : ℕ) : HierarchicalComms :=
  ⟨cluster.comm rank .intra, cluster.comm rank .inter⟩

@[simp] theorem hierarchy_intra_nRanks (rank : ℕ) :
    (cluster.hierarchy rank).intraComm.nRanks = cluster.localRanks :=
  cluster.comm_nRanks rank .intra

@[simp] theorem hierarchy_inter_nRanks (rank : ℕ) :
    (cluster.hierarchy rank).interComm.nRanks = cluster.nNodes := cluster.comm_nRanks rank .inter

/-- The chunk at a position of the swizzled input. -/
def swizzledChunk (p : ℕ) : ℕ := p % cluster.nNodes * cluster.localRanks + p / cluster.nNodes

/-- The chunk that a rank's local rank and a node select. -/
theorem swizzledChunk_place {g c : ℕ} (hc : c < cluster.nNodes) :
    cluster.swizzledChunk (g % cluster.localRanks * cluster.nNodes + c) =
      c * cluster.localRanks + g % cluster.localRanks := by
  rw [swizzledChunk, mul_add_mod hc, mul_add_div hc]

end Cluster

/-- What an operation leaves in chunk `c` on rank `g`, from the chunks of all ranks. -/
def chunkResult {γ : Type} [AddCommMonoid γ] (nRanks : ℕ) (X : ℕ → ℕ → γ) :
    Operation → ℕ → ℕ → γ
  | .allGather, _, c => X c 0
  | .allToAll, g, c => X c g
  | .reduceScatter, g, _ => ((List.range nRanks).map fun q => X q g).sum
  | .allReduce, _, c => ((List.range nRanks).map fun q => X q c).sum

section

variable {α β κ : Type} {m : ℕ} [AddCommMonoid α] {codecs : κ → Codec α β} {plugins : κ → Plugin}
  [DecidableEq κ] {cluster : Cluster} (X : ℕ → ℕ → Fin m → α) (policy : κ)

/-! ## Flat algorithms -/

theorem runs_allGather : Runs codecs plugins cluster
      (fun g => [.compress (some policy), .allGather (cluster.comm g .owner), .decompress])
      none 1 X none cluster.nRanks (chunkResult cluster.nRanks X .allGather) := by
  apply runs_cons (takes_compress fun _ _ => rfl)
  apply runs_cons (takes_allGather fun _ _ => rfl)
  apply runs_cons (takes_decompress fun _ _ => rfl)
  apply runs_nil rfl (mul_one _)
  intro g _ c _
  rw [Nat.div_one, Nat.mod_one]
  rfl

theorem runs_allToAll : Runs codecs plugins cluster
      (fun g => [.compress (some policy), .allToAll (cluster.comm g .owner), .decompress])
      none cluster.nRanks X none cluster.nRanks (chunkResult cluster.nRanks X .allToAll) := by
  apply runs_cons (takes_compress fun _ _ => rfl)
  apply runs_cons (takes_allToAll (mul_one _).symm fun _ _ => rfl)
  apply runs_cons (takes_decompress fun _ _ => rfl)
  apply runs_nil rfl rfl
  intro g _ c _
  rw [Nat.div_one, Nat.mod_one, mul_one]
  rfl

theorem runs_reduceScatterOneShot : Runs codecs plugins cluster
      (fun g => [.compress (some policy), .allToAll (cluster.comm g .owner),
        .decompressReduce cluster.nRanks])
      none cluster.nRanks X none 1 (chunkResult cluster.nRanks X .reduceScatter) := by
  apply runs_cons (takes_compress fun _ _ => rfl)
  apply runs_cons (takes_allToAll (mul_one _).symm fun _ _ => rfl)
  apply runs_cons (takes_decompressReduce cluster.nRanks_pos (mul_one _).symm fun _ _ => rfl)
  apply runs_nil rfl rfl
  intro g _ c hc
  refine congrArg List.sum (map_congr_left fun q _ => ?_)
  rw [Nat.div_one, Nat.mod_one, mul_one, mul_one, Nat.lt_one_iff.mp hc]
  rfl

theorem runs_allReduceOneShot : Runs codecs plugins cluster
      (fun g => [.compress (some policy), .allGather (cluster.comm g .owner),
        .decompressReduce cluster.nRanks])
      none cluster.nRanks X none cluster.nRanks (chunkResult cluster.nRanks X .allReduce) := by
  apply runs_cons (takes_compress fun _ _ => rfl)
  apply runs_cons (takes_allGather fun _ _ => rfl)
  apply runs_cons (takes_decompressReduce cluster.nRanks_pos rfl fun _ _ => rfl)
  apply runs_nil rfl rfl
  intro g _ c hc
  refine congrArg List.sum (map_congr_left fun q _ => ?_)
  rw [mul_add_div hc, mul_add_mod hc]
  rfl

theorem runs_allReduceTwoShot : Runs codecs plugins cluster
      (fun g => [.compress (some policy), .allToAll (cluster.comm g .owner),
        .decompReduceComp cluster.nRanks (some policy), .allGather (cluster.comm g .owner),
        .decompress])
      none cluster.nRanks X none cluster.nRanks (chunkResult cluster.nRanks X .allReduce) := by
  apply runs_cons (takes_compress fun _ _ => rfl)
  apply runs_cons (takes_allToAll (mul_one _).symm fun _ _ => rfl)
  apply runs_cons (takes_decompReduceComp cluster.nRanks_pos (mul_one _).symm fun _ _ => rfl)
  apply runs_cons (takes_allGather fun _ _ => rfl)
  apply runs_cons (takes_decompress fun _ _ => rfl)
  apply runs_nil rfl (mul_one _)
  intro g _ c _
  refine congrArg List.sum (map_congr_left fun q _ => ?_)
  rw [Nat.div_one, Nat.div_one, Nat.mod_one, Nat.mod_one, mul_one, mul_one]
  rfl

/-! ## Hierarchical algorithms -/

/-- The sum inside a node: one chunk per node is left, that of the rank's local rank. -/
def intraSum (cluster : Cluster) (F : ℕ → ℕ → Fin m → α) (g c : ℕ) : Fin m → α :=
  ((List.range cluster.localRanks).map fun q =>
    F (g / cluster.localRanks * cluster.localRanks + q)
      (g % cluster.localRanks * cluster.nNodes + c)).sum

/-- The sum across nodes: the rank's own chunk is left. -/
def interSum (cluster : Cluster) (F : ℕ → ℕ → Fin m → α) (g : ℕ) : Fin m → α :=
  ((List.range cluster.nNodes).map fun i =>
    F (i * cluster.localRanks + g % cluster.localRanks) (g / cluster.localRanks)).sum

section

variable {F F'' : ℕ → ℕ → Fin m → α} {rest : ℕ → List (Stage κ)} {compressor'' : Option κ} {C'' : ℕ}

theorem runs_intraReduction {intra inter : Option κ}
    (hrest : ∀ F', (∀ g < cluster.nRanks, ∀ c < cluster.nNodes, F' g c = intraSum cluster F g c) →
      Runs codecs plugins cluster rest inter cluster.nNodes F' compressor'' C'' F'') :
    Runs codecs plugins cluster (fun g => intraReduction (cluster.hierarchy g) intra inter ++
      rest g) none cluster.nRanks F compressor'' C'' F'' := by
  have hchunks : cluster.nRanks = cluster.size .intra * cluster.nNodes := mul_comm _ _
  -- with a compressor the blocks are exchanged first and summed by position
  have hexchanged : ∀ g < cluster.nRanks, ∀ c < cluster.nNodes,
      ((List.range cluster.localRanks).map fun q =>
        F (cluster.member g ((q * cluster.nNodes + c) / cluster.nNodes) .intra)
          (cluster.place g .intra * cluster.nNodes + (q * cluster.nNodes + c) % cluster.nNodes)).sum
        = intraSum cluster F g c := by
    intro g _ c hc
    refine congrArg List.sum (map_congr_left fun q _ => ?_)
    rw [mul_add_div hc, mul_add_mod hc]
    rfl
  cases intra with
  | none =>
    cases inter with
    | none =>
      apply runs_cons (takes_reduceScatter hchunks fun _ _ => rfl)
      exact hrest _ fun _ _ _ _ => rfl
    | some inter =>
      apply runs_cons (takes_reduceScatter hchunks fun _ _ => rfl)
      apply runs_cons (takes_compress fun _ _ => rfl)
      exact hrest _ fun _ _ _ _ => rfl
  | some intra =>
    cases inter with
    | none =>
      apply runs_cons (takes_compress fun _ _ => rfl)
      apply runs_cons (takes_allToAll hchunks fun _ _ => rfl)
      apply runs_cons (takes_decompressReduce cluster.localRanks_pos hchunks fun g _ => by
        rw [cluster.hierarchy_intra_nRanks])
      exact hrest _ hexchanged
    | some inter =>
      apply runs_cons (takes_compress fun _ _ => rfl)
      apply runs_cons (takes_allToAll hchunks fun _ _ => rfl)
      apply runs_cons (takes_decompReduceComp cluster.localRanks_pos hchunks fun g _ => by
        rw [cluster.hierarchy_intra_nRanks])
      exact hrest _ hexchanged

theorem runs_interReduction {inter finalCompressor : Option κ}
    (hrest : ∀ F', (∀ g < cluster.nRanks, F' g 0 = interSum cluster F g) →
      Runs codecs plugins cluster rest finalCompressor 1 F' compressor'' C'' F'') :
    Runs codecs plugins cluster
      (fun g => interReduction (cluster.hierarchy g) inter finalCompressor ++ rest g)
      inter cluster.nNodes F compressor'' C'' F'' := by
  have hchunks : cluster.nNodes = cluster.size .inter * 1 := (mul_one _).symm
  have hexchanged : ∀ g < cluster.nRanks, ((List.range cluster.nNodes).map fun i =>
      F (cluster.member g ((i * 1 + 0) / 1) .inter)
        (cluster.place g .inter * 1 + (i * 1 + 0) % 1)).sum = interSum cluster F g := by
    intro g _
    refine congrArg List.sum (map_congr_left fun i _ => ?_)
    rw [Nat.div_one, Nat.mod_one, mul_one, mul_one]
    rfl
  have hscattered : ∀ g < cluster.nRanks, ((List.range (cluster.size .inter)).map fun i =>
      F (cluster.member g i .inter) (cluster.place g .inter * 1 + 0)).sum =
        interSum cluster F g := by
    intro g _
    rw [mul_one]
    rfl
  cases inter with
  | none =>
    cases finalCompressor with
    | none =>
      apply runs_cons (takes_reduceScatter hchunks fun _ _ => rfl)
      exact hrest _ hscattered
    | some finalCompressor =>
      apply runs_cons (takes_reduceScatter hchunks fun _ _ => rfl)
      apply runs_cons (takes_compress fun _ _ => rfl)
      exact hrest _ hscattered
  | some inter =>
    cases finalCompressor with
    | none =>
      apply runs_cons (takes_allToAll hchunks fun _ _ => rfl)
      apply runs_cons (takes_decompressReduce cluster.nNodes_pos hchunks fun g _ => by
        rw [cluster.hierarchy_inter_nRanks])
      exact hrest _ hexchanged
    | some finalCompressor =>
      apply runs_cons (takes_allToAll hchunks fun _ _ => rfl)
      apply runs_cons (takes_decompReduceComp cluster.nNodes_pos hchunks fun g _ => by
        rw [cluster.hierarchy_inter_nRanks])
      exact hrest _ hexchanged

end

/-- **Both levels together.** From the swizzled chunks the sum over all ranks of the rank's own
chunk is left. -/
theorem interSum_intraSum {g : ℕ} (hg : g < cluster.nRanks) {F' : ℕ → ℕ → Fin m → α}
    (hF' : ∀ g < cluster.nRanks, ∀ c < cluster.nNodes,
      F' g c = intraSum cluster (fun g p => X g (cluster.swizzledChunk p)) g c) :
    interSum cluster F' g = ((List.range cluster.nRanks).map fun q => X q g).sum := by
  have hnode : g / cluster.localRanks < cluster.nNodes := cluster.place_lt hg .inter
  have hlocal : g % cluster.localRanks < cluster.localRanks := cluster.place_lt hg .intra
  rw [Cluster.nRanks, sum_range_blocks]
  refine congrArg List.sum (map_congr_left fun i hi => ?_)
  have hi := mem_range.mp hi
  rw [hF' _ (div_add_lt hi hlocal) _ hnode]
  refine congrArg List.sum (map_congr_left fun q _ => ?_)
  -- rank `i * localRanks + g % localRanks` sits on node `i` at the local rank of `g`
  have hchunk : cluster.swizzledChunk ((i * cluster.localRanks + g % cluster.localRanks) %
      cluster.localRanks * cluster.nNodes + g / cluster.localRanks) = g := by
    rw [cluster.swizzledChunk_place hnode, mul_add_mod hlocal, Nat.div_add_mod']
  simp only [mul_add_div hlocal, hchunk]

theorem runs_reduceScatterTwoShot (compressors : PreparedCompressorSet κ) :
    Runs codecs plugins cluster
      (fun g => intraReduction (cluster.hierarchy g) compressors.intra compressors.inter ++
        interReduction (cluster.hierarchy g) compressors.inter none)
      none cluster.nRanks (fun g p => X g (cluster.swizzledChunk p)) none 1
      (chunkResult cluster.nRanks X .reduceScatter) := by
  apply runs_intraReduction
  intro F' hF'
  have hinter := @runs_interReduction _ _ _ m _ codecs plugins _ cluster F'
    (chunkResult cluster.nRanks X .reduceScatter) (fun _ => []) none 1 compressors.inter none
  simp only [append_nil] at hinter
  apply hinter
  intro F'' hF''
  apply runs_nil rfl rfl
  intro g hg c hc
  rw [Nat.lt_one_iff.mp hc, hF'' g hg, interSum_intraSum X hg hF']
  rfl

theorem runs_allReduceTripleShot (compressors : PreparedCompressorSet κ) :
    Runs codecs plugins cluster
      (fun g => intraReduction (cluster.hierarchy g) compressors.intra compressors.inter ++
        (interReduction (cluster.hierarchy g) compressors.inter compressors.default ++
          ([.allGather (cluster.comm g .owner)] ++
            if compressors.default.isSome then [.decompress] else [])))
      none cluster.nRanks (fun g p => X g (cluster.swizzledChunk p)) none cluster.nRanks
      (chunkResult cluster.nRanks X .allReduce) := by
  apply runs_intraReduction
  intro F' hF'
  apply runs_interReduction
  intro F'' hF''
  have hgathered : ∀ g < cluster.nRanks, ∀ c < cluster.size .owner * 1,
      F'' (cluster.member g (c / 1) .owner) (c % 1) =
        chunkResult cluster.nRanks X .allReduce g c := by
    intro g _ c hc
    rw [Nat.div_one, Nat.mod_one]
    rw [mul_one] at hc
    exact (hF'' c hc).trans (interSum_intraSum X hc hF')
  cases compressors.default with
  | none =>
    apply runs_cons (takes_allGather fun _ _ => rfl)
    exact runs_nil rfl (mul_one _) hgathered
  | some final =>
    apply runs_cons (takes_allGather fun _ _ => rfl)
    apply runs_cons (takes_decompress fun _ _ => rfl)
    exact runs_nil rfl (mul_one _) hgathered

end

end Coccl
