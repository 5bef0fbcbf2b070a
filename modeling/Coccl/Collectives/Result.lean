import Coccl.Collectives.Correct

/-!
# Defining results

A collective call on all ranks of a cluster, the result its operation defines element by element,
and that every accepted algorithm computes it.
-/

namespace Coccl

open Checked Blocks AllReduce Except

/-! ## Calls and results -/

/-- A collective that all ranks call: the arguments they share, and each rank's buffers. -/
structure Collective (κ : Type) where
  operation : Operation
  algorithm : AlgorithmKind
  count : ℕ
  datatype : DataType
  compressors : PreparedCompressorSet κ
  sendbuff : ℕ → ℕ
  recvbuff : ℕ → ℕ

namespace Collective

variable {κ : Type} (collective : Collective κ) (cluster : Cluster)

def call (g : ℕ) : PreparedCall κ where
  operation := collective.operation
  sendbuff := collective.sendbuff g
  recvbuff := collective.recvbuff g
  count := collective.count
  datatype := collective.datatype
  comm := cluster.comm g .owner
  algorithm := collective.algorithm
  compressors := collective.compressors

def typeBytes : ℕ := (ncclTypeSize collective.datatype).toNat

/-- The elements an operation leaves on each rank. -/
def outputCount : ℕ :=
  match collective.operation with
  | .allGather | .allToAll => cluster.nRanks * collective.count
  | .reduceScatter | .allReduce => collective.count

/-- Element `i` that the operation defines on rank `g`, where `input q i` is element `i` of rank
`q`'s input. -/
def definingResult {α : Type} [AddCommMonoid α] (input : ℕ → ℕ → α) (g i : ℕ) : α :=
  match collective.operation with
  | .allGather => input (i / collective.count) (i % collective.count)
  | .allToAll => input (i / collective.count) (g * collective.count + i % collective.count)
  | .reduceScatter =>
    ((List.range cluster.nRanks).map fun q => input q (g * collective.count + i)).sum
  | .allReduce => ((List.range cluster.nRanks).map fun q => input q i).sum

/-- The compressor of the flat algorithms. -/
def flatCompressor : Option κ :=
  collective.compressors.get (if cluster.nNodes = 1 then .intra else .default)

@[simp] theorem call_flatCompressor (g : ℕ) :
    (collective.call cluster g).flatCompressor = collective.flatCompressor cluster := rfl

end Collective

open Collective

/-! ## From chunks to elements -/

/-- The chunks an operation leaves on each rank. -/
def finalChunkCount (nRanks : ℕ) : Operation → ℕ
  | .reduceScatter => 1
  | .allGather | .allToAll | .allReduce => nRanks

section

variable {α κ : Type} [AddCommMonoid α] {collective : Collective κ} {cluster : Cluster}

/-- The elements of a rank chunk: all, or one rank's share of an all-reduce. -/
def IsChunkCount (collective : Collective κ) (cluster : Cluster) (rawChunkCount : ℕ) : Prop :=
  collective.count =
    match collective.operation with
    | .allReduce => cluster.nRanks * rawChunkCount
    | _ => rawChunkCount

variable {rawChunkCount : ℕ}

theorem outputCount_eq (h : IsChunkCount collective cluster rawChunkCount) :
    collective.outputCount cluster =
      finalChunkCount cluster.nRanks collective.operation * rawChunkCount := by
  unfold IsChunkCount at h
  unfold outputCount
  cases hop : collective.operation <;> simp only [hop, finalChunkCount] at h ⊢ <;> simp [h]

/-- The defining result is the operation's result on the chunk the element lies in. -/
theorem definingResult_eq (h : IsChunkCount collective cluster rawChunkCount) (input : ℕ → ℕ → α)
    {g c e : ℕ} (hc : c < finalChunkCount cluster.nRanks collective.operation)
    (he : e < rawChunkCount) :
    collective.definingResult cluster input g (c * rawChunkCount + e) =
      chunkResult cluster.nRanks (fun q c => input q (c * rawChunkCount + e))
        collective.operation g c := by
  unfold IsChunkCount at h
  unfold definingResult
  cases hop : collective.operation with
  | allGather =>
    simp only [hop] at h
    simp only [chunkResult, h, mul_add_div he, mul_add_mod he, zero_mul,
      zero_add]
  | allToAll =>
    simp only [hop] at h
    simp only [chunkResult, h, mul_add_div he, mul_add_mod he]
  | reduceScatter =>
    simp only [hop, finalChunkCount] at h hc
    simp only [chunkResult, h, Nat.lt_one_iff.mp hc, zero_mul, zero_add]
  | allReduce => rfl

end

/-! ## Accepted calls -/

/-- A prepared pipeline has the compressor its first stage needs. -/
theorem Prepared.compressor_isSome {κ : Type} [DecidableEq κ] {plugins : κ → Plugin}
    {spec : PipelineSpec κ} {requestedDepth : ℤ} {context : PipelineContext κ} {chunks : List ℕ}
    {requireSerial : Bool} {logical : PipelinePlan}
    (P : Prepared plugins spec requestedDepth context chunks requireSerial logical)
    {compressor : Option κ} {rest : List (Stage κ)}
    (hstages : spec.stages = .compress compressor :: rest) :
    ∃ policy, compressor = some policy := by
  obtain ⟨plan, input, final, outputs, hslice, -⟩ := P.slicePlan P.depth_pos.1
  have hchain := hslice.chain
  have hlength := stageChunks_length P.chunks_eq
  rw [hstages] at hchain hlength
  cases compressor with
  | some policy => exact ⟨policy, rfl⟩
  | none =>
    cases chunks with
    | nil => exact absurd hlength.symm (Nat.succ_ne_zero _)
    | cons count counts =>
      cases hchain with
      | cons head _ => cases head

section

variable {α β κ : Type} [AddCommMonoid α] [DecidableEq κ] {plugins : κ → Plugin}
  {codecs : κ → Codec α β} {cluster : Cluster} {collective : Collective κ}

/-- The chunk at a position of the packed input. -/
def packedChunk (cluster : Cluster) : InputLayout → ℕ → ℕ
  | .contiguous, p => p
  | .hierarchicalSwizzle, p => cluster.swizzledChunk p

theorem packedChunk_lt {layout : InputLayout} {p inputChunks : ℕ}
    (hlayout : layout = .hierarchicalSwizzle → inputChunks = cluster.nRanks)
    (hp : p < inputChunks) : packedChunk cluster layout p < inputChunks := by
  cases layout with
  | contiguous => exact hp
  | hierarchicalSwizzle =>
    rw [hlayout rfl] at hp ⊢
    exact @transpose_lt cluster.localRanks cluster.nNodes p (by
      rwa [Cluster.nRanks, mul_comm] at hp)

/-- The parts of a specification that all ranks fill alike, and the stages of each. -/
structure CollectiveShape (κ : Type) where
  rawChunkCount : ℕ
  inputChunks : ℕ
  inPlaceLayout : InPlaceLayout
  inputLayout : InputLayout
  stages : ℕ → List (Stage κ)

/-- The specification of one rank. -/
def Collective.spec {κ : Type} (collective : Collective κ) (cluster : Cluster)
    (shape : CollectiveShape κ) (g : ℕ) : PipelineSpec κ where
  input := collective.sendbuff g
  output := collective.recvbuff g
  rawChunkCount := shape.rawChunkCount
  inputChunks := shape.inputChunks
  datatype := collective.datatype
  ownerComm := cluster.comm g .owner
  stages := shape.stages g
  inPlaceLayout := shape.inPlaceLayout
  inputLayout := shape.inputLayout

variable (plugins codecs cluster collective) in
/-- What all ranks submit for an algorithm, and what its stages compute. -/
structure Submits (submission : ℕ → Submission κ) (shape : CollectiveShape κ) : Prop where
  spec : ∀ g < cluster.nRanks, (submission g).spec = collective.spec cluster shape g
  chunkCount : IsChunkCount collective cluster shape.rawChunkCount
  swizzle : shape.inputLayout = .hierarchicalSwizzle → shape.inputChunks = cluster.nRanks
  length : ∀ g, (shape.stages g).length = (shape.stages 0).length
  runs : ∀ {m : ℕ} (X : ℕ → ℕ → Fin m → α),
    Runs codecs plugins cluster shape.stages none shape.inputChunks
      (fun g p => X g (packedChunk cluster shape.inputLayout p)) none
      (finalChunkCount cluster.nRanks collective.operation)
      (chunkResult cluster.nRanks X collective.operation)

omit [DecidableEq κ] in
@[simp] theorem call_nRanks (g : ℕ) : (collective.call cluster g).comm.nRanks = cluster.nRanks :=
  cluster.comm_nRanks g .owner

variable {shape : CollectiveShape κ}

section

variable {submission : ℕ → Submission κ} {policy : κ}

theorem Submits.congr {run : ℕ → Submission κ} {ε : Type}
    (S : Submits plugins codecs cluster collective run shape)
    (h : ∀ g < cluster.nRanks, (.ok (run g) : Except ε (Submission κ)) = .ok (submission g)) :
    Submits plugins codecs cluster collective submission shape where
  spec g hg := ok.inj (h g hg) ▸ S.spec g hg
  chunkCount := S.chunkCount
  swizzle := S.swizzle
  length := S.length
  runs := S.runs

theorem submits_reduceScatterTwoShot (hop : collective.operation = .reduceScatter) :
    Submits plugins codecs cluster collective
      (fun g => ReduceScatter.runTwoShot (cluster.hierarchy g) (collective.call cluster g))
      ⟨collective.count, cluster.nRanks, .outputRankChunk, .hierarchicalSwizzle, fun g =>
        intraReduction (cluster.hierarchy g) collective.compressors.intra
          collective.compressors.inter ++
        interReduction (cluster.hierarchy g) collective.compressors.inter none⟩ where
  spec g _ := by
    rw [ReduceScatter.runTwoShot, call_nRanks]
    rfl
  chunkCount := by simp [IsChunkCount, hop]
  swizzle _ := rfl
  length g := by
    unfold intraReduction interReduction
    split_ifs <;> rfl
  runs X := by
    rw [hop]
    exact runs_reduceScatterTwoShot X collective.compressors

omit [DecidableEq κ] in
/-- The rank chunks of an all-reduce cover its elements. -/
theorem isChunkCount_allReduce (hop : collective.operation = .allReduce)
    (hcount : collective.count % cluster.nRanks = 0) :
    IsChunkCount collective cluster (collective.count / cluster.nRanks) := by
  simp only [IsChunkCount, hop]
  exact (Nat.mul_div_cancel' (Nat.dvd_of_mod_eq_zero hcount)).symm

theorem submits_allReduceTripleShot (hop : collective.operation = .allReduce)
    (hcount : collective.count % cluster.nRanks = 0) :
    Submits plugins codecs cluster collective
      (fun g => runTripleShot (cluster.hierarchy g) (collective.call cluster g))
      ⟨collective.count / cluster.nRanks, cluster.nRanks, .sameBuffer, .hierarchicalSwizzle,
        fun g => intraReduction (cluster.hierarchy g) collective.compressors.intra
            collective.compressors.inter ++
          (interReduction (cluster.hierarchy g) collective.compressors.inter
              collective.compressors.default ++
            ([.allGather (cluster.comm g .owner)] ++
              if collective.compressors.default.isSome then [.decompress] else []))⟩ where
  spec g _ := by
    rw [runTripleShot, chunkCount, call_nRanks, cocclBuildHierarchicalReduction,
      List.append_assoc, List.append_assoc]
    rfl
  chunkCount := isChunkCount_allReduce hop hcount
  swizzle _ := rfl
  length g := by
    unfold intraReduction interReduction
    split_ifs <;> rfl
  runs X := by
    rw [hop]
    exact runs_allReduceTripleShot X collective.compressors

section

variable (hpolicy : collective.flatCompressor cluster = some policy)

include hpolicy

theorem submits_allGather (hop : collective.operation = .allGather) :
    Submits plugins codecs cluster collective
      (fun g => cocclExecuteAllGather (collective.call cluster g))
      ⟨collective.count, 1, .inputRankChunk, .contiguous, fun g =>
        [.compress (some policy), .allGather (cluster.comm g .owner), .decompress]⟩ where
  spec g _ := by
    rw [cocclExecuteAllGather, call_flatCompressor, hpolicy]
    rfl
  chunkCount := by simp [IsChunkCount, hop]
  swizzle := nofun
  length _ := rfl
  runs X := by
    rw [hop]
    exact runs_allGather X policy

theorem submits_allToAll (hop : collective.operation = .allToAll) :
    Submits plugins codecs cluster collective
      (fun g => cocclExecuteAllToAll (collective.call cluster g))
      ⟨collective.count, cluster.nRanks, .none, .contiguous, fun g =>
        [.compress (some policy), .allToAll (cluster.comm g .owner), .decompress]⟩ where
  spec g _ := by
    rw [cocclExecuteAllToAll, call_flatCompressor, hpolicy, call_nRanks]
    rfl
  chunkCount := by simp [IsChunkCount, hop]
  swizzle := nofun
  length _ := rfl
  runs X := by
    rw [hop]
    exact runs_allToAll X policy

theorem submits_reduceScatterOneShot (hop : collective.operation = .reduceScatter) :
    Submits plugins codecs cluster collective
      (fun g => ReduceScatter.runOneShot (collective.call cluster g))
      ⟨collective.count, cluster.nRanks, .outputRankChunk, .contiguous, fun g =>
        [.compress (some policy), .allToAll (cluster.comm g .owner),
          .decompressReduce cluster.nRanks]⟩ where
  spec g _ := by
    rw [ReduceScatter.runOneShot, call_flatCompressor, hpolicy, call_nRanks]
    rfl
  chunkCount := by simp [IsChunkCount, hop]
  swizzle := nofun
  length _ := rfl
  runs X := by
    rw [hop]
    exact runs_reduceScatterOneShot X policy

variable (hop : collective.operation = .allReduce) (hcount : collective.count % cluster.nRanks = 0)

include hop hcount

theorem submits_allReduceOneShot :
    Submits plugins codecs cluster collective (fun g => runOneShot (collective.call cluster g))
      ⟨collective.count / cluster.nRanks, cluster.nRanks, .sameBuffer, .contiguous, fun g =>
        [.compress (some policy), .allGather (cluster.comm g .owner),
          .decompressReduce cluster.nRanks]⟩ where
  spec g _ := by
    rw [runOneShot, chunkCount, call_flatCompressor, hpolicy, call_nRanks]
    rfl
  chunkCount := isChunkCount_allReduce hop hcount
  swizzle := nofun
  length _ := rfl
  runs X := by
    rw [hop]
    exact runs_allReduceOneShot X policy

theorem submits_allReduceTwoShot :
    Submits plugins codecs cluster collective (fun g => runTwoShot (collective.call cluster g))
      ⟨collective.count / cluster.nRanks, cluster.nRanks, .sameBuffer, .contiguous, fun g =>
        [.compress (some policy), .allToAll (cluster.comm g .owner),
          .decompReduceComp cluster.nRanks (some policy), .allGather (cluster.comm g .owner),
          .decompress]⟩ where
  spec g _ := by
    rw [runTwoShot, chunkCount, call_flatCompressor, hpolicy, call_nRanks]
    rfl
  chunkCount := isChunkCount_allReduce hop hcount
  swizzle := nofun
  length _ := rfl
  runs X := by
    rw [hop]
    exact runs_allReduceTwoShot X policy

end

/-- **Every accepted call submits one of the algorithms.** -/
theorem exists_submits
    (haccepted : ∀ g < cluster.nRanks,
      cocclExecutePrimitive (cluster.hierarchy g) (collective.call cluster g) =
        .ok (submission g))
    (hcompressor : ∀ compressor rest,
      (submission 0).spec.stages = .compress compressor :: rest →
        ∃ policy, compressor = some policy) :
    ∃ shape, Submits plugins codecs cluster collective submission shape := by
  have hzero := cluster.nRanks_pos
  have hop : ∀ g, (collective.call cluster g).operation = collective.operation := fun _ => rfl
  have halgorithm : ∀ g, (collective.call cluster g).algorithm = collective.algorithm :=
    fun _ => rfl
  simp only [cocclExecutePrimitive, hop] at haccepted
  cases hoperation : collective.operation with
  | allGather =>
    simp only [hoperation] at haccepted
    obtain ⟨policy, hpolicy⟩ := hcompressor _ _ (by rw [← ok.inj (haccepted 0 hzero)]; rfl)
    exact ⟨_, (submits_allGather hpolicy hoperation).congr haccepted⟩
  | allToAll =>
    simp only [hoperation] at haccepted
    obtain ⟨policy, hpolicy⟩ := hcompressor _ _ (by rw [← ok.inj (haccepted 0 hzero)]; rfl)
    exact ⟨_, (submits_allToAll hpolicy hoperation).congr haccepted⟩
  | reduceScatter =>
    simp only [hoperation, cocclExecuteReduceScatter, halgorithm] at haccepted
    by_cases hshot : collective.algorithm = .reduceScatterOneShot
    · simp only [if_pos hshot] at haccepted
      obtain ⟨policy, hpolicy⟩ := hcompressor _ _ (by rw [← ok.inj (haccepted 0 hzero)]; rfl)
      exact ⟨_, (submits_reduceScatterOneShot hpolicy hoperation).congr haccepted⟩
    · simp only [if_neg hshot] at haccepted
      exact ⟨_, (submits_reduceScatterTwoShot hoperation).congr
        fun g hg => (ite_error_eq_ok.mp (haccepted g hg)).2⟩
  | allReduce =>
    simp only [hoperation, cocclExecuteAllReduce, halgorithm] at haccepted
    have hcount : collective.count % cluster.nRanks = 0 := by
      have hdivides := (ite_error_eq_ok.mp (haccepted 0 hzero)).1
      rw [not_not, call_nRanks] at hdivides
      exact hdivides
    have haccepted := fun g hg =>
      (ite_error_eq_ok.mp (ite_error_eq_ok.mp (haccepted g hg)).2).2
    cases hshot : collective.algorithm with
    | allReduceOneShot =>
      simp only [hshot] at haccepted
      obtain ⟨policy, hpolicy⟩ := hcompressor _ _ (by rw [← ok.inj (haccepted 0 hzero)]; rfl)
      exact ⟨_, (submits_allReduceOneShot hpolicy hoperation hcount).congr haccepted⟩
    | allReduceTwoShot =>
      simp only [hshot] at haccepted
      obtain ⟨policy, hpolicy⟩ := hcompressor _ _ (by rw [← ok.inj (haccepted 0 hzero)]; rfl)
      exact ⟨_, (submits_allReduceTwoShot hpolicy hoperation hcount).congr haccepted⟩
    | allReduceTripleShot =>
      simp only [hshot] at haccepted
      exact ⟨_, (submits_allReduceTripleShot hoperation hcount).congr haccepted⟩
    | none | reduceScatterOneShot | reduceScatterTwoShot => exact nomatch hshot ▸ haccepted 0 hzero

end

/-- On the owner's communicator the pack step transposes nodes and local ranks. -/
theorem Prepared.swizzle_cluster {spec : PipelineSpec κ} {requestedDepth : ℤ}
    {context : PipelineContext κ} {chunks : List ℕ} {requireSerial : Bool} {logical : PipelinePlan}
    (P : Prepared plugins spec requestedDepth context chunks requireSerial logical) {g : ℕ}
    (howner : spec.ownerComm = cluster.comm g .owner)
    (hlayout : context.stageContext.inputLayout = .hierarchicalSwizzle) :
    context.stageContext.nNodes = cluster.nNodes ∧
      context.stageContext.ranksPerNode = cluster.localRanks := by
  obtain ⟨hnodes, hranks⟩ := P.swizzle hlayout
  rw [howner] at hnodes hranks
  rw [cluster.comm_nRanks, cluster.comm_owner_localRanks] at hnodes
  exact ⟨hnodes.trans (Nat.mul_div_cancel _ cluster.localRanks_pos), hranks⟩

/-- The prepared pipelines of an accepted call have one shape. -/
theorem Submits.preparedAll {submission : ℕ → Submission κ} {contexts : ℕ → PipelineContext κ}
    {requestedDepth : ℕ → ℤ} {depth : ℕ}
    (S : Submits plugins codecs cluster collective submission shape)
    (hprepared : ∀ g < cluster.nRanks, ∃ chunks requireSerial logical,
      Prepared plugins (collective.spec cluster shape g) (requestedDepth g) (contexts g) chunks
        requireSerial logical)
    (hdepth : ∀ g < cluster.nRanks, (contexts g).depth = depth)
    (hpack : ∀ g < cluster.nRanks,
      (contexts g).stageContext.inputLayout = (contexts g).spec.inputLayout) :
    PreparedAll plugins cluster (collective.spec cluster shape) contexts shape.rawChunkCount depth
      shape.inputChunks (finalChunkCount cluster.nRanks collective.operation)
      (packedChunk cluster shape.inputLayout) where
  prepared g hg := ⟨_, hprepared g hg⟩
  rawChunkCount_eq _ _ := rfl
  depth_eq := hdepth
  inputChunks_eq _ _ := rfl
  finalChunks_eq g hg := by
    obtain ⟨chunks, _, _, P⟩ := hprepared g hg
    rw [P.finalChunks_eq]
    exact (S.runs fun _ _ (_ : Fin 0) => 0).planned g hg chunks P.chunks_eq
  stages_eq g _ := S.length g
  source_eq g hg := by
    obtain ⟨_, _, _, P⟩ := hprepared g hg
    have hlayout : (contexts g).stageContext.inputLayout = shape.inputLayout := by
      rw [hpack g hg, P.spec_eq]
      rfl
    funext p
    unfold PipelineContext.sourceChunk
    cases hshape : shape.inputLayout with
    | contiguous =>
      rw [hlayout, hshape]
      rfl
    | hierarchicalSwizzle =>
      rw [hshape] at hlayout
      obtain ⟨hnodes, hranks⟩ := P.swizzle_cluster rfl hlayout
      rw [hlayout]
      simp only [hnodes, hranks]
      rfl
  swizzle g hg hlayout := by
    obtain ⟨_, _, _, P⟩ := hprepared g hg
    obtain ⟨hnodes, hranks⟩ := P.swizzle_cluster rfl hlayout
    rw [hpack g hg, P.spec_eq] at hlayout
    rw [hnodes, hranks]
    exact S.swizzle hlayout

end

/-! ## An all-reduce over two nodes -/

/-- A compressor that declares no bound of its own. -/
def plainPlugin : Plugin where
  capabilities := fun capability => capability = .compress ∨ capability = .decompress
  getEncodedSizeBound := none

/-- Chunks encoded as the list of their elements. -/
def listCodec : Codec ℕ (List ℕ) where
  encode := fun values => some (List.ofFn values)
  decode := fun data j => data.getD j 0
  decompressReduce := fun reduceChunks data =>
    sumChunks reduceChunks (data.map fun data (j : Fin _) => data.getD j 0)
  decompressReduceCompress := fun reduceChunks data =>
    (sumChunks reduceChunks (data.map fun data (j : Fin _) => data.getD j 0)).map .raw
  decode_encode := by
    intro m values data h
    obtain rfl := Option.some.inj h
    funext j
    simp [List.getD_eq_getElem?_getD]
  decompressReduce_eq := fun _ _ => rfl
  decompressReduceCompress_eq := fun _ _ => by simp [Function.comp_def]

def twoByTwo : Cluster := ⟨2, 2, by decide, by decide⟩

/-- Twelve elements, compressed inside the nodes and for the final gather. -/
def tripleShot : Collective Unit where
  operation := .allReduce
  algorithm := .allReduceTripleShot
  count := 12
  datatype := .float32
  compressors := ⟨some (), some (), none⟩
  sendbuff := fun _ => 4096
  recvbuff := fun _ => 8192

theorem tripleShot_prepared : ∀ g < twoByTwo.nRanks, ∃ context,
    preparePrimitive (fun _ => plainPlugin) 2 (twoByTwo.hierarchy g)
        (tripleShot.call twoByTwo g) = .ok context ∧
      decide (context.depth = 2 ∧
        context.stageContext.inputLayout = context.spec.inputLayout ∧
        ∀ slice : ℕ, slice < 2 → smallReductions (context.slice slice).elementCount
          context.spec.stages context.spec.inputChunks = true) = true := by
  intro g hg
  have hg : g < 4 := hg
  apply exists_of_any
  rw [Cluster.hierarchy, call]
  interval_cases g
  all_goals
    rw [twoByTwo.comm_eq (by decide) .intra, twoByTwo.comm_eq (by decide) .inter,
      twoByTwo.comm_eq (by decide) .owner]
    decide +kernel

/-- Rank `0` receives in place. -/
def mixedAllToAll : Collective Unit where
  operation := .allToAll
  algorithm := .none
  count := 4
  datatype := .float32
  compressors := ⟨some (), some (), none⟩
  sendbuff := fun _ => 4096
  recvbuff := fun g => if g = 0 then 4096 else 8192

end Coccl
