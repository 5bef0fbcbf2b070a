import Coccl.Collectives.Comms
import Coccl.Device.ReduceChunk
import Coccl.Pipeline.Spec

/-!
# What the stages compute

The handlers of the pipeline stages on the values that move: an edge is a list of logical chunks,
each one raw (`m` elements of a commutative monoid) or encoded by the edge's compressor, which is
lossless (`Codec`). The communicating stages read the edges of all members, so a stage is run on all
ranks at once (`runStageAll`).
-/

namespace Coccl

/-! ## Chunks and compressors -/

/-- A logical chunk of `m` elements as it lies in memory. -/
inductive Chunk (α β : Type) (m : ℕ) where
  | raw (values : Fin m → α)
  | encoded (data : β)

/-- The sum over the leading index, `reduceChunks` blocks of equal size. -/
def sumChunks {γ : Type} [AddCommMonoid γ] (reduceChunks : ℕ) (chunks : List γ) : List γ :=
  let outputChunks := chunks.length / reduceChunks
  (List.range outputChunks).map fun c =>
    ((List.range reduceChunks).map fun q => chunks.getD (q * outputChunks + c) 0).sum

/-- `ncclReduceChunk`: the sums, where the 32-bit indices of its kernel reach every element. Where
they do not, it leaves something else and there is no result to go on with. -/
def reduceChunk {α : Type} [AddCommMonoid α] {m : ℕ} (reduceChunks : ℕ)
    (chunks : List (Fin m → α)) : Option (List (Fin m → α)) :=
  if SmallChunks (chunks.length / reduceChunks * m) reduceChunks then
    some (sumChunks reduceChunks chunks)
  else none

/-- A lossless compressor. It may commit a chunk as it is (`none`): a framed one marks each frame,
any other decides by the shape, so alike on all ranks. Its fused operations agree with decoding,
reducing and encoding again. -/
structure Codec (α β : Type) [AddCommMonoid α] where
  encode : {m : ℕ} → (Fin m → α) → Option β
  decode : {m : ℕ} → β → Fin m → α
  decompressReduce : {m : ℕ} → ℕ → List β → List (Fin m → α)
  decompressReduceCompress : {m : ℕ} → ℕ → List β → List (Chunk α β m)
  decode_encode : ∀ {m : ℕ} (values : Fin m → α) (data : β),
    encode values = some data → decode data = values
  decompressReduce_eq : ∀ {m : ℕ} (reduceChunks : ℕ) (data : List β),
    @decompressReduce m reduceChunks data = sumChunks reduceChunks (data.map decode)
  decompressReduceCompress_eq : ∀ {m : ℕ} (reduceChunks : ℕ) (data : List β),
    (@decompressReduceCompress m reduceChunks data).map
        (fun chunk => match chunk with
          | .raw values => values
          | .encoded data => decode data) =
      sumChunks reduceChunks (data.map decode)

/-- An edge of the pipeline on one rank. -/
structure ValueEdge (α β κ : Type) (m : ℕ) where
  chunks : List (Chunk α β m)
  compressor : Option κ

instance {α β κ : Type} {m : ℕ} : Inhabited (ValueEdge α β κ m) := ⟨⟨[], none⟩⟩

namespace Chunk

variable {α β : Type} {m : ℕ} [AddCommMonoid α]

def raw? : Chunk α β m → Option (Fin m → α)
  | .raw values => some values
  | .encoded _ => none

def encoded? : Chunk α β m → Option β
  | .raw _ => none
  | .encoded data => some data

/-- `ncclDecompress` on one chunk: a chunk that was committed raw is copied. -/
def decompress (codec : Codec α β) : Chunk α β m → Fin m → α
  | .raw values => values
  | .encoded data => codec.decode data

/-- `ncclCompress` on one chunk. -/
def compress (codec : Codec α β) (values : Fin m → α) : Chunk α β m :=
  match codec.encode values with
  | some data => .encoded data
  | none => .raw values

omit [AddCommMonoid α] in
@[simp] theorem raw?_raw (values : Fin m → α) : (raw values : Chunk α β m).raw? = some values := rfl

@[simp] theorem decompress_compress (codec : Codec α β) (values : Fin m → α) :
    (compress codec values).decompress codec = values := by
  unfold compress
  cases h : codec.encode values with
  | none => rfl
  | some data => exact codec.decode_encode values data h

end Chunk

/-! ## The handlers -/

section

variable {α β κ : Type} {m : ℕ} [AddCommMonoid α] (plugins : κ → Plugin) (codecs : κ → Codec α β)

/-- The values of an edge without a compressor. -/
def ValueEdge.values? (edge : ValueEdge α β κ m) : Option (List (Fin m → α)) :=
  match edge.compressor with
  | none => edge.chunks.mapM Chunk.raw?
  | some _ => none

def runCompress (compressor : Option κ) (edge : ValueEdge α β κ m) :
    Option (ValueEdge α β κ m) := do
  let policy ← compressor
  let values ← edge.values?
  some ⟨values.map (Chunk.compress (codecs policy)), some policy⟩

def runDecompress (edge : ValueEdge α β κ m) : Option (ValueEdge α β κ m) := do
  let policy ← edge.compressor
  some ⟨edge.chunks.map fun chunk => .raw (chunk.decompress (codecs policy)), none⟩

/-- The fused operation where the compressor has it and all chunks are encoded, the generic one
otherwise. -/
def ncclDecompressReduce (compressor : κ) (reduceChunks : ℕ) (chunks : List (Chunk α β m)) :
    Option (List (Fin m → α)) :=
  match cocclCompressorSupports plugins (some compressor) .decompressReduce,
      chunks.mapM Chunk.encoded? with
  | true, some data => some ((codecs compressor).decompressReduce reduceChunks data)
  | _, _ => reduceChunk reduceChunks (chunks.map (Chunk.decompress (codecs compressor)))

/-- The fused operation needs the same compressor on both sides. -/
def ncclDecompReduceComp [DecidableEq κ] (decoder encoder : κ) (reduceChunks : ℕ)
    (chunks : List (Chunk α β m)) : Option (List (Chunk α β m)) :=
  match decide (decoder = encoder) &&
      cocclCompressorSupports plugins (some decoder) .decompressReduceCompress,
      chunks.mapM Chunk.encoded? with
  | true, some data => some ((codecs encoder).decompressReduceCompress reduceChunks data)
  | _, _ => (reduceChunk reduceChunks (chunks.map (Chunk.decompress (codecs decoder)))).map
      (List.map (Chunk.compress (codecs encoder)))

def runDecompressReduce (reduceChunks : ℕ) (edge : ValueEdge α β κ m) :
    Option (ValueEdge α β κ m) := do
  let policy ← edge.compressor
  let values ← ncclDecompressReduce plugins codecs policy reduceChunks edge.chunks
  some ⟨values.map .raw, none⟩

def runDecompReduceComp [DecidableEq κ] (reduceChunks : ℕ) (compressor : Option κ)
    (edge : ValueEdge α β κ m) : Option (ValueEdge α β κ m) := do
  let decoder ← edge.compressor
  let encoder ← compressor
  let chunks ← ncclDecompReduceComp plugins codecs decoder encoder reduceChunks edge.chunks
  some ⟨chunks, some encoder⟩

/-- `ncclAllToAll`: block `comm.rank` of every member, in the order of the members. -/
def runAllToAll (comm : Comm) (members : List ℕ) (edges : List (ValueEdge α β κ m))
    (edge : ValueEdge α β κ m) : Option (ValueEdge α β κ m) :=
  let block := edge.chunks.length / comm.nRanks
  some ⟨members.flatMap fun q => ((edges.getD q default).chunks.drop (comm.rank * block)).take
    block, edge.compressor⟩

def runAllGather (members : List ℕ) (edges : List (ValueEdge α β κ m))
    (edge : ValueEdge α β κ m) : Option (ValueEdge α β κ m) :=
  some ⟨members.flatMap fun q => (edges.getD q default).chunks, edge.compressor⟩

/-- `ncclReduceScatter`: the sum of block `comm.rank` over the members. -/
def runReduceScatter (comm : Comm) (members : List ℕ) (edges : List (ValueEdge α β κ m))
    (edge : ValueEdge α β κ m) : Option (ValueEdge α β κ m) := do
  let outputChunks := edge.chunks.length / comm.nRanks
  let values ← members.mapM fun q => (edges.getD q default).values?
  some ⟨(List.range outputChunks).map fun c => .raw
    (values.map fun chunks => chunks.getD (comm.rank * outputChunks + c) 0).sum, none⟩

/-- A stage on one rank; pack and unpack are steps of the executor, not of the stage list. -/
def runStage [DecidableEq κ] (members : Comm → List ℕ) (edges : List (ValueEdge α β κ m))
    (stage : Stage κ) (edge : ValueEdge α β κ m) : Option (ValueEdge α β κ m) :=
  match stage with
  | .compress compressor => runCompress codecs compressor edge
  | .allToAll comm => runAllToAll comm (members comm) edges edge
  | .allGather comm => runAllGather (members comm) edges edge
  | .decompReduceComp reduceChunks compressor =>
    runDecompReduceComp plugins codecs reduceChunks compressor edge
  | .decompressReduce reduceChunks => runDecompressReduce plugins codecs reduceChunks edge
  | .decompress => runDecompress codecs edge
  | .reduceScatter comm => runReduceScatter comm (members comm) edges edge
  | .pack | .unpack => none

/-- One stage on all ranks of a cluster. -/
def runStageAll [DecidableEq κ] (cluster : Cluster) (stage : ℕ → Option (Stage κ))
    (edges : List (ValueEdge α β κ m)) : Option (List (ValueEdge α β κ m)) :=
  (List.range cluster.nRanks).mapM fun g => do
    let stage ← stage g
    runStage plugins codecs (fun comm => cluster.members g (Cluster.role comm.handle)) edges stage
      (edges.getD g default)

/-- The loop over `n` stages, each on all ranks before the next one. -/
def runStages [DecidableEq κ] (cluster : Cluster) :
    ℕ → (ℕ → List (Stage κ)) → List (ValueEdge α β κ m) → Option (List (ValueEdge α β κ m))
  | 0, _, edges => some edges
  | n + 1, stages, edges => do
    let edges ← runStageAll plugins codecs cluster (fun g => (stages g).head?) edges
    runStages cluster n (fun g => (stages g).tail) edges

end

end Coccl
