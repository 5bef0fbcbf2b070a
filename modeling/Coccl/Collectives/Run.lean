import Coccl.Collectives.Values
import Coccl.Pipeline.Regions

/-!
# A pipeline on all ranks

Each slice of a prepared pipeline reads its rows of the input, packed or in place, goes through the
stages, and writes its rows of the output. The slices run one after another; the primitives'
pipelines end on raw data, so the overlapped run does the same. What is kept of a buffer is the
element that starts at an address.
-/

namespace Coccl

/-- The user's memory of one rank. -/
abbrev UserMemory (α : Type) := ℕ → α

section

variable {α β κ : Type} {m : ℕ} [AddCommMonoid α]

/-- Element `i` of contiguous chunks. -/
def elementAt (chunks : List (Fin m → α)) (i : ℕ) : α :=
  if h : i % m < m then chunks.getD (i / m) 0 ⟨i % m, h⟩ else 0

namespace PipelineContext

variable (context : PipelineContext κ)

/-- Where the pack kernel puts a row. -/
def destinationChunk (sourceChunk : ℕ) : ℕ :=
  match context.stageContext.inputLayout with
  | .hierarchicalSwizzle =>
    sourceChunk % context.stageContext.ranksPerNode * context.stageContext.nNodes +
      sourceChunk / context.stageContext.ranksPerNode
  | .contiguous => sourceChunk

/-- `cocclLaunchPackSlice`: the rows of a slice, `rawChunkBytes` apart in the input. -/
def packSlice (m slice : ℕ) (memory : UserMemory α) : List (Fin m → α) :=
  Blocks.scatter context.spec.inputChunks context.destinationChunk
    (fun chunk j => memory (context.spec.input + (context.slice slice).byteOffset +
      chunk * context.stageContext.rawChunkBytes + j * context.spec.typeBytes))
    (List.replicate context.spec.inputChunks 0)

/-- What the first stage of a slice reads. -/
def inputEdge (m slice : ℕ) (memory : UserMemory α) : ValueEdge α β κ m :=
  ⟨(if context.stagesInput then context.packSlice m slice memory
    else (List.range context.spec.inputChunks).map fun chunk j =>
      memory (context.spec.input + (context.slice slice).byteOffset +
        (chunk * m + j) * context.spec.typeBytes)).map .raw, none⟩

/-- Where element `i` of a slice's result goes: unpacked to its row, or in place. -/
def outputAddress (m slice i : ℕ) : ℕ :=
  if context.stagesOutput then
    context.spec.output + (context.slice slice).byteOffset +
      i / m * context.stageContext.rawChunkBytes + i % m * context.spec.typeBytes
  else context.spec.output + (context.slice slice).byteOffset + i * context.spec.typeBytes

/-- The result of a slice in the user's output. -/
def storeSlice (slice : ℕ) (edge : ValueEdge α β κ m) (memory : UserMemory α) :
    Option (UserMemory α) := do
  let chunks ← edge.values?
  some (Blocks.store (chunks.length * m) (context.outputAddress m slice) (elementAt chunks) memory)

end PipelineContext

end

section

variable {α β κ : Type} [AddCommMonoid α] [DecidableEq κ] (plugins : κ → Plugin)
  (codecs : κ → Codec α β) (cluster : Cluster) (contexts : ℕ → PipelineContext κ)

/-- One slice of `m` elements per chunk on all ranks. -/
def runSlice (m slice : ℕ) (memories : List (UserMemory α)) : Option (List (UserMemory α)) := do
  let edges ← runStages plugins codecs cluster (contexts 0).stageCount
    (fun g => (contexts g).spec.stages)
    ((List.range cluster.nRanks).map fun g =>
      ((contexts g).inputEdge m slice (memories.getD g 0) : ValueEdge α β κ m))
  (List.range cluster.nRanks).mapM fun g =>
    (contexts g).storeSlice slice (edges.getD g default) (memories.getD g 0)

/-- The ranks cut their chunks alike and have as many stages. -/
def SameShape : Prop :=
  ∀ g < cluster.nRanks, (contexts g).depth = (contexts 0).depth ∧
    (contexts g).stageCount = (contexts 0).stageCount ∧
    ∀ slice < (contexts 0).depth,
      ((contexts g).slice slice).elementCount = ((contexts 0).slice slice).elementCount

instance : Decidable (SameShape cluster contexts) := by
  unfold SameShape
  infer_instance

/-- The prepared pipelines of all ranks; ranks whose shapes differ do not meet. -/
def runPipelines (memories : List (UserMemory α)) : Option (List (UserMemory α)) :=
  if SameShape cluster contexts then
    (List.range (contexts 0).depth).foldlM (fun memories slice =>
      runSlice plugins codecs cluster contexts ((contexts 0).slice slice).elementCount slice
        memories) memories
  else none

end

end Coccl
