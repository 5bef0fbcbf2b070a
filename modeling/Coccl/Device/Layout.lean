import Coccl.Foundations.Kernels
import Coccl.Foundations.Loops
import Coccl.Pipeline.Spec

/-!
# Packing and unpacking

`cocclLaunchPackSlice` and `cocclLaunchUnpackSlice`: the rows of a slice, a pitch apart, are copied
next to each other and back, by a grid of threads in vectors of the largest size that everything is
aligned to, or by `cudaMemcpy2DAsync`. Addresses and sizes are `size_t`, which wraps. Two pointers
into memory that overlap would break the promise of `__restrict__`.
-/

namespace Coccl

open Kernels Loops

/-- `kLayoutThreads`. -/
def layoutThreads : ℕ := 256

/-- `kMaxLayoutBlocks`. -/
def maxLayoutBlocks : ℕ := 32 * 1024

/-- `kTargetBytesPerBlock`. -/
def targetBytesPerBlock : ℕ := 32 * 1024

/-- `kMaxGridY`. -/
def maxGridY : ℕ := 65535

/-- `kLayoutKernelCrossoverBytes`. -/
def layoutKernelCrossoverBytes : ℕ := 128 * 2 ^ 20

/-! ## The threads -/

/-- The values of a `size_t` counter in a loop below `bound`; a counter that has gone on for
`2 ^ 64` rounds has come back to a value it had. -/
def sizeLoop (bound step start : ℕ) : Option (List ℕ) :=
  visits (fun x => decide (x < bound)) (sizeAdd · step) (sizeMax + 1) start

/-- `LayoutRowCopier::copy`: the elements that a thread copies. -/
def layoutRowCopier (unroll stride elementsPerChunk start : ℕ) : Option (List ℕ) :=
  -- the specialisation for an unroll of one
  if unroll = 1 then sizeLoop elementsPerChunk stride start
  else do
    let unrolledOffset := sizeMul (unroll - 1) stride
    let test := fun element => decide
      (element < elementsPerChunk ∧ unrolledOffset < elementsPerChunk - element)
    let next := fun element => sizeAdd element (sizeMul unroll stride)
    let unrolled ← visits test next (sizeMax + 1) start
    let element ← leaves test next (sizeMax + 1) start
    let remainder ← sizeLoop elementsPerChunk stride element
    some ((unrolled.flatMap fun element => (List.range unroll).map fun i =>
      sizeAdd element (sizeMul i stride)) ++ remainder)

/-- `copyLayoutRow`. -/
def copyLayoutRow (copyBytes gridDimX elementsPerChunk blockIdxX thread : ℕ) :
    Option (List ℕ) :=
  layoutRowCopier (targetBytesPerBlock / (layoutThreads * copyBytes))
    (sizeMul gridDimX layoutThreads) elementsPerChunk
    (sizeAdd (sizeMul blockIdxX layoutThreads) thread)

/-- The copies of a thread: the elements of its rows. -/
def threadCopies (copyBytes sliceBytes chunkCount gridDimX gridDimY : ℕ) (thread : ℕ × ℕ × ℕ) :
    Option (List (ℕ × ℕ)) := do
  let chunks ← sizeLoop chunkCount gridDimY thread.2.1
  let rows ← chunks.mapM fun chunk =>
    (copyLayoutRow copyBytes gridDimX (sliceBytes / copyBytes) thread.1 thread.2.2).map
      fun elements => elements.map (chunk, ·)
  some rows.flatten

/-- `layoutGrid`. -/
def layoutGrid (copyBytes sliceBytes chunkCount : ℕ) : ℕ × ℕ :=
  let elementsPerChunk := sliceBytes / copyBytes
  let neededBlocks := sizeAdd elementsPerChunk (layoutThreads - 1) / layoutThreads
  let targetBlocks := sizeAdd sliceBytes (targetBytesPerBlock - 1) / targetBytesPerBlock
  let gridY := if chunkCount < maxGridY then chunkCount else maxGridY
  let blocksPerRow := maxLayoutBlocks / gridY
  let blocksPerRow := if blocksPerRow = 0 then 1 else blocksPerRow
  let blocksPerRow := if neededBlocks < blocksPerRow then neededBlocks else blocksPerRow
  let blocksPerRow := if targetBlocks < blocksPerRow then targetBlocks else blocksPerRow
  (if blocksPerRow = 0 then 1 else blocksPerRow, gridY)

/-- The copies of all threads of a grid: chunk and element. -/
def layoutCopies (copyBytes sliceBytes chunkCount : ℕ) : Option (List (ℕ × ℕ)) := do
  let grid := layoutGrid copyBytes sliceBytes chunkCount
  let copies ← (List.range grid.1 ×ˢ List.range grid.2 ×ˢ List.range layoutThreads).mapM
    (threadCopies copyBytes sliceBytes chunkCount grid.1 grid.2)
  some copies.flatten

/-! ## Rows -/

/-- `layoutVectorBytes`. -/
def layoutVectorBytes (source sourcePitchBytes destination destinationPitchBytes sliceBytes : ℕ) :
    ℕ :=
  let alignment := source ||| destination ||| sourcePitchBytes ||| destinationPitchBytes |||
    sliceBytes
  if alignment &&& 15 = 0 then 16
  else if alignment &&& 7 = 0 then 8
  else if alignment &&& 3 = 0 then 4
  else if alignment &&& 1 = 0 then 2
  else 1

/-- The rows of a slice, from where they are to where they go. -/
structure SliceRows where
  source : ℕ
  sourcePitchBytes : ℕ
  destination : ℕ
  destinationPitchBytes : ℕ
  sliceBytes : ℕ
  chunkCount : ℕ
  /-- The row of the destination for a row of the source. -/
  destinationChunk : ℕ → ℕ

/-- What `packSliceKernel` copies. -/
def packRows (source sourcePitchBytes destination sliceBytes chunkCount : ℕ)
    (inputLayout : InputLayout) (nNodes ranksPerNode : ℕ) : SliceRows where
  source := source
  sourcePitchBytes := sourcePitchBytes
  destination := destination
  destinationPitchBytes := sliceBytes
  sliceBytes := sliceBytes
  chunkCount := chunkCount
  destinationChunk := fun sourceChunk => match inputLayout with
    | .hierarchicalSwizzle =>
      sizeAdd (sizeMul (sourceChunk % ranksPerNode) nNodes) (sourceChunk / ranksPerNode)
    | .contiguous => sourceChunk

/-- What `unpackSliceKernel` copies. -/
def unpackRows (source destination destinationPitchBytes sliceBytes chunkCount : ℕ) :
    SliceRows where
  source := source
  sourcePitchBytes := sliceBytes
  destination := destination
  destinationPitchBytes := destinationPitchBytes
  sliceBytes := sliceBytes
  chunkCount := chunkCount
  destinationChunk := id

namespace SliceRows

variable (rows : SliceRows)

def vectorBytes : ℕ :=
  layoutVectorBytes rows.source rows.sourcePitchBytes rows.destination rows.destinationPitchBytes
    rows.sliceBytes

/-- Where a vector is read. -/
def sourceAddress (copy : ℕ × ℕ) : ℕ :=
  sizeAdd (sizeAdd rows.source (sizeMul copy.1 rows.sourcePitchBytes))
    (sizeMul copy.2 rows.vectorBytes)

/-- Where a vector is written. -/
def destinationAddress (copy : ℕ × ℕ) : ℕ :=
  sizeAdd (sizeAdd rows.destination
    (sizeMul (rows.destinationChunk copy.1) rows.destinationPitchBytes))
    (sizeMul copy.2 rows.vectorBytes)

variable {V : Type*}

/-- What the kernels leave in memory. The types of `dispatchPack` and `dispatchUnpack` are as large
as `layoutVectorBytes` says. -/
inductive Launched (memory : ℕ → V) : (ℕ → V) → Prop where
  | completed {copies : List (ℕ × ℕ)}
      (hcopies : layoutCopies rows.vectorBytes rows.sliceBytes rows.chunkCount = some copies)
      (registers : (ℕ × ℕ) × ℕ → V) (order : List (((ℕ × ℕ) × ℕ) ⊕ ((ℕ × ℕ) × ℕ)))
      (horder : (Kernel.copyKernel (V := V) copies rows.vectorBytes rows.sourceAddress
        rows.destinationAddress).Legal order) :
      Launched memory ((Kernel.copyKernel copies rows.vectorBytes rows.sourceAddress
        rows.destinationAddress).run order ⟨memory, registers⟩).memory

end SliceRows

/-- `cudaMemcpy2DAsync`. -/
def memcpy2D {V : Type*} (dst dpitch src spitch width height : ℕ) (memory : ℕ → V) (a : ℕ) : V :=
  if dst ≤ a ∧ (a - dst) / dpitch < height ∧ (a - dst) % dpitch < width then
    memory (src + (a - dst) / dpitch * spitch + (a - dst) % dpitch)
  else memory a

/-! ## The calls -/

section

variable {V : Type*} (source sourcePitchBytes destination destinationPitchBytes sliceBytes
  chunkCount : ℕ) (inputLayout : InputLayout) (nNodes ranksPerNode : ℕ) (memory : ℕ → V)

/-- What both calls refuse. -/
def layoutInvalid (pitchBytes : ℕ) : Prop :=
  source = 0 ∨ destination = 0 ∨ sliceBytes = 0 ∨ chunkCount = 0 ∨ pitchBytes < sliceBytes

/-- What both calls leave to `cudaMemcpy2DAsync`. -/
def layoutCopies2D (vectorBytes : ℕ) : Prop :=
  vectorBytes < 16 ∧
    (2 < vectorBytes ∨ sizeMul sliceBytes chunkCount < layoutKernelCrossoverBytes)

/-- `cocclLaunchPackSlice`: the result and the memory that a call can leave. -/
inductive LaunchPackSlice : Option NcclError → (ℕ → V) → Prop where
  | invalid (h : layoutInvalid source destination sliceBytes chunkCount sourcePitchBytes) :
      LaunchPackSlice (some .invalidArgument) memory
  | copied (h : ¬ layoutInvalid source destination sliceBytes chunkCount sourcePitchBytes)
      (hlayout : inputLayout = .contiguous)
      (hcopies : layoutCopies2D sliceBytes chunkCount (layoutVectorBytes source sourcePitchBytes
        destination sliceBytes sliceBytes)) :
      LaunchPackSlice none (memcpy2D destination sliceBytes source sourcePitchBytes sliceBytes
        chunkCount memory)
  | launched (h : ¬ layoutInvalid source destination sliceBytes chunkCount sourcePitchBytes)
      (hcopies : ¬ (inputLayout = .contiguous ∧ layoutCopies2D sliceBytes chunkCount
        (layoutVectorBytes source sourcePitchBytes destination sliceBytes sliceBytes)))
      {final : ℕ → V} (hfinal : (packRows source sourcePitchBytes destination sliceBytes
        chunkCount inputLayout nNodes ranksPerNode).Launched memory final) :
      LaunchPackSlice none final

/-- `cocclLaunchUnpackSlice`. -/
inductive LaunchUnpackSlice : Option NcclError → (ℕ → V) → Prop where
  | invalid (h : layoutInvalid source destination sliceBytes chunkCount destinationPitchBytes) :
      LaunchUnpackSlice (some .invalidArgument) memory
  | copied (h : ¬ layoutInvalid source destination sliceBytes chunkCount destinationPitchBytes)
      (hcopies : layoutCopies2D sliceBytes chunkCount (layoutVectorBytes source sliceBytes
        destination destinationPitchBytes sliceBytes)) :
      LaunchUnpackSlice none (memcpy2D destination destinationPitchBytes source sliceBytes
        sliceBytes chunkCount memory)
  | launched (h : ¬ layoutInvalid source destination sliceBytes chunkCount destinationPitchBytes)
      (hcopies : ¬ layoutCopies2D sliceBytes chunkCount (layoutVectorBytes source sliceBytes
        destination destinationPitchBytes sliceBytes))
      {final : ℕ → V} (hfinal : (unpackRows source destination destinationPitchBytes sliceBytes
        chunkCount).Launched memory final) :
      LaunchUnpackSlice none final

end

end Coccl
