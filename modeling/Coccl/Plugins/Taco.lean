import Coccl.Compression.Execute
import Coccl.Device.Arithmetic

/-!
# The layout of TACO

An encoded chunk has a byte for each element, then a quantisation scale and then an adaptive scale
for each group of elements. Here are `compress` and `decompress` with their checks, and the
addresses that a thread of their kernels touches.
-/

namespace Coccl

open Checked

/-- `validGroupSize`. -/
def validGroupSize (value : ℕ) : Bool :=
  value = 32 ∨ value = 64 ∨ value = 128 ∨ value = 256 ∨ value = 512

/-- `TacoConfig`, as far as the layout depends on it. -/
structure TacoConfig where
  groupSize : ℕ
  deriving DecidableEq

namespace TacoCompressor

/-- The bytes of the scales of one kind, and of a chunk. -/
def chunkLayout (config : TacoConfig) (elementsPerChunk : ℕ) : Option (ℕ × ℕ) := do
  let groups := divUp elementsPerChunk config.groupSize
  let scaleBytes ← mul sizeMax groups 4
  let metadataBytes ← mul sizeMax scaleBytes 2
  let outputChunkBytes ← add sizeMax elementsPerChunk metadataBytes
  some (scaleBytes, outputChunkBytes)

/-- `compressedBytes`. -/
def compressedBytes (config : TacoConfig) (elementsPerChunk chunks : ℕ) : Option ℕ := do
  if elementsPerChunk = 0 ∨ validGroupSize config.groupSize = false then none
  else
    let layout ← chunkLayout config elementsPerChunk
    mul sizeMax layout.2 chunks

/-! ## The calls -/

/-- What a kernel is launched with. The raw side is what is compressed or decompressed to. -/
structure Launch where
  datatype : DataType
  groupSize : ℕ
  raw : ℕ
  encoded : ℕ
  elementsPerChunk : ℕ
  rawStride : ℕ
  encodedStride : ℕ
  scaleBytes : ℕ
  gridX : ℕ
  gridY : ℕ
  deriving DecidableEq

/-- Whether `cudaGetLastError` reports nothing after a launch. A grid beyond the limits of CUDA is
always reported. -/
structure Device where
  launches : Launch → Bool
  limits : ∀ launch, launches launch = true → launch.gridX ≤ 2 ^ 31 - 1 ∧ launch.gridY ≤ 65535

/-- The datatypes that are taken. -/
def supports (datatype : DataType) : Bool := datatype = .float32 ∨ datatype = .bfloat16

/-- `TacoCompressor::compress`: the launch, if the input is not passed through, and the view of the
output. -/
def compress (device : Device) (config : TacoConfig) (input output : CompressorView) :
    Result (Option Launch × CompressorView) :=
  if supports input.datatype = false ∨ input.elementsPerChunk = 0 ∨
      intMax < input.elementsPerChunk ∨ intMax < input.chunks then
    .error .invalidArgument
  else do
    let outputBytes ← orElse .invalidArgument
      (compressedBytes config input.elementsPerChunk input.chunks)
    let layout ← orElse .invalidArgument (chunkLayout config input.elementsPerChunk)
    if shouldPassthrough input outputBytes then do
      let view ← output.passthrough input
      pure (none, view)
    else if output.capacityBytes < outputBytes then .error .invalidArgument
    else
      let launch : Launch := {
        datatype := input.datatype
        groupSize := config.groupSize
        raw := input.data
        encoded := output.data
        elementsPerChunk := input.elementsPerChunk
        rawStride := input.bytes / input.chunks
        encodedStride := layout.2
        scaleBytes := layout.1
        gridX := divUp input.elementsPerChunk config.groupSize % 2 ^ 32
        gridY := input.chunks % 2 ^ 32 }
      if device.launches launch = false then .error .unhandledCudaError
      else do
        let view ← output.commitBytes outputBytes input.chunks
        pure (some launch, view)

/-- `TacoCompressor::decompress`. -/
def decompress (device : Device) (config : TacoConfig) (input output : CompressorView) :
    Result Launch :=
  if supports output.datatype = false ∨ output.elements = 0 ∨ output.chunks = 0 ∨
      intMax < output.elements / output.chunks ∨ input.chunks ≠ output.chunks ∨
      intMax < input.chunks then
    .error .invalidArgument
  else do
    let elementsPerChunk := output.elements / output.chunks
    let layout ← orElse .invalidArgument (chunkLayout config elementsPerChunk)
    let expectedInputBytes ←
      orElse .invalidArgument (mul sizeMax layout.2 input.chunks)
    if expectedInputBytes ≠ input.bytes then .error .invalidArgument
    else do
      let outputStride ← orElse .invalidArgument
        (mul sizeMax elementsPerChunk (dataTypeSize output.datatype))
      if validGroupSize config.groupSize = false then .error .invalidArgument
      else
        let launch : Launch := {
          datatype := output.datatype
          groupSize := config.groupSize
          raw := output.data
          encoded := input.data
          elementsPerChunk := elementsPerChunk
          rawStride := outputStride
          encodedStride := layout.2
          scaleBytes := layout.1
          gridX := divUp elementsPerChunk config.groupSize % 2 ^ 32
          gridY := input.chunks % 2 ^ 32 }
        if device.launches launch = false then .error .unhandledCudaError else pure launch

/-! ## The threads -/

namespace Launch

variable (launch : Launch)

/-- A thread: `group_id`, `chunk_id` and `tid`. -/
abbrev Thread := ℕ × ℕ × ℕ

/-- The threads of the grid. -/
def threads : List Thread :=
  List.range launch.gridX ×ˢ List.range launch.gridY ×ˢ List.range launch.groupSize

/-- A pointer and an offset. -/
def pointer (base : ℕ) (offset : ℤ) : ℕ := ((base + offset) % (sizeMax + 1)).toNat

/-- `out_base` of the one kernel and `in_base` of the other. -/
def encodedBase (thread : Thread) : ℕ :=
  sizeAdd launch.encoded (sizeMul thread.2.1 launch.encodedStride)

/-- `in_base` of the one kernel and `out_base` of the other. -/
def rawBase (thread : Thread) : ℕ := sizeAdd launch.raw (sizeMul thread.2.1 launch.rawStride)

/-- `idx`. -/
def idx (thread : Thread) : ℤ := toInt (thread.1 * launch.groupSize + thread.2.2)

/-- `wordStart`. -/
def wordStart (thread : Thread) : ℤ := Int.bmod (launch.idx thread - thread.2.2 % 4) (2 ^ 32)

/-- `fullWord`. -/
def fullWord (thread : Thread) : Bool :=
  Int.bmod (launch.wordStart thread + 3) (2 ^ 32) < launch.elementsPerChunk

/-- Where the raw element of a thread is read or written. -/
def rawAccesses (thread : Thread) : List ℕ :=
  if launch.idx thread < launch.elementsPerChunk then
    [pointer (launch.rawBase thread) (launch.idx thread * dataTypeSize launch.datatype)]
  else []

/-- Where four bytes of data are written at once. -/
def wordStores (thread : Thread) : List ℕ :=
  if thread.2.2 % 4 = 0 ∧ launch.fullWord thread then
    [pointer (launch.encodedBase thread) (launch.idx thread / 4 * 4)]
  else []

/-- Where a single byte of data is written. -/
def byteStores (thread : Thread) : List ℕ :=
  if thread.2.2 % 4 = 0 ∧ launch.fullWord thread then []
  else if launch.idx thread < launch.elementsPerChunk ∧ launch.fullWord thread = false then
    [pointer (launch.encodedBase thread) (launch.idx thread)]
  else []

/-- The quantisation scale of the group of a thread. -/
def quantScale (thread : Thread) : ℕ :=
  pointer (pointer (launch.encodedBase thread) launch.elementsPerChunk) (thread.1 * 4)

/-- The adaptive scale of the group of a thread. -/
def adaScale (thread : Thread) : ℕ :=
  pointer (pointer (pointer (launch.encodedBase thread) launch.elementsPerChunk)
    launch.scaleBytes) (thread.1 * 4)

/-- The first thread of a block writes the scales. -/
def quantScaleStores (thread : Thread) : List ℕ :=
  if thread.2.2 = 0 then [launch.quantScale thread] else []

def adaScaleStores (thread : Thread) : List ℕ :=
  if thread.2.2 = 0 then [launch.adaScale thread] else []

/-- The threads with an element read its data and the scales. -/
def dataLoads (thread : Thread) : List ℕ :=
  if launch.idx thread < launch.elementsPerChunk then
    [pointer (launch.encodedBase thread) (launch.idx thread)]
  else []

def quantScaleLoads (thread : Thread) : List ℕ :=
  if launch.idx thread < launch.elementsPerChunk then [launch.quantScale thread] else []

def adaScaleLoads (thread : Thread) : List ℕ :=
  if launch.idx thread < launch.elementsPerChunk then [launch.adaScale thread] else []

end Launch

end TacoCompressor

end Coccl
