import Coccl.Device.Arithmetic
import Coccl.Foundations.Kernels
import Coccl.Foundations.Loops
import Mathlib.Data.BitVec

/-!
# Reduction of integer chunks

`launchReduceChunk` on integers: a block of threads for each range of elements; each thread sums the
elements of some chunks, and the block adds the sums up in a tree. Sizes come as `size_t` and are
counted in 32 bits on the device; a signed product is taken to wrap. Elements are the locations
here.
-/

namespace Coccl

open Kernels Loops List

/-! ## The tree -/

section

variable {V : Type*} [AddCommMonoid V]

/-- One round between two barriers. -/
def reduceRound (half : ℕ) (sdata : ℕ → V) (tidy : ℕ) : V :=
  if tidy < half then sdata tidy + sdata (tidy + half) else sdata tidy

/-- `block_y_reduce` on the column of one `tidx`. -/
def blockYReduce (blockDimY : ℕ) (sdata : ℕ → V) : ℕ → V :=
  let sdata := if 32 ≤ blockDimY then reduceRound 16 sdata else sdata
  let sdata := if 16 ≤ blockDimY then reduceRound 8 sdata else sdata
  let sdata := if 8 ≤ blockDimY then reduceRound 4 sdata else sdata
  let sdata := if 4 ≤ blockDimY then reduceRound 2 sdata else sdata
  if 2 ≤ blockDimY then reduceRound 1 sdata else sdata

/-- A round adds the upper half to the lower one. -/
theorem sum_reduceRound (half : ℕ) (sdata : ℕ → V) :
    ∑ tidy ∈ Finset.range half, reduceRound half sdata tidy =
      ∑ tidy ∈ Finset.range (2 * half), sdata tidy := by
  rw [two_mul, Finset.sum_range_add, ← Finset.sum_add_distrib]
  refine Finset.sum_congr rfl fun tidy htidy => ?_
  rw [reduceRound, if_pos (Finset.mem_range.mp htidy), Nat.add_comm]

/-- The sizes of a block in `y`. -/
def blockSizesY : List ℕ := [2, 4, 8, 16, 32]

/-- The tree computes a sum. -/
theorem blockYReduce_zero {blockDimY : ℕ} (h : blockDimY ∈ blockSizesY) (sdata : ℕ → V) :
    blockYReduce blockDimY sdata 0 = ∑ tidy ∈ Finset.range blockDimY, sdata tidy := by
  have hone : ∀ sdata : ℕ → V, reduceRound 1 sdata 0 = ∑ tidy ∈ Finset.range 2, sdata tidy :=
    fun sdata => by rw [← sum_reduceRound 1 sdata, Finset.sum_range_one]
  have htwo := @sum_reduceRound V _ 2
  have hfour := @sum_reduceRound V _ 4
  have height := @sum_reduceRound V _ 8
  have hsixteen := @sum_reduceRound V _ 16
  simp only [blockSizesY, mem_cons, not_mem_nil, or_false] at h
  rcases h with rfl | rfl | rfl | rfl | rfl <;>
    simp only [blockYReduce, Nat.reduceLeDiff, if_true, if_false, hone, htwo, hfour, height,
      hsixteen, Nat.reduceMul]

end

/-! ## The kernel -/

/-- `blockDim`, by the number of chunks. -/
def integerBlock (numChunks : ℤ) : ℕ × ℕ :=
  if numChunks ≤ 4 then (512, 2)
  else if numChunks ≤ 8 then (256, 4)
  else if numChunks ≤ 16 then (128, 8)
  else if numChunks ≤ 32 then (64, 16)
  else (32, 32)

section

variable (w : ℕ) (input output : ℕ) (chunkCount numChunks : ℤ) (gridDim blockDimX blockDimY : ℕ)

/-- `idx` of a thread. -/
def threadIdx (blockIdx tidx : ℕ) : ℕ := (blockIdx * blockDimX + tidx) % 2 ^ 32

/-- The chunks that a thread sums an element of; `none` if its loop does not end. An `int` that has
been counted on for `2 ^ 32` rounds has come back to a value it had. -/
def threadChunks (idx tidy : ℕ) : Option (List ℤ) :=
  visits (fun i => decide (i < numChunks ∧ idx < toUnsigned chunkCount))
    (fun i => Int.bmod (i + blockDimY) (2 ^ 32)) (2 ^ 32) tidy

/-- The index of what is loaded. -/
def chunkElement (i : ℤ) (idx : ℕ) : ℕ := toUnsigned (chunkCount * i + idx)

/-- The threads of the grid: block, `tidx` and `tidy`. -/
def gridThreads : List (ℕ × ℕ × ℕ) :=
  List.range gridDim ×ˢ List.range blockDimX ×ˢ List.range blockDimY

/-- The sum of a thread. -/
def threadSum (registers : (ℕ × ℕ × ℕ) × ℤ → BitVec w) (thread : ℕ × ℕ × ℕ) : BitVec w :=
  (((threadChunks chunkCount numChunks blockDimY (threadIdx blockDimX thread.1 thread.2.1)
    thread.2.2).getD []).map fun i => registers (thread, i)).sum

/-- Every thread gets to the barrier. -/
def ThreadsEnd : Prop :=
  ∀ thread ∈ gridThreads gridDim blockDimX blockDimY,
    (threadChunks chunkCount numChunks blockDimY (threadIdx blockDimX thread.1 thread.2.1)
      thread.2.2).isSome = true

variable {blockDimY} in
/-- `reduceChunkInteger`. -/
def reduceChunkInteger (hblock : blockDimY ∈ blockSizesY) :
    Kernel ℕ ℕ ((ℕ × ℕ × ℕ) × ℤ) (ℕ × ℕ) (BitVec w) where
  loads := (gridThreads gridDim blockDimX blockDimY).flatMap fun thread =>
    ((threadChunks chunkCount numChunks blockDimY (threadIdx blockDimX thread.1 thread.2.1)
      thread.2.2).getD []).map fun i => (thread, i)
  stores := (List.range gridDim ×ˢ List.range blockDimX).filter fun thread =>
    threadIdx blockDimX thread.1 thread.2 < toUnsigned chunkCount
  loader := fun register => register.1.1
  storer := fun thread => thread.1
  source := fun register => input +
    chunkElement chunkCount register.2 (threadIdx blockDimX register.1.1 register.1.2.1)
  target := fun thread => output + threadIdx blockDimX thread.1 thread.2
  value := fun thread registers => blockYReduce blockDimY (fun tidy =>
    threadSum w chunkCount numChunks blockDimX blockDimY registers (thread.1, thread.2, tidy)) 0
  value_congr := by
    intro thread hthread registers registers' hsame
    obtain ⟨hgrid, hx⟩ := mem_product.mp (mem_filter.mp hthread).1
    rw [blockYReduce_zero hblock, blockYReduce_zero hblock]
    refine Finset.sum_congr rfl fun tidy htidy => congrArg List.sum (map_congr_left
      fun i hi => hsame _ (mem_flatMap.mpr ⟨(thread.1, thread.2, tidy), ?_,
        mem_map_of_mem hi⟩) rfl)
    exact mem_product.mpr ⟨hgrid, mem_product.mpr
      ⟨hx, mem_range.mpr (Finset.mem_range.mp htidy)⟩⟩

end

/-! ## The launch -/

theorem integerBlock_mem (numChunks : ℤ) : (integerBlock numChunks).2 ∈ blockSizesY := by
  unfold integerBlock
  split_ifs <;> decide

/-- The widths of the integers that are reduced as such. -/
def integerWidth : DataType → Option ℕ
  | .int8 => some 8
  | .int32 => some 32
  | .int64 => some 64
  | _ => none

section

variable {w : ℕ} (input output chunkCount reduceChunks : ℕ)

/-- The number of blocks. -/
def integerGrid : ℕ :=
  divUp chunkCount (integerBlock (toInt reduceChunks)).1 % 2 ^ 32

/-- What `ncclReduceChunk` can leave in memory: nothing new where there are no or too many blocks,
else what every order of the threads leaves, provided that all of them get to their barrier. -/
inductive ReduceChunk (memory : ℕ → BitVec w) : (ℕ → BitVec w) → Prop where
  | rejected (h : integerGrid chunkCount reduceChunks = 0 ∨
      2 ^ 31 ≤ integerGrid chunkCount reduceChunks) : ReduceChunk memory memory
  | completed (hgrid : 0 < integerGrid chunkCount reduceChunks)
      (hlimit : integerGrid chunkCount reduceChunks < 2 ^ 31)
      (hend : ThreadsEnd (toInt chunkCount) (toInt reduceChunks)
        (integerGrid chunkCount reduceChunks) (integerBlock (toInt reduceChunks)).1
        (integerBlock (toInt reduceChunks)).2)
      (registers : (ℕ × ℕ × ℕ) × ℤ → BitVec w) (order : List (((ℕ × ℕ × ℕ) × ℤ) ⊕ (ℕ × ℕ)))
      (horder : (reduceChunkInteger w input output (toInt chunkCount) (toInt reduceChunks)
        (integerGrid chunkCount reduceChunks) (integerBlock (toInt reduceChunks)).1
        (integerBlock_mem (toInt reduceChunks))).Legal order) :
      ReduceChunk memory ((reduceChunkInteger w input output (toInt chunkCount)
        (toInt reduceChunks) (integerGrid chunkCount reduceChunks)
        (integerBlock (toInt reduceChunks)).1 (integerBlock_mem (toInt reduceChunks))).run order
          ⟨memory, registers⟩).memory

/-- The sums of the chunks in the output, and everything else as it was. -/
def reducedMemory (memory : ℕ → BitVec w) (a : ℕ) : BitVec w :=
  if output ≤ a ∧ a < output + chunkCount then
    ∑ i ∈ Finset.range reduceChunks, memory (input + (i * chunkCount + (a - output)))
  else memory a

variable (w) in
/-- The chunks are reduced exactly, wherever the output is: apart from the input, or in place of its
first chunk. -/
def ReducesExactly : Prop :=
  ∀ (input output : ℕ) (memory : ℕ → BitVec w),
    output = input ∨ (∀ j < chunkCount, ∀ k < chunkCount * reduceChunks,
      output + j ≠ input + k) →
    (∃ final, ReduceChunk input output chunkCount reduceChunks memory final) ∧
      ∀ final, ReduceChunk input output chunkCount reduceChunks memory final →
        final = reducedMemory input output chunkCount reduceChunks memory

/-- The elements of a chunk and of all chunks can be counted in 32 bits, and the counter of the
chunks can go on by a block. -/
def SmallChunks (chunkCount reduceChunks : ℕ) : Prop :=
  chunkCount = 0 ∨
    (chunkCount < 2 ^ 32 ∧ chunkCount * reduceChunks ≤ 2 ^ 32 ∧ reduceChunks ≤ 2 ^ 31 - 32)

instance : Decidable (SmallChunks chunkCount reduceChunks) := inferInstanceAs (Decidable (_ ∨ _))

end

end Coccl
