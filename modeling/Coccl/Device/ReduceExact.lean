import Coccl.Device.ReduceChunk

/-!
# When integer chunks are reduced exactly

A block stores nothing before it has loaded everything, so the output may be the first chunk of the
input. The indices are right as long as they can be counted in 32 bits (`SmallChunks`); otherwise
chunks are loaded twice, elements are left out, or a loop does not end.
-/

namespace Coccl

open Kernels Loops Blocks List

/-! ## Shapes -/

theorem chunkElement_natCast (chunkCount i idx : ℕ) :
    chunkElement (toInt chunkCount) i idx = (chunkCount * i + idx) % 2 ^ 32 := by
  rw [chunkElement, toUnsigned_toInt_mul, ← toUnsigned_natCast]
  push_cast
  rfl

theorem integerBlock_spec (numChunks : ℤ) : 32 ≤ (integerBlock numChunks).1 ∧
    (integerBlock numChunks).1 ≤ 512 ∧ (integerBlock numChunks).1 ∣ 2 ^ 32 ∧
    0 < (integerBlock numChunks).2 ∧ (integerBlock numChunks).2 ≤ 32 := by
  unfold integerBlock
  split_ifs <;> norm_num

/-- The blocks cover the elements of a chunk, and no more than can be counted. -/
theorem integerGrid_spec {chunkCount : ℕ} (reduceChunks : ℕ) (hpos : 0 < chunkCount)
    (hlt : chunkCount < 2 ^ 32) : 0 < integerGrid chunkCount reduceChunks ∧
    integerGrid chunkCount reduceChunks < 2 ^ 31 ∧
    chunkCount ≤ integerGrid chunkCount reduceChunks * (integerBlock (toInt reduceChunks)).1 ∧
    integerGrid chunkCount reduceChunks * (integerBlock (toInt reduceChunks)).1 ≤ 2 ^ 32 := by
  obtain ⟨hx32, hx512, ⟨blocks, hblocks⟩, -, -⟩ := integerBlock_spec (toInt reduceChunks)
  set x := (integerBlock (toInt reduceChunks)).1
  have hx : 0 < x := by omega
  set grid := (chunkCount + (x - 1)) / x with hdef
  have hle : grid ≤ blocks := by
    refine Nat.lt_succ_iff.mp ((Nat.div_lt_iff_lt_mul hx).mpr ?_)
    rw [Nat.succ_mul, mul_comm, ← hblocks]
    omega
  have hblocks32 : blocks * 32 ≤ 2 ^ 32 := by
    rw [hblocks, mul_comm]
    exact Nat.mul_le_mul_right _ hx32
  have hgrid : integerGrid chunkCount reduceChunks = grid := by
    rw [integerGrid, divUp, sizeAdd_eq (by norm_num [sizeMax]; omega), Nat.mod_eq_of_lt]
    exact hle.trans_lt (by omega)
  have hcover : chunkCount ≤ grid * x := by
    have hlast : chunkCount + (x - 1) < grid * x + x := Nat.lt_div_mul_add hx
    omega
  refine ⟨?_, by omega, by rwa [hgrid], ?_⟩
  · rw [hgrid]
    exact Nat.div_pos (by omega) hx
  · rw [hgrid, hblocks, mul_comm]
    exact Nat.mul_le_mul_left _ hle

/-! ## Threads -/

section

variable {gridDim blockDimX blockDimY : ℕ} {numChunks : ℤ}

theorem mem_gridThreads {thread : ℕ × ℕ × ℕ} : thread ∈ gridThreads gridDim blockDimX blockDimY ↔
    thread.1 < gridDim ∧ thread.2.1 < blockDimX ∧ thread.2.2 < blockDimY := by
  obtain ⟨blockIdx, tidx, tidy⟩ := thread
  simp only [gridThreads, mem_product, mem_range]

theorem threadIdx_eq (hgrid : gridDim * blockDimX ≤ 2 ^ 32) {blockIdx tidx : ℕ}
    (hblockIdx : blockIdx < gridDim) (htidx : tidx < blockDimX) :
    threadIdx blockDimX blockIdx tidx = blockIdx * blockDimX + tidx :=
  Nat.mod_eq_of_lt ((div_add_lt hblockIdx htidx).trans_le hgrid)

theorem threadIdx_inj (hgrid : gridDim * blockDimX ≤ 2 ^ 32) {s s' : ℕ × ℕ}
    (hs : s.1 < gridDim ∧ s.2 < blockDimX) (hs' : s'.1 < gridDim ∧ s'.2 < blockDimX)
    (heq : threadIdx blockDimX s.1 s.2 = threadIdx blockDimX s'.1 s'.2) : s = s' := by
  rw [threadIdx_eq hgrid hs.1 hs.2, threadIdx_eq hgrid hs'.1 hs'.2] at heq
  obtain ⟨hblock, hlane⟩ := mul_add_inj hs.2 hs'.2 heq
  exact Prod.ext hblock hlane

/-- The loop of a thread of an existing element, as long as its counter does not wrap. -/
theorem threadChunks_eq {chunkCount reduceChunks idx tidy : ℕ} (hlt : chunkCount < 2 ^ 32)
    (hidx : idx < chunkCount) (hy : 0 < blockDimY) (htidy : tidy < blockDimY)
    (hcounter : reduceChunks + blockDimY ≤ 2 ^ 31) :
    threadChunks (toInt chunkCount) (toInt reduceChunks) blockDimY idx tidy =
      some ((progression tidy blockDimY reduceChunks).map Nat.cast) := by
  rw [threadChunks, toInt_of_lt (show reduceChunks < 2 ^ 31 by omega)]
  refine visits_progression hy (fun x _ => ?_) (fun x hx => ?_) (by omega) (by omega)
  · rw [toUnsigned_toInt, Nat.mod_eq_of_lt hlt]
    simp [hidx]
  · rw [← Nat.cast_add]
    exact toInt_of_lt (by omega)

theorem threadChunks_of_le {chunkCount idx : ℕ} (hlt : chunkCount < 2 ^ 32)
    (hidx : chunkCount ≤ idx) (tidy : ℕ) :
    threadChunks (toInt chunkCount) numChunks blockDimY idx tidy = some [] := by
  refine visits_of_false ?_
  rw [toUnsigned_toInt, Nat.mod_eq_of_lt hlt, decide_eq_false_iff_not]
  omega

theorem threadChunks_of_nonpos {chunkCount : ℤ} (h : numChunks ≤ 0) (idx tidy : ℕ) :
    threadChunks chunkCount numChunks blockDimY idx tidy = some [] := by
  refine visits_of_false ?_
  rw [decide_eq_false_iff_not]
  omega

/-- The loop of a thread whose counter wraps: it stays below the number of chunks, because it stays
a multiple of the step. -/
theorem threadChunks_eq_none {chunkCount idx : ℕ} (hlt : chunkCount < 2 ^ 32)
    (hidx : idx < chunkCount) (hcounter : 2 ^ 31 - 32 < numChunks) :
    threadChunks (toInt chunkCount) numChunks 32 idx 0 = none := by
  refine visits_eq_none _ fun k => ?_
  have hcount : (32 : ℤ) ∣ ((fun i : ℤ => Int.bmod (i + (32 : ℕ)) (2 ^ 32))^[k] (0 : ℕ)) ∧
      ((fun i : ℤ => Int.bmod (i + (32 : ℕ)) (2 ^ 32))^[k] (0 : ℕ)) < 2 ^ 31 := by
    induction k with
    | zero => norm_num
    | succ k ih =>
      rw [Function.iterate_succ_apply']
      refine ⟨?_, (Int.bmod_lt (by norm_num)).trans_le (by norm_num)⟩
      rw [Int.bmod_def]
      split_ifs <;> omega
  rw [toUnsigned_toInt, Nat.mod_eq_of_lt hlt, decide_eq_true_eq]
  omega

end

/-! ## Races -/

section

variable {w input output chunkCount gridDim blockDimX blockDimY : ℕ} {numChunks : ℤ}
  (hblock : blockDimY ∈ blockSizesY)

theorem loads_nodup : (reduceChunkInteger w input output (toInt chunkCount) numChunks gridDim
    blockDimX hblock).loads.Nodup := by
  refine nodup_flatMap.mpr ⟨fun thread _ => ?_, ?_⟩
  · refine List.Nodup.map (fun i i' h => congrArg Prod.snd h) ?_
    cases hvisits : threadChunks (toInt chunkCount) numChunks blockDimY
        (threadIdx blockDimX thread.1 thread.2.1) thread.2.2 with
    | none => exact nodup_nil
    | some chunks => exact nodup_of_visits hvisits
  · refine (nodup_range.product (nodup_range.product nodup_range)).imp
      fun {thread thread'} hne => disjoint_left.mpr fun register h h' => hne ?_
    obtain ⟨i, -, rfl⟩ := mem_map.mp h
    obtain ⟨i', -, heq⟩ := mem_map.mp h'
    exact (congrArg Prod.fst heq).symm

/-- What is stored is the sum of the sums of the threads. -/
theorem value_eq (thread : ℕ × ℕ) (registers : (ℕ × ℕ × ℕ) × ℤ → BitVec w) :
    (reduceChunkInteger w input output (toInt chunkCount) numChunks gridDim blockDimX
      hblock).value thread registers = ∑ tidy ∈ Finset.range blockDimY,
        threadSum w (toInt chunkCount) numChunks blockDimX blockDimY registers
          (thread.1, thread.2, tidy) :=
  blockYReduce_zero hblock _

variable (hlt : chunkCount < 2 ^ 32) (hgrid : gridDim * blockDimX ≤ 2 ^ 32)

include hlt hgrid in
theorem mem_stores {thread : ℕ × ℕ} : thread ∈ (reduceChunkInteger w input output
      (toInt chunkCount) numChunks gridDim blockDimX hblock).stores ↔
    thread.1 < gridDim ∧ thread.2 < blockDimX ∧
      thread.1 * blockDimX + thread.2 < chunkCount := by
  obtain ⟨blockIdx, tidx⟩ := thread
  simp only [reduceChunkInteger, mem_filter, mem_product, mem_range,
    decide_eq_true_eq, toUnsigned_toInt, Nat.mod_eq_of_lt hlt, and_assoc]
  refine and_congr_right fun hblockIdx => and_congr_right fun htidx => ?_
  rw [threadIdx_eq hgrid hblockIdx htidx]

include hlt hgrid in
/-- There is no race unless an element of another index is loaded from where one is stored. -/
theorem reduceChunkInteger_raceFree (hapart : ∀ idx < chunkCount, ∀ idx' tidy, tidy < blockDimY →
      ∀ i ∈ (threadChunks (toInt chunkCount) numChunks blockDimY idx' tidy).getD [],
        output + idx = input + chunkElement (toInt chunkCount) i idx' → idx = idx') :
    (reduceChunkInteger w input output (toInt chunkCount) numChunks gridDim blockDimX
      hblock).RaceFree where
  loads_nodup := loads_nodup hblock
  stores_nodup := (nodup_range.product nodup_range).filter _
  target_inj := by
    intro s hs s' hs' heq
    obtain ⟨hblockIdx, htidx, -⟩ := (mem_stores hblock hlt hgrid).mp hs
    obtain ⟨hblockIdx', htidx', -⟩ := (mem_stores hblock hlt hgrid).mp hs'
    exact threadIdx_inj hgrid ⟨hblockIdx, htidx⟩ ⟨hblockIdx', htidx'⟩ (add_left_cancel heq)
  apart := by
    intro s hs r hr heq
    obtain ⟨hblockIdx, htidx, hidx⟩ := (mem_stores hblock hlt hgrid).mp hs
    obtain ⟨thread, hthread, hchunks⟩ := mem_flatMap.mp hr
    obtain ⟨i, hi, rfl⟩ := mem_map.mp hchunks
    obtain ⟨hblockIdx', htidx', htidy⟩ := mem_gridThreads.mp hthread
    rw [← threadIdx_eq hgrid hblockIdx htidx] at hidx
    have hsame := hapart _ hidx _ _ htidy i hi heq
    exact congrArg Prod.fst (@threadIdx_inj _ _ hgrid s (thread.1, thread.2.1)
      ⟨hblockIdx, htidx⟩ ⟨hblockIdx', htidx'⟩ hsame)

end

/-! ## What is left in memory -/

section

variable {w input output chunkCount reduceChunks : ℕ} {memory final : ℕ → BitVec w}

/-- The chunks that the threads of a column sum an element of. -/
def columnChunks (chunkCount reduceChunks idx tidy : ℕ) : List ℤ :=
  (threadChunks (toInt chunkCount) (toInt reduceChunks) (integerBlock (toInt reduceChunks)).2 idx
    tidy).getD []

/-- No element is stored where one of another index is loaded. -/
def ColumnsApart (input output chunkCount reduceChunks : ℕ) : Prop :=
  ∀ idx < chunkCount, ∀ idx' tidy, tidy < (integerBlock (toInt reduceChunks)).2 →
    ∀ i ∈ columnChunks chunkCount reduceChunks idx' tidy,
      output + idx = input + chunkElement (toInt chunkCount) i idx' → idx = idx'

theorem reduceChunk_final (hpos : 0 < chunkCount) (hlt : chunkCount < 2 ^ 32)
    (hapart : ColumnsApart input output chunkCount reduceChunks)
    (h : ReduceChunk input output chunkCount reduceChunks memory final) :
    (∀ idx < chunkCount, final (output + idx) =
      ∑ tidy ∈ Finset.range (integerBlock (toInt reduceChunks)).2,
        ((columnChunks chunkCount reduceChunks idx tidy).map fun i =>
          memory (input + chunkElement (toInt chunkCount) i idx)).sum) ∧
      ∀ a, ¬ (output ≤ a ∧ a < output + chunkCount) → final a = memory a := by
  obtain ⟨hgridPos, hlimit, hcover, hgrid⟩ := integerGrid_spec reduceChunks hpos hlt
  have hx : 0 < (integerBlock (toInt reduceChunks)).1 :=
    (by norm_num : 0 < 32).trans_le (integerBlock_spec _).1
  cases h with
  | rejected hreject => omega
  | completed _ _ hend registers order horder =>
    have hfree := reduceChunkInteger_raceFree (w := w) (integerBlock_mem (toInt reduceChunks)) hlt
      hgrid hapart
    obtain ⟨hstored, hkept⟩ := Kernel.run_legal hfree horder ⟨memory, registers⟩
    refine ⟨fun idx hidx => ?_, fun a ha => hkept a fun thread hthread heq => ha ?_⟩
    · -- the thread of the element
      set x := (integerBlock (toInt reduceChunks)).1
      have hblockIdx : idx / x < integerGrid chunkCount reduceChunks :=
        (Nat.div_lt_iff_lt_mul hx).mpr (hidx.trans_le hcover)
      have hsplit : idx / x * x + idx % x = idx := Nat.div_add_mod' idx x
      have hthread := threadIdx_eq hgrid hblockIdx (Nat.mod_lt idx hx)
      rw [hsplit] at hthread
      have hvalue := hstored (idx / x, idx % x) ((mem_stores (integerBlock_mem _) hlt hgrid).mpr
        ⟨hblockIdx, Nat.mod_lt idx hx, by simpa only [hsplit] using hidx⟩)
      have htarget : output + threadIdx x (idx / x) (idx % x) = output + idx := by rw [hthread]
      rw [← htarget]
      refine hvalue.trans ((value_eq _ _ _).trans (Finset.sum_congr rfl fun tidy _ => ?_))
      simp only [threadSum, columnChunks, reduceChunkInteger, hthread, x]
    · obtain ⟨hblockIdx, htidx, hidx⟩ := (mem_stores (integerBlock_mem _) hlt hgrid).mp hthread
      have htarget : output + threadIdx _ thread.1 thread.2 = a := heq
      rw [threadIdx_eq hgrid hblockIdx htidx] at htarget
      omega

end

/-! ## Small chunks -/

section

variable {w input output chunkCount reduceChunks : ℕ} (hlt : chunkCount < 2 ^ 32)
  (hcounter : reduceChunks ≤ 2 ^ 31 - 32)

include hlt hcounter

theorem columnChunks_eq {idx tidy : ℕ} (hidx : idx < chunkCount)
    (htidy : tidy < (integerBlock (toInt reduceChunks)).2) :
    threadChunks (toInt chunkCount) (toInt reduceChunks) (integerBlock (toInt reduceChunks)).2 idx
        tidy = some ((progression tidy (integerBlock (toInt reduceChunks)).2 reduceChunks).map
      Nat.cast) := by
  obtain ⟨-, -, -, hy, hy32⟩ := integerBlock_spec (toInt reduceChunks)
  exact threadChunks_eq hlt hidx hy htidy (by omega)

theorem threadsEnd : ThreadsEnd (toInt chunkCount) (toInt reduceChunks)
    (integerGrid chunkCount reduceChunks) (integerBlock (toInt reduceChunks)).1
    (integerBlock (toInt reduceChunks)).2 := by
  intro thread hthread
  rcases lt_or_ge (threadIdx (integerBlock (toInt reduceChunks)).1 thread.1 thread.2.1)
    chunkCount with hidx | hidx
  · rw [columnChunks_eq hlt hcounter hidx (mem_gridThreads.mp hthread).2.2, Option.isSome_some]
  · rw [threadChunks_of_le hlt hidx, Option.isSome_some]

variable (hsize : chunkCount * reduceChunks ≤ 2 ^ 32)

include hsize

/-- What a thread loads is an element of its own column. -/
theorem chunkElement_of_mem {idx tidy : ℕ} {i : ℤ}
    (htidy : tidy < (integerBlock (toInt reduceChunks)).2)
    (hi : i ∈ columnChunks chunkCount reduceChunks idx tidy) :
    idx < chunkCount ∧ ∃ k < reduceChunks, i = k ∧
      chunkElement (toInt chunkCount) i idx = k * chunkCount + idx := by
  rcases lt_or_ge idx chunkCount with hidx | hidx
  · rw [columnChunks, columnChunks_eq hlt hcounter hidx htidy, Option.getD_some] at hi
    obtain ⟨k, hk, rfl⟩ := mem_map.mp hi
    have hkR := ((mem_progression (Nat.zero_lt_of_lt htidy)).mp hk).2.1
    have hin := div_add_lt hkR hidx
    rw [mul_comm reduceChunks] at hin
    refine ⟨hidx, k, hkR, rfl, ?_⟩
    rw [chunkElement_natCast, mul_comm chunkCount, Nat.mod_eq_of_lt (hin.trans_le hsize)]
  · rw [columnChunks, threadChunks_of_le hlt hidx, Option.getD_some] at hi
    exact absurd hi not_mem_nil

theorem columnsApart (hplace : output = input ∨ ∀ j < chunkCount,
      ∀ k < chunkCount * reduceChunks, output + j ≠ input + k) :
    ColumnsApart input output chunkCount reduceChunks := by
  intro idx hidx idx' tidy htidy i hi heq
  obtain ⟨hidx', k, hk, -, helement⟩ := chunkElement_of_mem hlt hcounter hsize htidy hi
  rw [helement] at heq
  rcases hplace with rfl | hdisjoint
  · -- only the first chunk is below the number of elements
    cases k with
    | zero => omega
    | succ k =>
      rw [Nat.succ_mul] at heq
      omega
  · refine absurd heq (hdisjoint idx hidx _ ?_)
    rw [mul_comm chunkCount]
    exact div_add_lt hk hidx'

theorem reducesExactly_of_small (hpos : 0 < chunkCount) :
    ReducesExactly w chunkCount reduceChunks := by
  intro input output memory hplace
  obtain ⟨hgrid, hlimit, -, -⟩ := integerGrid_spec reduceChunks hpos hlt
  refine ⟨⟨_, .completed hgrid hlimit (threadsEnd hlt hcounter) (fun _ => 0) _
    Kernel.legal_loads_first⟩, fun final hfinal => funext fun a => ?_⟩
  obtain ⟨hstored, hkept⟩ := reduceChunk_final hpos hlt
    (columnsApart hlt hcounter hsize hplace) hfinal
  by_cases ha : output ≤ a ∧ a < output + chunkCount
  · obtain ⟨idx, rfl⟩ := Nat.exists_eq_add_of_le ha.1
    have hidx : idx < chunkCount := by omega
    rw [hstored idx hidx, reducedMemory, if_pos ha, Nat.add_sub_cancel_left]
    refine Eq.trans (Finset.sum_congr rfl fun tidy htidy => ?_)
      (sum_progression (integerBlock_spec (toInt reduceChunks)).2.2.2.1 _)
    have htidy := Finset.mem_range.mp htidy
    have hchunks : columnChunks chunkCount reduceChunks idx tidy = _ :=
      congrArg (Option.getD · []) (columnChunks_eq hlt hcounter hidx htidy)
    have hmap : ∀ i ∈ columnChunks chunkCount reduceChunks idx tidy,
        memory (input + chunkElement (toInt chunkCount) i idx) =
          memory (input + (i.toNat * chunkCount + idx)) := by
      intro i hi
      obtain ⟨-, k, -, rfl, helement⟩ := chunkElement_of_mem hlt hcounter hsize htidy hi
      rw [helement, Int.toNat_natCast]
    rw [map_congr_left hmap, hchunks, Option.getD_some, map_map]
    rfl
  · rw [hkept a ha, reducedMemory, if_neg ha]

end

/-! ## Large chunks

An output that is far from the input, and a memory that is zero but for one element, show what the
kernel leaves out. -/

section

variable {w chunkCount reduceChunks : ℕ}

theorem apart_far {j k : ℕ} (hk : k < chunkCount * reduceChunks) :
    chunkCount * reduceChunks + 2 ^ 32 + j ≠ 0 + k := by omega

theorem sum_column_single (hpos : 0 < chunkCount) {row : ℕ} (hrow : row < reduceChunks) (idx : ℕ) :
    ∑ i ∈ Finset.range reduceChunks,
      (Pi.single (row * chunkCount + idx) 1 : ℕ → BitVec w) (i * chunkCount + idx) = 1 := by
  rw [Finset.sum_eq_single_of_mem row (Finset.mem_range.mpr hrow), Pi.single_eq_same]
  intro i _ hne
  refine Pi.single_eq_of_ne (fun heq => hne ?_) _
  exact Nat.eq_of_mul_eq_mul_right hpos (Nat.add_right_cancel heq)

variable (hw : 0 < w) (hexact : ReducesExactly w chunkCount reduceChunks)

include hw hexact

/-- The elements of chunks that have too many are left out. -/
theorem ReducesExactly.count_lt : chunkCount < 2 ^ 32 := by
  by_contra hlarge
  have hidx : chunkCount % 2 ^ 32 < chunkCount :=
    (Nat.mod_lt _ (by norm_num)).trans_le (not_lt.mp hlarge)
  set output := chunkCount * reduceChunks + 2 ^ 32
  set missed := output + chunkCount % 2 ^ 32
  obtain ⟨⟨final, hfinal⟩, hall⟩ := hexact 0 output (Pi.single missed 1)
    (.inr fun _ _ _ => apart_far)
  have hkept : final missed = 1 := by
    cases hfinal with
    | rejected => exact Pi.single_eq_same _ _
    | completed _ _ _ registers order horder =>
      refine (Kernel.run_memory_of_not_mem fun thread hthread heq => ?_).trans
        (Pi.single_eq_same _ _)
      have hbound := (mem_filter.mp (horder.mem_stores.mp hthread)).2
      rw [toUnsigned_toInt, decide_eq_true_eq] at hbound
      exact hbound.ne (add_left_cancel heq)
  have hsum : final missed = 0 := by
    rw [hall final hfinal, reducedMemory, if_pos (by omega), Nat.add_sub_cancel_left]
    refine Finset.sum_eq_zero fun i hi => Pi.single_eq_of_ne ?_ _
    have hin := div_add_lt (Finset.mem_range.mp hi) hidx
    rw [mul_comm reduceChunks] at hin
    omega
  rw [hkept] at hsum
  exact absurd hsum (by simp [hw.ne'])

variable (hpos : 0 < chunkCount)

include hpos

theorem ReducesExactly.sums (memory : ℕ → BitVec w) {idx : ℕ} (hidx : idx < chunkCount) :
    ∑ tidy ∈ Finset.range (integerBlock (toInt reduceChunks)).2,
        ((columnChunks chunkCount reduceChunks idx tidy).map fun i =>
          memory (chunkElement (toInt chunkCount) i idx)).sum =
      ∑ i ∈ Finset.range reduceChunks, memory (i * chunkCount + idx) := by
  obtain ⟨⟨final, hfinal⟩, hall⟩ := hexact 0 (chunkCount * reduceChunks + 2 ^ 32) memory
    (.inr fun _ _ _ => apart_far)
  have hapart : ColumnsApart 0 (chunkCount * reduceChunks + 2 ^ 32) chunkCount reduceChunks := by
    intro idx _ idx' tidy _ i _ heq
    have hbound := toUnsigned_lt (toInt chunkCount * i + idx')
    rw [zero_add, chunkElement] at heq
    omega
  have hstored := (reduceChunk_final hpos (hexact.count_lt hw) hapart hfinal).1 idx hidx
  simp only [Nat.zero_add] at hstored
  rw [← hstored, hall final hfinal, reducedMemory, if_pos (by omega), Nat.add_sub_cancel_left]
  simp only [Nat.zero_add]

/-- If chunks are reduced exactly, every element is loaded by some thread of its column. -/
theorem ReducesExactly.loaded {row idx : ℕ} (hrow : row < reduceChunks) (hidx : idx < chunkCount) :
    ∃ tidy, ∃ i ∈ columnChunks chunkCount reduceChunks idx tidy,
      chunkElement (toInt chunkCount) i idx = row * chunkCount + idx := by
  by_contra hnone
  push Not at hnone
  have hsums := hexact.sums hw hpos (Pi.single (row * chunkCount + idx) 1) hidx
  rw [sum_column_single hpos hrow, Finset.sum_eq_zero fun tidy _ => ?_] at hsums
  · exact absurd hsums (by simp [hw.ne'])
  · refine sum_eq_zero fun x hx => ?_
    obtain ⟨i, hi, rfl⟩ := mem_map.mp hx
    exact Pi.single_eq_of_ne (hnone tidy i hi) _

/-- Elements after the first `2 ^ 32` are not loaded. -/
theorem ReducesExactly.mul_le : chunkCount * reduceChunks ≤ 2 ^ 32 := by
  by_contra hlarge
  have hrow : 2 ^ 32 / chunkCount < reduceChunks :=
    (Nat.div_lt_iff_lt_mul hpos).mpr (by rw [mul_comm]; exact not_le.mp hlarge)
  obtain ⟨tidy, i, -, helement⟩ := hexact.loaded hw hpos hrow (Nat.mod_lt (2 ^ 32) hpos)
  rw [Nat.div_add_mod'] at helement
  exact (toUnsigned_lt _).ne helement

/-- A number of chunks that is negative as an `int` is taken for none. -/
theorem ReducesExactly.lt_of_le : reduceChunks < 2 ^ 31 := by
  by_contra hlarge
  have hsize := hexact.mul_le hw hpos
  have hle : reduceChunks ≤ chunkCount * reduceChunks := Nat.le_mul_of_pos_left _ hpos
  have hneg := toInt_nonpos (not_lt.mp hlarge) (hle.trans hsize)
  have hsome : 0 < reduceChunks := (by norm_num : 0 < 2 ^ 31).trans_le (not_lt.mp hlarge)
  obtain ⟨tidy, i, hi, -⟩ := hexact.loaded hw hpos hsome hpos
  rw [columnChunks, threadChunks_of_nonpos hneg, Option.getD_some] at hi
  exact not_mem_nil hi

/-- The counter of a thread that would have to go on to `2 ^ 31` wraps, and its loop does not
end. -/
theorem ReducesExactly.le_sub : reduceChunks ≤ 2 ^ 31 - 32 := by
  by_contra hlarge
  have hlt := hexact.count_lt hw
  have hint := toInt_of_lt (hexact.lt_of_le hw hpos)
  have hblock : integerBlock (toInt reduceChunks) = (32, 32) := by
    rw [integerBlock, if_neg (by omega), if_neg (by omega), if_neg (by omega), if_neg (by omega)]
  obtain ⟨hgrid, hlimit, -, -⟩ := integerGrid_spec reduceChunks hpos hlt
  obtain ⟨⟨final, hfinal⟩, -⟩ := hexact 0 (chunkCount * reduceChunks + 2 ^ 32) (fun _ => 0)
    (.inr fun _ _ _ => apart_far)
  cases hfinal with
  | rejected hreject => omega
  | completed _ _ hend =>
    have hthread : (0, 0, 0) ∈ gridThreads (integerGrid chunkCount reduceChunks)
        (integerBlock (toInt reduceChunks)).1 (integerBlock (toInt reduceChunks)).2 := by
      rw [mem_gridThreads, hblock]
      exact ⟨hgrid, by norm_num, by norm_num⟩
    have hends := hend (0, 0, 0) hthread
    rw [hblock, threadChunks_eq_none hlt ?_ (by omega)] at hends
    · cases hends
    · rwa [threadIdx, zero_mul]

end

/-! ## Exactness -/

/-- Integer chunks are reduced exactly if and only if they are small. -/
theorem reduceChunk_exact_iff {datatype : DataType} {w : ℕ}
    (hwidth : integerWidth datatype = some w) (chunkCount reduceChunks : ℕ) :
    ReducesExactly w chunkCount reduceChunks ↔ SmallChunks chunkCount reduceChunks := by
  have hw : 0 < w := by
    cases datatype <;> cases hwidth <;> norm_num
  rcases eq_zero_or_pos chunkCount with rfl | hpos
  · refine iff_of_true (fun input output memory _ => ?_) (.inl rfl)
    have hgrid : integerGrid 0 reduceChunks = 0 := by
      obtain ⟨hx, hx512, -⟩ := integerBlock_spec (toInt reduceChunks)
      rw [integerGrid, divUp, sizeAdd_eq (by norm_num [sizeMax]; omega),
        Nat.div_eq_of_lt (by omega), Nat.zero_mod]
    refine ⟨⟨_, .rejected (.inl hgrid)⟩, fun final hfinal => funext fun a => ?_⟩
    cases hfinal with
    | rejected => rw [reducedMemory, if_neg (by omega)]
    | completed hpos => omega
  constructor
  · intro hexact
    exact .inr ⟨hexact.count_lt hw, hexact.mul_le hw hpos, hexact.le_sub hw hpos⟩
  · rintro (hzero | ⟨hlt, hsize, hcounter⟩)
    · omega
    · exact reducesExactly_of_small hlt hcounter hsize hpos

/-- Eight chunks of a million elements. -/
theorem reduceChunk_exact_million :
    integerWidth .int32 = some 32 ∧ ReducesExactly 32 1000000 8 :=
  ⟨rfl, (@reduceChunk_exact_iff .int32 32 rfl 1000000 8).mpr
    (.inr ⟨by norm_num, by norm_num, by norm_num⟩)⟩

/-- Of two chunks of `2 ^ 32` bytes, nothing is reduced: as an `int`, their size is zero. -/
theorem reduceChunk_not_exact : integerWidth .int8 = some 8 ∧ ¬ ReducesExactly 8 (2 ^ 32) 2 :=
  ⟨rfl, fun hexact => lt_irrefl _ (hexact.count_lt (by norm_num))⟩

end Coccl
