import Coccl.Foundations.Blocks
import Coccl.Foundations.Tiling
import Coccl.Plugins.Taco

/-!
# When the layout of TACO is safe

Every byte of data is written once, in a word if its word is whole and else alone. But the scales
begin right behind the data, so that they are aligned only if the elements of a chunk are a multiple
of four (`LayoutSafe`).
-/

namespace Coccl

open List

namespace TacoCompressor

/-! ## Launches -/

namespace Launch

/-- The groups of a chunk. -/
def groups (launch : Launch) : ℕ :=
  (launch.elementsPerChunk + (launch.groupSize - 1)) / launch.groupSize

/-- What both calls launch their kernel with, for buffers in the address space. -/
structure WellFormed (launch : Launch) (chunks : ℕ) : Prop where
  groupSize : validGroupSize launch.groupSize = true
  elements_pos : 0 < launch.elementsPerChunk
  elements_le : launch.elementsPerChunk ≤ intMax
  chunks_pos : 0 < chunks
  scaleBytes : launch.scaleBytes = launch.groups * 4
  encodedStride : launch.encodedStride = launch.elementsPerChunk + launch.groups * 8
  rawStride : launch.rawStride = launch.elementsPerChunk * dataTypeSize launch.datatype
  gridX : launch.gridX = launch.groups
  gridY : launch.gridY = chunks
  encoded_le : launch.encoded + chunks * launch.encodedStride ≤ sizeMax + 1
  raw_le : launch.raw + chunks * launch.rawStride ≤ sizeMax + 1

variable {launch : Launch} {chunks : ℕ} (h : launch.WellFormed chunks)

/-- What the group sizes have in common. -/
theorem groupSize_spec {value : ℕ} (hvalid : validGroupSize value = true) :
    0 < value ∧ 4 ∣ value ∧ value ∣ 2 ^ 31 := by
  simp only [validGroupSize, decide_eq_true_eq] at hvalid
  rcases hvalid with rfl | rfl | rfl | rfl | rfl <;> norm_num

include h in
/-- The groups cover a chunk, and their threads can be counted by an `int`. -/
theorem groups_spec : 0 < launch.groups ∧
    launch.elementsPerChunk ≤ launch.groups * launch.groupSize ∧
    launch.groups * launch.groupSize ≤ 2 ^ 31 ∧
    launch.groups * launch.groupSize < launch.elementsPerChunk + launch.groupSize := by
  obtain ⟨hpos, -, most, hmost⟩ := groupSize_spec h.groupSize
  have helements := h.elements_pos
  have hle := h.elements_le
  have hlast : launch.elementsPerChunk + (launch.groupSize - 1) <
      launch.groups * launch.groupSize + launch.groupSize := Nat.lt_div_mul_add hpos
  have hmul : launch.groups * launch.groupSize ≤ launch.elementsPerChunk + (launch.groupSize - 1) :=
    Nat.div_mul_le_self _ _
  have hgroups : launch.groups ≤ most := by
    refine Nat.lt_succ_iff.mp ((Nat.div_lt_iff_lt_mul hpos).mpr ?_)
    rw [Nat.succ_mul, mul_comm, ← hmost]
    unfold intMax at hle
    omega
  refine ⟨Nat.div_pos (by omega) hpos, by omega, ?_, by omega⟩
  rw [hmost, mul_comm]
  exact Nat.mul_le_mul_left _ hgroups

/-! ## Threads -/

/-- The element of a thread. -/
def element (launch : Launch) (thread : Thread) : ℕ := thread.1 * launch.groupSize + thread.2.2

include h in
theorem mem_threads {thread : Thread} : thread ∈ launch.threads ↔
    thread.1 < launch.groups ∧ thread.2.1 < chunks ∧ thread.2.2 < launch.groupSize := by
  obtain ⟨group, chunk, tid⟩ := thread
  simp only [threads, mem_product, mem_range, h.gridX, h.gridY]

include h in
theorem element_mod (thread : Thread) : launch.element thread % 4 = thread.2.2 % 4 := by
  obtain ⟨quarter, hquarter⟩ := (groupSize_spec h.groupSize).2.1
  rw [element, hquarter, ← mul_assoc, Nat.mul_right_comm, mul_comm _ 4]
  exact Nat.mul_add_mod _ _ _

theorem pointer_eq {base : ℕ} {offset : ℤ} (hnonneg : 0 ≤ offset)
    (hle : base + offset ≤ sizeMax) : pointer base offset = base + offset.toNat := by
  rw [pointer, Int.emod_eq_of_lt (by omega) (by omega)]
  omega

include h in
/-- A chunk is in the encoded buffer. -/
theorem chunk_le {chunk : ℕ} (hchunk : chunk < chunks) :
    launch.encoded + chunk * launch.encodedStride + launch.encodedStride ≤ sizeMax + 1 := by
  have hle := @Blocks.mul_add_le _ launch.encodedStride _ hchunk
  have hencoded := h.encoded_le
  omega

/-- The bytes that a thread writes. -/
def dataStores (launch : Launch) (thread : Thread) : List ℕ :=
  ((launch.wordStores thread).flatMap fun a => (List.range 4).map (a + ·)) ++
    launch.byteStores thread

theorem dataStores_nodup (launch : Launch) (thread : Thread) :
    (launch.dataStores thread).Nodup := by
  unfold dataStores wordStores byteStores
  split_ifs with hword hbyte
  · rw [append_nil, flatMap_singleton]
    exact nodup_range.map fun b b' heq => add_left_cancel heq
  · exact nodup_singleton _
  · exact nodup_nil

section

variable {thread : Thread} (hthread : thread ∈ launch.threads)

include h hthread

theorem element_lt : launch.element thread < launch.groups * launch.groupSize :=
  Blocks.div_add_lt ((mem_threads h).mp hthread).1 ((mem_threads h).mp hthread).2.2

theorem idx_eq : launch.idx thread = launch.element thread :=
  toInt_of_lt ((element_lt h hthread).trans_le (groups_spec h).2.2.1)

theorem idx_div_four : launch.idx thread / 4 * 4 = (launch.element thread / 4 * 4 : ℕ) := by
  rw [idx_eq h hthread]
  omega

theorem wordStart_eq : launch.wordStart thread = (launch.element thread / 4 * 4 : ℕ) := by
  have hlt := (element_lt h hthread).trans_le (groups_spec h).2.2.1
  have hmod := element_mod h thread
  have hdiv := Nat.div_add_mod' (launch.element thread) 4
  have hsub : (launch.element thread : ℤ) - (thread.2.2 : ℕ) % 4 =
      (launch.element thread / 4 * 4 : ℕ) := by omega
  rw [wordStart, idx_eq h hthread, hsub]
  exact toInt_of_lt (by omega)

theorem fullWord_iff : launch.fullWord thread = true ↔
    launch.element thread / 4 * 4 + 3 < launch.elementsPerChunk := by
  have hlt := (element_lt h hthread).trans_le (groups_spec h).2.2.1
  rw [fullWord, wordStart_eq h hthread, decide_eq_true_eq, bmod_of_lt (by omega) (by omega)]
  omega

/-! ## Addresses -/

theorem encodedBase_eq :
    launch.encodedBase thread = launch.encoded + thread.2.1 * launch.encodedStride := by
  have hle := chunk_le h ((mem_threads h).mp hthread).2.1
  have hpos := h.elements_pos
  have hstride := h.encodedStride
  rw [encodedBase, sizeMul_eq (by omega), sizeAdd_eq (by omega)]

/-- A byte of data, or the end of the data. -/
theorem dataAddress_eq {i : ℕ} (hi : i ≤ launch.elementsPerChunk) :
    pointer (launch.encodedBase thread) i =
      launch.encoded + thread.2.1 * launch.encodedStride + i := by
  have hle := chunk_le h ((mem_threads h).mp hthread).2.1
  have hstride := h.encodedStride
  have hgroups := (groups_spec h).1
  rw [encodedBase_eq h hthread, pointer_eq (by omega) (by omega), Int.toNat_natCast]

theorem quantScale_eq : launch.quantScale thread = launch.encoded +
    thread.2.1 * launch.encodedStride + (launch.elementsPerChunk + thread.1 * 4) := by
  obtain ⟨hgroup, hchunk, -⟩ := (mem_threads h).mp hthread
  have hle := chunk_le h hchunk
  have hstride := h.encodedStride
  rw [quantScale, dataAddress_eq h hthread le_rfl, pointer_eq (by omega) (by omega)]
  omega

theorem adaScale_eq : launch.adaScale thread = launch.encoded + thread.2.1 * launch.encodedStride +
      (launch.elementsPerChunk + launch.scaleBytes + thread.1 * 4) := by
  obtain ⟨hgroup, hchunk, -⟩ := (mem_threads h).mp hthread
  have hle := chunk_le h hchunk
  have hstride := h.encodedStride
  have hscale := h.scaleBytes
  rw [adaScale, dataAddress_eq h hthread le_rfl, @pointer_eq _ launch.scaleBytes (by omega)
    (by omega), pointer_eq (by omega) (by omega)]
  omega

/-! ## Bytes of data -/

/-- The element of the thread that writes a byte: the first of its word, if the word is whole. -/
def writer (elements i : ℕ) : ℕ := if i / 4 * 4 + 3 < elements then i / 4 * 4 else i

theorem mem_dataStores {a : ℕ} : a ∈ launch.dataStores thread ↔ ∃ i < launch.elementsPerChunk,
      a = launch.encoded + thread.2.1 * launch.encodedStride + i ∧
        launch.element thread = writer launch.elementsPerChunk i := by
  have hmod := element_mod h thread
  simp only [dataStores, wordStores, byteStores, mem_append, idx_div_four h hthread,
    fullWord_iff h hthread, ← Bool.not_eq_true]
  simp only [idx_eq h hthread, Nat.cast_lt]
  by_cases hword : thread.2.2 % 4 = 0 ∧
      launch.element thread / 4 * 4 + 3 < launch.elementsPerChunk
  · -- the first thread of a whole word
    rw [if_pos hword, if_pos hword, dataAddress_eq h hthread (by omega)]
    simp only [flatMap_cons, flatMap_nil, append_nil, mem_map, mem_range, not_mem_nil, or_false]
    constructor
    · rintro ⟨b, hb, rfl⟩
      refine ⟨launch.element thread + b, by omega, by omega, ?_⟩
      rw [writer, if_pos (by omega)]
      omega
    · rintro ⟨i, hi, rfl, hwriter⟩
      refine ⟨i - launch.element thread, ?_, ?_⟩ <;> unfold writer at hwriter <;>
        split_ifs at hwriter <;> omega
  · rw [if_neg hword, if_neg hword]
    by_cases hbyte : launch.element thread < launch.elementsPerChunk ∧
        ¬ launch.element thread / 4 * 4 + 3 < launch.elementsPerChunk
    · -- a thread of a word that is cut off
      rw [if_pos hbyte, dataAddress_eq h hthread hbyte.1.le]
      simp only [flatMap_nil, not_mem_nil, false_or, mem_singleton]
      constructor
      · rintro rfl
        exact ⟨_, hbyte.1, rfl, by rw [writer, if_neg hbyte.2]⟩
      · rintro ⟨i, hi, rfl, hwriter⟩
        unfold writer at hwriter
        split_ifs at hwriter <;> omega
    · -- a thread that writes nothing
      rw [if_neg hbyte]
      simp only [flatMap_nil, not_mem_nil, false_or, false_iff, not_exists, not_and]
      intro i hi _ hwriter
      unfold writer at hwriter
      split_ifs at hwriter <;> omega

theorem mem_dataLoads {a : ℕ} : a ∈ launch.dataLoads thread ↔ ∃ i < launch.elementsPerChunk,
      a = launch.encoded + thread.2.1 * launch.encodedStride + i ∧ launch.element thread = i := by
  simp only [dataLoads, idx_eq h hthread, Nat.cast_lt]
  by_cases helement : launch.element thread < launch.elementsPerChunk
  · rw [if_pos helement, dataAddress_eq h hthread helement.le, mem_singleton]
    constructor
    · rintro rfl
      exact ⟨_, helement, rfl, rfl⟩
    · rintro ⟨i, -, rfl, hi⟩
      rw [hi]
  · rw [if_neg helement]
    simp only [not_mem_nil, false_iff, not_exists, not_and]
    intro i hi _ heq
    omega

end

/-- The addresses of the data. -/
def dataAddresses (launch : Launch) : List ℕ :=
  (List.range launch.gridY ×ˢ List.range launch.elementsPerChunk).map fun byte =>
    launch.encoded + byte.1 * launch.encodedStride + byte.2

include h in
theorem dataAddress_inj {chunk i chunk' i' : ℕ} (hi : i < launch.elementsPerChunk)
    (hi' : i' < launch.elementsPerChunk)
    (heq : launch.encoded + chunk * launch.encodedStride + i =
      launch.encoded + chunk' * launch.encodedStride + i') : chunk = chunk' ∧ i = i' := by
  have hstride := h.encodedStride
  exact Blocks.mul_add_inj (show i < launch.encodedStride by omega) (by omega) (by omega)

include h in
/-- If every byte has one thread, the threads together touch every byte once. -/
theorem flatMap_perm_dataAddresses {accesses : Thread → List ℕ} {owner : ℕ → ℕ}
    (howner : ∀ i < launch.elementsPerChunk, owner i < launch.elementsPerChunk)
    (hnodup : ∀ thread, (accesses thread).Nodup)
    (hmem : ∀ thread ∈ launch.threads, ∀ a, a ∈ accesses thread ↔ ∃ i < launch.elementsPerChunk,
        a = launch.encoded + thread.2.1 * launch.encodedStride + i ∧
          launch.element thread = owner i) :
    (launch.threads.flatMap accesses).Perm launch.dataAddresses := by
  obtain ⟨hgroupSize, -⟩ := groupSize_spec h.groupSize
  refine (perm_ext_iff_of_nodup (nodup_flatMap.mpr ⟨fun thread _ => hnodup thread,
    List.Pairwise.imp_of_mem ?_ (nodup_range.product
      (nodup_range.product nodup_range))⟩) ?_).mpr fun a => ?_
  · intro thread thread' hthread hthread' hne
    refine disjoint_left.mpr fun a ha ha' => hne ?_
    obtain ⟨i, hi, rfl, helement⟩ := (hmem thread hthread a).mp ha
    obtain ⟨i', hi', heq, helement'⟩ := (hmem thread' hthread' _).mp ha'
    obtain ⟨hchunk, rfl⟩ := dataAddress_inj h hi hi' heq
    obtain ⟨-, -, htid⟩ := (mem_threads h).mp hthread
    obtain ⟨-, -, htid'⟩ := (mem_threads h).mp hthread'
    obtain ⟨hgroup, hlane⟩ := Blocks.mul_add_inj htid htid' (helement.trans helement'.symm)
    exact Prod.ext hgroup (Prod.ext hchunk hlane)
  · refine List.Nodup.map_on ?_ (nodup_range.product nodup_range)
    rintro ⟨chunk, i⟩ hbyte ⟨chunk', i'⟩ hbyte' heq
    obtain ⟨-, hi⟩ := mem_product.mp hbyte
    obtain ⟨-, hi'⟩ := mem_product.mp hbyte'
    obtain ⟨rfl, rfl⟩ := dataAddress_inj h (mem_range.mp hi) (mem_range.mp hi') heq
    rfl
  · rw [mem_flatMap, dataAddresses, mem_map]
    constructor
    · rintro ⟨thread, hthread, ha⟩
      obtain ⟨i, hi, rfl, -⟩ := (hmem thread hthread a).mp ha
      exact ⟨(thread.2.1, i), mem_product.mpr ⟨mem_range.mpr
        (h.gridY ▸ ((mem_threads h).mp hthread).2.1), mem_range.mpr hi⟩, rfl⟩
    · rintro ⟨⟨chunk, i⟩, hbyte, rfl⟩
      obtain ⟨hchunk, hi⟩ := mem_product.mp hbyte
      have hi := mem_range.mp hi
      have hcover := (howner i hi).trans_le (groups_spec h).2.1
      have hthread : (owner i / launch.groupSize, chunk, owner i % launch.groupSize) ∈
          launch.threads := (mem_threads h).mpr ⟨Nat.div_lt_of_lt_mul (by rwa [mul_comm]),
        h.gridY ▸ mem_range.mp hchunk, Nat.mod_lt _ hgroupSize⟩
      exact ⟨_, hthread, (hmem _ hthread _).mpr ⟨i, hi, rfl, Nat.div_add_mod' _ _⟩⟩

end Launch

end TacoCompressor

end Coccl
