import Coccl.Device.Layout
import Mathlib.Data.Nat.Bitwise

/-!
# Packing and unpacking copy rows

The progressions of all threads run through every element of every row once. Nothing wraps, because
two slices fit into the address space, and since no row is both read and written, the copies can be
made in any order.
-/

namespace Coccl

open Kernels Loops List

/-! ## Loops -/

theorem sizeLoop_eq {bound step start : ℕ} (hstep : 0 < step) (hbound : bound + step ≤ sizeMax + 1)
    (hstart : start < bound + step) :
    sizeLoop bound step start = some (progression start step bound) := by
  refine visits_progression_nat hstep (fun x _ => rfl) (fun x hx => sizeAdd_eq ?_) hstart ?_ <;>
    omega

/-- Where the unrolled loop leaves the rest of a row to the other. -/
theorem leave_lt {unroll stride elementsPerChunk start : ℕ} (hunroll : 0 < unroll)
    (hstride : 0 < stride) (hstart : start < stride) :
    start + rounds start (unroll * stride) (elementsPerChunk - (unroll - 1) * stride) *
      (unroll * stride) < elementsPerChunk + stride := by
  have hpos : 0 < unroll * stride := mul_pos hunroll hstride
  have hsplit : unroll * stride = (unroll - 1) * stride + stride := by
    rw [← Nat.succ_mul, Nat.succ_eq_add_one, Nat.sub_add_cancel hunroll]
  rcases eq_zero_or_pos (rounds start (unroll * stride)
    (elementsPerChunk - (unroll - 1) * stride)) with hzero | hsome
  · rw [hzero]
    omega
  · have hentered := (lt_rounds_iff hpos).mp hsome
    have hlt := @start_add_rounds_lt start _ (elementsPerChunk - (unroll - 1) * stride) hpos
      (by omega)
    omega

/-- The unrolled loop with its remainder copies what a plain loop would. -/
theorem layoutRowCopier_eq {unroll stride elementsPerChunk start : ℕ} (hunroll : 0 < unroll)
    (hstride : 0 < stride) (hbound : elementsPerChunk + unroll * stride ≤ sizeMax)
    (hstart : start < stride) :
    layoutRowCopier unroll stride elementsPerChunk start =
      some (progression start stride elementsPerChunk) := by
  have hsplit : unroll * stride = (unroll - 1) * stride + stride := by
    rw [← Nat.succ_mul, Nat.succ_eq_add_one, Nat.sub_add_cancel hunroll]
  have hmul : sizeMul unroll stride = unroll * stride := sizeMul_eq (by omega)
  have hoffset : sizeMul (unroll - 1) stride = (unroll - 1) * stride := sizeMul_eq (by omega)
  have hpos : 0 < unroll * stride := mul_pos hunroll hstride
  -- the unrolled loop goes on as long as its last step is in the row
  have htest : ∀ x < elementsPerChunk - (unroll - 1) * stride + unroll * stride,
      decide (x < elementsPerChunk ∧ sizeMul (unroll - 1) stride < elementsPerChunk - x) =
        decide (x < elementsPerChunk - (unroll - 1) * stride) := by
    intro x _
    rw [hoffset, decide_eq_decide]
    omega
  have hnext : ∀ x < elementsPerChunk - (unroll - 1) * stride,
      sizeAdd x (sizeMul unroll stride) = x + unroll * stride := by
    intro x hx
    rw [hmul]
    exact sizeAdd_eq (by omega)
  unfold layoutRowCopier
  split_ifs with hone
  · exact sizeLoop_eq hstride (by omega) (by omega)
  · dsimp only
    rw [visits_progression_nat hpos htest hnext (by omega) (by omega),
      leaves_progression_nat hpos htest hnext (by omega) (by omega)]
    simp only [Option.bind_eq_bind, Option.bind_some,
      sizeLoop_eq hstride (show elementsPerChunk + stride ≤ sizeMax + 1 by omega)
        (leave_lt hunroll hstride hstart)]
    refine congrArg some (Eq.trans ?_ (progression_unrolled hstride hunroll))
    refine congrArg₂ _ (flatMap_congr fun x hx => map_congr_left fun i hi => ?_) rfl
    have hx := ((mem_progression hpos).mp hx).2.1
    have hi : i * stride ≤ (unroll - 1) * stride :=
      Nat.mul_le_mul_right _ (Nat.le_sub_one_of_lt (mem_range.mp hi))
    rw [sizeMul_eq (by omega), sizeAdd_eq (by omega)]

/-! ## Grids -/

section

variable {copyBytes sliceBytes chunkCount : ℕ}

theorem layoutGrid_spec (hchunks : 0 < chunkCount) :
    0 < (layoutGrid copyBytes sliceBytes chunkCount).1 ∧
      (layoutGrid copyBytes sliceBytes chunkCount).1 ≤ maxLayoutBlocks ∧
      0 < (layoutGrid copyBytes sliceBytes chunkCount).2 ∧
      (layoutGrid copyBytes sliceBytes chunkCount).2 ≤ chunkCount ∧
      (layoutGrid copyBytes sliceBytes chunkCount).2 ≤ maxGridY := by
  have hmax : 1 ≤ maxLayoutBlocks := by norm_num [maxLayoutBlocks]
  have hgridY : 1 ≤ maxGridY := by norm_num [maxGridY]
  simp only [layoutGrid]
  have hrow := Nat.div_le_self maxLayoutBlocks
    (if chunkCount < maxGridY then chunkCount else maxGridY)
  generalize maxLayoutBlocks / (if chunkCount < maxGridY then chunkCount else maxGridY) = perRow
    at hrow ⊢
  generalize sizeAdd (sliceBytes / copyBytes) (layoutThreads - 1) / layoutThreads = needed
  generalize sizeAdd sliceBytes (targetBytesPerBlock - 1) / targetBytesPerBlock = target
  refine ⟨?_, ?_, ?_, ?_, ?_⟩ <;> split_ifs <;> omega

theorem unroll_bounds (hbytes : 0 < copyBytes) (hwide : copyBytes ≤ 16) :
    8 ≤ targetBytesPerBlock / (layoutThreads * copyBytes) ∧
      targetBytesPerBlock / (layoutThreads * copyBytes) ≤ 128 := by
  unfold targetBytesPerBlock layoutThreads
  constructor
  · rw [Nat.le_div_iff_mul_le (by omega)]
    omega
  · refine Nat.div_le_of_le_mul ?_
    omega

theorem copyLayoutRow_eq (hbytes : 0 < copyBytes) (hwide : copyBytes ≤ 16) {elementsPerChunk : ℕ}
    (helements : elementsPerChunk ≤ 2 ^ 63) {gridDimX blockIdxX thread : ℕ}
    (hx : gridDimX ≤ maxLayoutBlocks) (hblock : blockIdxX < gridDimX)
    (hthread : thread < layoutThreads) :
    copyLayoutRow copyBytes gridDimX elementsPerChunk blockIdxX thread =
      some (progression (blockIdxX * layoutThreads + thread) (gridDimX * layoutThreads)
        elementsPerChunk) := by
  obtain ⟨hunroll, hunroll'⟩ := unroll_bounds hbytes hwide
  have hstart := Blocks.div_add_lt hblock hthread
  have hstride : gridDimX * layoutThreads ≤ 2 ^ 23 :=
    (Nat.mul_le_mul_right layoutThreads hx).trans (by norm_num [maxLayoutBlocks, layoutThreads])
  have hoffset := mul_le_mul hunroll' hstride
  have hsizeMax : sizeMax = 2 ^ 64 - 1 := rfl
  rw [copyLayoutRow, sizeMul_eq (by omega), sizeMul_eq (by omega), sizeAdd_eq (by omega)]
  exact layoutRowCopier_eq (by omega) (by omega) (by omega) hstart

theorem threadCopies_eq (hbytes : 0 < copyBytes) (hwide : copyBytes ≤ 16)
    (hslice : sliceBytes ≤ 2 ^ 63) (hcount : chunkCount ≤ 2 ^ 63) {gridDimX gridDimY : ℕ}
    (hx : gridDimX ≤ maxLayoutBlocks) (hy : gridDimY ≤ maxGridY) {thread : ℕ × ℕ × ℕ}
    (hthread : thread ∈ List.range gridDimX ×ˢ List.range gridDimY ×ˢ List.range layoutThreads) :
    threadCopies copyBytes sliceBytes chunkCount gridDimX gridDimY thread =
      some (progression thread.2.1 gridDimY chunkCount ×ˢ
        progression (thread.1 * layoutThreads + thread.2.2) (gridDimX * layoutThreads)
          (sliceBytes / copyBytes)) := by
  obtain ⟨blockIdxX, blockIdxY, tid⟩ := thread
  simp only [mem_product, mem_range] at hthread
  obtain ⟨hblockX, hblockY, htid⟩ := hthread
  have hsizeMax : sizeMax = 2 ^ 64 - 1 := rfl
  have hmaxY : maxGridY = 65535 := rfl
  have hchunks := @sizeLoop_eq chunkCount gridDimY blockIdxY (by omega) (by omega) (by omega)
  have hrow := copyLayoutRow_eq hbytes hwide ((Nat.div_le_self sliceBytes copyBytes).trans hslice)
    hx hblockX htid
  simp only [threadCopies, hchunks, hrow, Option.bind_eq_bind, Option.bind_some, Option.map_some]
  rw [← Option.pure_def, mapM_pure]
  rfl

/-- **Every element of every row is copied once.** -/
theorem layoutCopies_perm (hbytes : 0 < copyBytes) (hwide : copyBytes ≤ 16)
    (hslice : sliceBytes ≤ 2 ^ 63) (hchunks : 0 < chunkCount) (hcount : chunkCount ≤ 2 ^ 63) :
    ∃ copies, layoutCopies copyBytes sliceBytes chunkCount = some copies ∧
      copies.Perm (List.range chunkCount ×ˢ List.range (sliceBytes / copyBytes)) := by
  obtain ⟨hx, hmaxX, hy, -, hmaxY⟩ := @layoutGrid_spec copyBytes sliceBytes chunkCount hchunks
  set grid := layoutGrid copyBytes sliceBytes chunkCount with hgrid
  set threads := List.range grid.1 ×ˢ List.range grid.2 ×ˢ List.range layoutThreads with hthreads
  have hcopies : threads.mapM (threadCopies copyBytes sliceBytes chunkCount grid.1 grid.2) =
      some (threads.map fun thread => progression thread.2.1 grid.2 chunkCount ×ˢ
        progression (thread.1 * layoutThreads + thread.2.2) (grid.1 * layoutThreads)
          (sliceBytes / copyBytes)) := by
    refine Checked.mapM_eq_some_of_map ?_
    rw [map_map]
    exact map_congr_left fun thread hthread =>
      threadCopies_eq hbytes hwide hslice hcount hmaxX hmaxY hthread
  have hmem : ∀ {blockIdxX blockIdxY thread : ℕ}, (blockIdxX, blockIdxY, thread) ∈ threads ↔
      blockIdxX < grid.1 ∧ blockIdxY < grid.2 ∧ thread < layoutThreads := by
    intro blockIdxX blockIdxY thread
    simp only [hthreads, mem_product, mem_range]
  have hperm : (threads.flatMap fun thread => progression thread.2.1 grid.2 chunkCount ×ˢ
      progression (thread.1 * layoutThreads + thread.2.2) (grid.1 * layoutThreads)
        (sliceBytes / copyBytes)).Perm
      (List.range chunkCount ×ˢ List.range (sliceBytes / copyBytes)) := by
    refine flatMap_grid_perm (mul_pos hx (by norm_num [layoutThreads])) hy
      (nodup_range.product (nodup_range.product nodup_range)) ?_ ?_ ?_ _ _
    · rintro ⟨blockIdxX, blockIdxY, thread⟩ hthread
      obtain ⟨hblockX, hblockY, hthread⟩ := hmem.mp hthread
      exact ⟨Blocks.div_add_lt hblockX hthread, hblockY⟩
    · rintro ⟨blockIdxX, blockIdxY, thread⟩ hthread ⟨blockIdxX', blockIdxY', thread'⟩ hthread'
        hcolumn hrow
      obtain ⟨-, -, hthread⟩ := hmem.mp hthread
      obtain ⟨-, -, hthread'⟩ := hmem.mp hthread'
      obtain ⟨hblock, hlane⟩ := Blocks.mul_add_inj hthread hthread' hcolumn
      exact Prod.ext hblock (Prod.ext hrow hlane)
    · intro x hx y hy
      refine ⟨(x / layoutThreads, y, x % layoutThreads), hmem.mpr ⟨?_, hy, ?_⟩,
        Nat.div_add_mod' x layoutThreads, rfl⟩
      · exact Nat.div_lt_of_lt_mul (by rwa [mul_comm])
      · exact Nat.mod_lt x (by norm_num [layoutThreads])
  refine ⟨_, ?_, hperm⟩
  simp only [layoutCopies, ← hgrid, ← hthreads, hcopies, Option.bind_eq_bind, Option.bind_some]
  rfl

end

/-! ## Alignment -/

theorem alignment_iff (a b c d e k : ℕ) : (a ||| b ||| c ||| d ||| e) &&& (2 ^ k - 1) = 0 ↔
    2 ^ k ∣ a ∧ 2 ^ k ∣ b ∧ 2 ^ k ∣ c ∧ 2 ^ k ∣ d ∧ 2 ^ k ∣ e := by
  rw [Nat.and_or_distrib_right, Nat.and_or_distrib_right, Nat.and_or_distrib_right,
    Nat.and_or_distrib_right]
  simp only [Nat.or_eq_zero_iff, Nat.and_two_pow_sub_one_eq_mod, ← Nat.dvd_iff_mod_eq_zero,
    and_assoc]

namespace SliceRows

variable {rows : SliceRows}

/-- A vector has at most sixteen bytes, and everything is aligned to it. -/
theorem vectorBytes_spec (rows : SliceRows) : 0 < rows.vectorBytes ∧ rows.vectorBytes ≤ 16 ∧
    rows.vectorBytes ∣ rows.source ∧ rows.vectorBytes ∣ rows.destination ∧
    rows.vectorBytes ∣ rows.sourcePitchBytes ∧ rows.vectorBytes ∣ rows.destinationPitchBytes ∧
    rows.vectorBytes ∣ rows.sliceBytes := by
  simp only [vectorBytes, layoutVectorBytes]
  split_ifs with h16 h8 h4 h2
  · exact ⟨by norm_num, by norm_num, (alignment_iff _ _ _ _ _ 4).mp h16⟩
  · exact ⟨by norm_num, by norm_num, (alignment_iff _ _ _ _ _ 3).mp h8⟩
  · exact ⟨by norm_num, by norm_num, (alignment_iff _ _ _ _ _ 2).mp h4⟩
  · exact ⟨by norm_num, by norm_num, (alignment_iff _ _ _ _ _ 1).mp h2⟩
  · simp

/-! ## Addresses -/

/-- The rows are in the address space, and none is read and written. -/
structure Fits (rows : SliceRows) : Prop where
  slice_pos : 0 < rows.sliceBytes
  count_pos : 0 < rows.chunkCount
  sourcePitch_ge : rows.sliceBytes ≤ rows.sourcePitchBytes
  destinationPitch_ge : rows.sliceBytes ≤ rows.destinationPitchBytes
  source_le : rows.source + (rows.chunkCount - 1) * rows.sourcePitchBytes + rows.sliceBytes ≤
    sizeMax + 1
  destination_le : rows.destination + (rows.chunkCount - 1) * rows.destinationPitchBytes +
    rows.sliceBytes ≤ sizeMax + 1
  apart : ∀ chunk < rows.chunkCount, ∀ column < rows.sliceBytes, ∀ chunk' < rows.chunkCount,
    ∀ column' < rows.sliceBytes, rows.destination + chunk' * rows.destinationPitchBytes + column' ≠
      rows.source + chunk * rows.sourcePitchBytes + column

theorem Fits.slice_le (h : rows.Fits) : rows.sliceBytes ≤ 2 ^ 63 := by
  by_contra hlarge
  have hsizeMax : sizeMax = 2 ^ 64 - 1 := rfl
  have hsource := h.source_le
  have hdestination := h.destination_le
  rcases le_total rows.source rows.destination with hle | hle
  · refine h.apart 0 h.count_pos (rows.destination - rows.source) ?_ 0 h.count_pos 0 h.slice_pos ?_
    all_goals omega
  · refine h.apart 0 h.count_pos 0 h.slice_pos 0 h.count_pos (rows.source - rows.destination) ?_ ?_
    all_goals omega

theorem Fits.count_le (h : rows.Fits) : rows.chunkCount ≤ 2 ^ 63 := by
  by_contra hlarge
  have hsizeMax : sizeMax = 2 ^ 64 - 1 := rfl
  have hslice := h.slice_pos
  have hpitch : ∀ {base pitch : ℕ}, rows.sliceBytes ≤ pitch →
      base + (rows.chunkCount - 1) * pitch + rows.sliceBytes ≤ sizeMax + 1 → pitch = 1 := by
    intro base pitch hge hle
    by_contra hne
    have htwo : (rows.chunkCount - 1) * 2 ≤ (rows.chunkCount - 1) * pitch :=
      Nat.mul_le_mul_left _ (by omega)
    omega
  have hsource := h.source_le
  have hdestination := h.destination_le
  have hspitch := hpitch h.sourcePitch_ge hsource
  have hdpitch := hpitch h.destinationPitch_ge hdestination
  have happart := h.apart
  rw [hspitch] at hsource
  rw [hdpitch] at hdestination
  simp only [hspitch, hdpitch] at happart
  rcases le_total rows.source rows.destination with hle | hle
  · refine happart (rows.destination - rows.source) ?_ 0 h.slice_pos 0 h.count_pos 0 h.slice_pos ?_
    all_goals omega
  · refine happart 0 h.count_pos 0 h.slice_pos (rows.source - rows.destination) ?_ 0 h.slice_pos ?_
    all_goals omega

end SliceRows

end Coccl
