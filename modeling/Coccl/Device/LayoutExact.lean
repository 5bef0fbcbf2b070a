import Coccl.Device.LayoutRows

/-!
# What packing and unpacking leave in memory

Both calls leave the rows where they go and everything else as it was, whether by a kernel, in any
order of its copies, or by `cudaMemcpy2DAsync`; and unpacking what was packed gives the rows back.
-/

namespace Coccl

open Kernels Loops Blocks List SliceRows

namespace SliceRows

variable {V : Type*} {rows : SliceRows} (h : rows.Fits)

/-- Every row of the destination gets one of the source. -/
def Permutes (rows : SliceRows) : Prop :=
  Set.BijOn rows.destinationChunk (Set.Iio rows.chunkCount) (Set.Iio rows.chunkCount)

/-! ## Addresses -/

theorem element_le {element : ℕ} (helement : element < rows.sliceBytes / rows.vectorBytes) :
    element * rows.vectorBytes + rows.vectorBytes ≤ rows.sliceBytes :=
  (mul_add_le helement).trans (Nat.div_mul_le_self _ _)

/-- The address of a vector does not wrap. -/
theorem address_eq {base chunk pitch element : ℕ}
    (hle : base + (rows.chunkCount - 1) * pitch + rows.sliceBytes ≤ sizeMax + 1)
    (hchunk : chunk < rows.chunkCount) (helement : element < rows.sliceBytes / rows.vectorBytes) :
    sizeAdd (sizeAdd base (sizeMul chunk pitch)) (sizeMul element rows.vectorBytes) =
      base + chunk * pitch + element * rows.vectorBytes := by
  have hrow : chunk * pitch ≤ (rows.chunkCount - 1) * pitch :=
    Nat.mul_le_mul_right _ (Nat.le_sub_one_of_lt hchunk)
  have hin := element_le helement
  have hbytes := (vectorBytes_spec rows).1
  have hbase : sizeAdd base (sizeMul chunk pitch) = base + chunk * pitch := by
    rw [sizeMul_eq (by omega), sizeAdd_eq (by omega)]
  rw [hbase, sizeMul_eq (by omega), sizeAdd_eq (by omega)]

include h in
theorem destination_inj {chunk column chunk' column' : ℕ} (hcolumn : column < rows.sliceBytes)
    (hcolumn' : column' < rows.sliceBytes)
    (heq : rows.destination + chunk * rows.destinationPitchBytes + column =
      rows.destination + chunk' * rows.destinationPitchBytes + column') :
    chunk = chunk' ∧ column = column' := by
  refine mul_add_inj (hcolumn.trans_le h.destinationPitch_ge)
    (hcolumn'.trans_le h.destinationPitch_ge) ?_
  omega

/-! ## Copies, byte by byte -/

/-- What the launched grid copies: every byte of every row once, in aligned vectors that are in
their rows. -/
structure CopiesEveryByte (rows : SliceRows) (copies : List (ℕ × ℕ)) : Prop where
  once : (copies.flatMap fun copy => (List.range rows.vectorBytes).map fun b =>
    (copy.1, copy.2 * rows.vectorBytes + b)).Perm
      (List.range rows.chunkCount ×ˢ List.range rows.sliceBytes)
  inside : ∀ copy ∈ copies, copy.1 < rows.chunkCount ∧
    copy.2 * rows.vectorBytes + rows.vectorBytes ≤ rows.sliceBytes ∧
    rows.sourceAddress copy =
      rows.source + copy.1 * rows.sourcePitchBytes + copy.2 * rows.vectorBytes ∧
    rows.destinationAddress copy = rows.destination +
      rows.destinationChunk copy.1 * rows.destinationPitchBytes + copy.2 * rows.vectorBytes
  aligned : ∀ copy ∈ copies, rows.vectorBytes ∣ rows.sourceAddress copy ∧
    rows.vectorBytes ∣ rows.destinationAddress copy

/-- Vectors of a row that they divide make up the row. -/
theorem bytes_perm {copies : List (ℕ × ℕ)} {count bytes elements : ℕ}
    (hperm : copies.Perm (List.range count ×ˢ List.range elements)) :
    (copies.flatMap fun copy => (List.range bytes).map fun b =>
      (copy.1, copy.2 * bytes + b)).Perm (List.range count ×ˢ List.range (elements * bytes)) := by
  refine (hperm.flatMap_right _).trans (List.Perm.of_eq ?_)
  refine flatMap_assoc.trans (flatMap_congr fun chunk _ => ?_)
  rw [flatMap_map, flatMap_range_blocks]
  exact map_congr_left fun i _ => congrArg (Prod.mk chunk) (Nat.div_add_mod' i bytes)

section

variable (hrows : rows.Permutes) {copies : List (ℕ × ℕ)}
  (hperm : copies.Perm (List.range rows.chunkCount ×ˢ
    List.range (rows.sliceBytes / rows.vectorBytes)))

include hperm in
theorem mem_copies {chunk element : ℕ} : (chunk, element) ∈ copies ↔
    chunk < rows.chunkCount ∧ element < rows.sliceBytes / rows.vectorBytes := by
  rw [hperm.mem_iff, mem_product, mem_range, mem_range]

include h hrows hperm

theorem copiesEveryByte : rows.CopiesEveryByte copies := by
  obtain ⟨-, -, hsource, hdestination, hspitch, hdpitch, hslice⟩ := vectorBytes_spec rows
  refine ⟨?_, ?_, ?_⟩
  · have hbytes := @bytes_perm copies _ rows.vectorBytes _ hperm
    rwa [Nat.div_mul_cancel hslice] at hbytes
  all_goals
    rintro ⟨chunk, element⟩ hcopy
    obtain ⟨hchunk, helement⟩ := (mem_copies hperm).mp hcopy
    have hread := address_eq h.source_le hchunk helement
    have hwritten := address_eq h.destination_le (hrows.mapsTo hchunk) helement
  · exact ⟨hchunk, element_le helement, hread, hwritten⟩
  · rw [sourceAddress, destinationAddress, hread, hwritten]
    have hvector := dvd_mul_left rows.vectorBytes element
    exact ⟨(hsource.add (hspitch.mul_left _)).add hvector,
      (hdestination.add (hdpitch.mul_left _)).add hvector⟩

/-- The copies do not get in each other's way. -/
theorem copies_raceFree : (Kernel.copyKernel (V := V) copies rows.vectorBytes rows.sourceAddress
    rows.destinationAddress).RaceFree := by
  have hinside := (copiesEveryByte h hrows hperm).inside
  refine Kernel.copyKernel_raceFree (hperm.nodup_iff.mpr (nodup_range.product nodup_range)) ?_ ?_
  · intro copy hc copy' hc' b hb b' hb' heq
    obtain ⟨hchunk, hin, -, hwritten⟩ := hinside copy hc
    obtain ⟨hchunk', hin', -, hwritten'⟩ := hinside copy' hc'
    rw [hwritten, hwritten', add_assoc, add_assoc _ _ b'] at heq
    obtain ⟨hsame, hcolumn⟩ := destination_inj h (by omega) (by omega) heq
    exact Prod.ext (hrows.injOn hchunk hchunk' hsame) (mul_add_inj hb hb' hcolumn).1
  · intro copy hc copy' hc' b hb b' hb' heq
    obtain ⟨hchunk, hin, -, hwritten⟩ := hinside copy hc
    obtain ⟨hchunk', hin', hread, -⟩ := hinside copy' hc'
    rw [hwritten, hread, add_assoc, add_assoc _ _ b'] at heq
    exact h.apart _ hchunk' _ (by omega) _ (hrows.mapsTo hchunk) _ (by omega) heq

end

/-! ## Row copies -/

/-- The rows are where they go, and everything else is as it was. -/
def RowsCopied (rows : SliceRows) (memory final : ℕ → V) : Prop :=
  (∀ chunk < rows.chunkCount, ∀ column < rows.sliceBytes,
    final (rows.destination + rows.destinationChunk chunk * rows.destinationPitchBytes + column) =
      memory (rows.source + chunk * rows.sourcePitchBytes + column)) ∧
  ∀ a, (∀ chunk < rows.chunkCount, ∀ column < rows.sliceBytes,
    rows.destination + chunk * rows.destinationPitchBytes + column ≠ a) → final a = memory a

theorem RowsCopied.unique (hrows : rows.Permutes) {memory final final' : ℕ → V}
    (hfinal : rows.RowsCopied memory final) (hfinal' : rows.RowsCopied memory final') :
    final = final' := by
  funext a
  by_cases ha : ∀ chunk < rows.chunkCount, ∀ column < rows.sliceBytes,
      rows.destination + chunk * rows.destinationPitchBytes + column ≠ a
  · rw [hfinal.2 a ha, hfinal'.2 a ha]
  · push Not at ha
    obtain ⟨chunk', hchunk', column, hcolumn, rfl⟩ := ha
    obtain ⟨chunk, hchunk, rfl⟩ := hrows.surjOn hchunk'
    rw [hfinal.1 chunk hchunk column hcolumn, hfinal'.1 chunk hchunk column hcolumn]

include h in
theorem exists_copies : ∃ copies,
    layoutCopies rows.vectorBytes rows.sliceBytes rows.chunkCount = some copies ∧
      copies.Perm (List.range rows.chunkCount ×ˢ
        List.range (rows.sliceBytes / rows.vectorBytes)) := by
  obtain ⟨hbytes, hwide, -⟩ := vectorBytes_spec rows
  exact layoutCopies_perm hbytes hwide h.slice_le h.count_pos h.count_le

include h in
theorem Launched.rowsCopied (hrows : rows.Permutes) {memory final : ℕ → V}
    (hfinal : rows.Launched memory final) : rows.RowsCopied memory final := by
  obtain ⟨hbytes, -, -, -, -, -, hdvd⟩ := vectorBytes_spec rows
  obtain ⟨copies', hcopies', hperm⟩ := exists_copies h
  cases hfinal with
  | @completed copies hcopies registers order horder =>
    obtain rfl : copies' = copies := Option.some.inj (hcopies'.symm.trans hcopies)
    obtain ⟨hstored, hkept⟩ := Kernel.copyKernel_run (copies_raceFree h hrows hperm) horder
      ⟨memory, registers⟩
    have hinside := (copiesEveryByte h hrows hperm).inside
    refine ⟨fun chunk hchunk column hcolumn => ?_, fun a ha => hkept a ?_⟩
    · -- the vector that the column is in
      have helement : column / rows.vectorBytes < rows.sliceBytes / rows.vectorBytes := by
        refine Nat.div_lt_of_lt_mul ?_
        rwa [Nat.mul_div_cancel' hdvd]
      have hcopy := (mem_copies hperm).mpr ⟨hchunk, helement⟩
      obtain ⟨-, -, hread, hwritten⟩ := hinside _ hcopy
      have hvalue := hstored _ hcopy _ (Nat.mod_lt column hbytes)
      rwa [hwritten, hread, add_assoc, Nat.div_add_mod', add_assoc _ _ (column % _),
        Nat.div_add_mod'] at hvalue
    · intro copy hcopy b hb heq
      obtain ⟨hchunk, hin, -, hwritten⟩ := hinside copy hcopy
      rw [hwritten, add_assoc] at heq
      exact ha _ (hrows.mapsTo hchunk) _ (by omega) heq

include h in
theorem exists_launched (memory : ℕ → V) : ∃ final, rows.Launched memory final := by
  obtain ⟨copies, hcopies, -⟩ := exists_copies h
  exact ⟨_, .completed hcopies (fun _ => memory 0) _ Kernel.legal_loads_first⟩

/-- A 2-D copy copies the rows in their order. -/
theorem rowsCopied_memcpy2D (hid : rows.destinationChunk = id)
    (hpitch : rows.sliceBytes ≤ rows.destinationPitchBytes) (memory : ℕ → V) :
    rows.RowsCopied memory (memcpy2D rows.destination rows.destinationPitchBytes rows.source
      rows.sourcePitchBytes rows.sliceBytes rows.chunkCount memory) := by
  refine ⟨fun chunk hchunk column hcolumn => ?_, fun a ha => if_neg fun hrow => ?_⟩
  · have hin := hcolumn.trans_le hpitch
    rw [hid, id, Nat.add_assoc, memcpy2D, Nat.add_sub_cancel_left, mul_add_div hin,
      mul_add_mod hin, if_pos ⟨Nat.le_add_right _ _, hchunk, hcolumn⟩]
  · refine ha _ hrow.2.1 _ hrow.2.2 ?_
    rw [add_assoc, Nat.div_add_mod', Nat.add_sub_cancel' hrow.1]

end SliceRows

/-! ## The calls -/

section

variable {source pitchBytes packed sliceBytes chunkCount nNodes ranksPerNode : ℕ}
  {inputLayout : InputLayout}

/-- The rows of a pack are permuted, by a transposition if they are swizzled. -/
theorem packRows_permutes (hcount : chunkCount ≤ 2 ^ 63)
    (hswizzle : inputLayout = .hierarchicalSwizzle → nNodes * ranksPerNode = chunkCount) :
    (packRows source pitchBytes packed sliceBytes chunkCount inputLayout nNodes
      ranksPerNode).Permutes ∧
    ∀ chunk < chunkCount, inputLayout = .hierarchicalSwizzle →
      (packRows source pitchBytes packed sliceBytes chunkCount inputLayout nNodes
        ranksPerNode).destinationChunk chunk =
          chunk % ranksPerNode * nNodes + chunk / ranksPerNode := by
  cases inputLayout with
  | contiguous => exact ⟨Set.bijOn_id _, fun _ _ hlayout => by cases hlayout⟩
  | hierarchicalSwizzle =>
    have hproduct := hswizzle rfl
    have hrow : ∀ chunk < chunkCount, (packRows source pitchBytes packed sliceBytes chunkCount
        .hierarchicalSwizzle nNodes ranksPerNode).destinationChunk chunk =
          transpose nNodes ranksPerNode chunk := by
      intro chunk hchunk
      have hlt : transpose nNodes ranksPerNode chunk < chunkCount := by
        rw [← hproduct, mul_comm]
        exact transpose_lt (hproduct ▸ hchunk)
      have hle : transpose nNodes ranksPerNode chunk ≤ sizeMax :=
        (hlt.le.trans hcount).trans (by norm_num [sizeMax])
      exact (congrArg (sizeAdd · _) (sizeMul_eq ((Nat.le_add_right _ _).trans hle))).trans
        (sizeAdd_eq hle)
    refine ⟨?_, fun chunk hchunk _ => hrow chunk hchunk⟩
    have hbij := bijOn_transpose nNodes ranksPerNode
    rw [hproduct] at hbij
    exact hbij.congr fun chunk hchunk => (hrow chunk hchunk).symm

variable {V : Type*} {memory : ℕ → V}

/-- A call copies its rows: its grid can be launched and copies every byte once, and whatever path
the call takes, it comes to an end with the rows where they go. -/
structure CopiedBy (rows : SliceRows) (memory : ℕ → V)
    (call : Option NcclError → (ℕ → V) → Prop) : Prop where
  launchable : let grid := layoutGrid rows.vectorBytes rows.sliceBytes rows.chunkCount
    0 < grid.1 ∧ grid.1 ≤ 2 ^ 31 - 1 ∧ 0 < grid.2 ∧ grid.2 ≤ 65535
  copies : ∃ copies, layoutCopies rows.vectorBytes rows.sliceBytes rows.chunkCount = some copies ∧
    rows.CopiesEveryByte copies
  permutes : rows.Permutes
  completes : ∃ final, call none final
  copied : ∀ result final, call result final → result = none ∧ rows.RowsCopied memory final
  copied2D : rows.destinationChunk = id → ∀ result final, call result final →
    final = memcpy2D rows.destination rows.destinationPitchBytes rows.source
      rows.sourcePitchBytes rows.sliceBytes rows.chunkCount memory

theorem copiedBy {rows : SliceRows} (h : rows.Fits) (hrows : rows.Permutes)
    {call : Option NcclError → (ℕ → V) → Prop} (hcompletes : ∃ final, call none final)
    (hcopied : ∀ result final, call result final → result = none ∧ rows.RowsCopied memory final) :
    CopiedBy rows memory call where
  launchable := by
    obtain ⟨hx, hmaxX, hy, -, hmaxY⟩ := @layoutGrid_spec rows.vectorBytes rows.sliceBytes
      rows.chunkCount h.count_pos
    exact ⟨hx, hmaxX.trans (by norm_num [maxLayoutBlocks]), hy, hmaxY⟩
  copies := by
    obtain ⟨copies, hcopies, hperm⟩ := exists_copies h
    exact ⟨copies, hcopies, copiesEveryByte h hrows hperm⟩
  permutes := hrows
  completes := hcompletes
  copied := hcopied
  copied2D := fun hid result final hfinal => (hcopied result final hfinal).2.unique hrows
    (rowsCopied_memcpy2D hid h.destinationPitch_ge memory)

theorem not_layoutInvalid {source destination sliceBytes chunkCount pitchBytes : ℕ}
    (hsource : source ≠ 0) (hdestination : destination ≠ 0) (hslice : 0 < sliceBytes)
    (hcount : 0 < chunkCount) (hpitch : sliceBytes ≤ pitchBytes) :
    ¬ layoutInvalid source destination sliceBytes chunkCount pitchBytes := by
  unfold layoutInvalid
  omega

theorem copiedBy_launchPackSlice (hsource : source ≠ 0) (hpacked : packed ≠ 0) :
    let rows := packRows source pitchBytes packed sliceBytes chunkCount inputLayout nNodes
      ranksPerNode
    rows.Fits → rows.Permutes → CopiedBy rows memory (LaunchPackSlice source pitchBytes packed
      sliceBytes chunkCount inputLayout nNodes ranksPerNode memory) := by
  intro rows h hrows
  have hvalid := @not_layoutInvalid source packed sliceBytes chunkCount pitchBytes hsource hpacked
    h.slice_pos h.count_pos h.sourcePitch_ge
  refine copiedBy h hrows ?_ fun result final hfinal => ?_
  · by_cases hcopies : inputLayout = .contiguous ∧ layoutCopies2D sliceBytes chunkCount
        (layoutVectorBytes source pitchBytes packed sliceBytes sliceBytes)
    · exact ⟨_, .copied hvalid hcopies.1 hcopies.2⟩
    · obtain ⟨final, hfinal⟩ := exists_launched h memory
      exact ⟨final, .launched hvalid hcopies hfinal⟩
  · cases hfinal with
    | invalid hinvalid => exact absurd hinvalid hvalid
    | copied _ hlayout hcopies =>
      subst hlayout
      exact ⟨rfl, rowsCopied_memcpy2D rfl h.destinationPitch_ge memory⟩
    | launched _ _ hfinal => exact ⟨rfl, hfinal.rowsCopied h hrows⟩

theorem copiedBy_launchUnpackSlice {destination : ℕ} (hpacked : packed ≠ 0)
    (hdestination : destination ≠ 0)
    (h : (unpackRows packed destination pitchBytes sliceBytes chunkCount).Fits) (memory : ℕ → V) :
    CopiedBy (unpackRows packed destination pitchBytes sliceBytes chunkCount) memory
      (LaunchUnpackSlice packed destination pitchBytes sliceBytes chunkCount memory) := by
  have hvalid := @not_layoutInvalid packed destination sliceBytes chunkCount pitchBytes hpacked
    hdestination h.slice_pos h.count_pos h.destinationPitch_ge
  refine copiedBy h (Set.bijOn_id _) ?_ fun result final hfinal => ?_
  · by_cases hcopies : layoutCopies2D sliceBytes chunkCount
        (layoutVectorBytes packed sliceBytes destination pitchBytes sliceBytes)
    · exact ⟨_, .copied hvalid hcopies⟩
    · obtain ⟨final, hfinal⟩ := exists_launched h memory
      exact ⟨final, .launched hvalid hcopies hfinal⟩
  · cases hfinal with
    | invalid hinvalid => exact absurd hinvalid hvalid
    | copied _ hcopies =>
      exact ⟨rfl, rowsCopied_memcpy2D rfl h.destinationPitch_ge memory⟩
    | launched _ _ hfinal => exact ⟨rfl, hfinal.rowsCopied h (Set.bijOn_id _)⟩

end

end Coccl
