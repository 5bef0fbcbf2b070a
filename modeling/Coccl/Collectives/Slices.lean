import Coccl.Collectives.Run
import Coccl.Collectives.StageSpecs

/-!
# Slices of the user's buffers

Packed or in place, a slice reads and writes the same elements: element `e` of chunk `c` is element
`c * rawChunkCount + e` of the buffer. The slices of a chunk follow each other, from `progress s` to
`progress (s + 1)`.
-/

namespace Coccl

open PipelineContext Blocks

/-! ## Elements of a slice -/

/-- The elements of a chunk that the first `s` slices cover. -/
def progress (rawChunkCount depth s : ℕ) : ℕ :=
  if s = depth then rawChunkCount else s * (rawChunkCount / depth)

section

variable {rawChunkCount depth typeBytes s : ℕ}

theorem progress_slice (hs : s < depth) :
    (exactSlice rawChunkCount depth typeBytes s).elementOffset =
      progress rawChunkCount depth s := by
  rw [progress, if_neg hs.ne]
  rfl

theorem progress_zero (hdepth : 0 < depth) : progress rawChunkCount depth 0 = 0 := by
  rw [progress, if_neg hdepth.ne, zero_mul]

theorem progress_succ (hs : s < depth) :
    progress rawChunkCount depth (s + 1) = progress rawChunkCount depth s +
      (exactSlice rawChunkCount depth typeBytes s).elementCount := by
  have hdiv := Nat.div_add_mod' rawChunkCount depth
  simp only [progress, exactSlice, if_neg hs.ne]
  by_cases hlast : s + 1 = depth
  · rw [if_pos hlast, if_pos hlast]
    nth_rewrite 1 [← hdiv]
    rw [← hlast, Nat.mul_succ, mul_comm]
    ring
  · rw [if_neg hlast, if_neg hlast, Nat.succ_mul, add_zero]

/-- A single slice is the whole chunk. -/
theorem exactSlice_single :
    (exactSlice rawChunkCount 1 typeBytes 0).elementCount = rawChunkCount := by
  simp [exactSlice, Nat.mod_one]

theorem progress_le_count (hs : s ≤ depth) : progress rawChunkCount depth s ≤ rawChunkCount := by
  unfold progress
  split
  · exact le_rfl
  · calc s * (rawChunkCount / depth) ≤ depth * (rawChunkCount / depth) :=
          Nat.mul_le_mul_right _ hs
      _ ≤ rawChunkCount := Nat.mul_div_le _ _

theorem progress_add_lt {j : ℕ} (hs : s < depth)
    (hj : j < (exactSlice rawChunkCount depth typeBytes s).elementCount) :
    progress rawChunkCount depth s + j < rawChunkCount := by
  have hle := @progress_le_count rawChunkCount depth (s + 1) hs
  rw [@progress_succ _ _ typeBytes _ hs] at hle
  omega

end

/-! ## One rank -/

namespace PipelineSpec

variable {κ : Type} (spec : PipelineSpec κ)

/-- The addresses of the elements of the user's buffers. -/
def inputElement (i : ℕ) : ℕ := spec.input + i * spec.typeBytes

def outputElement (i : ℕ) : ℕ := spec.output + i * spec.typeBytes

theorem outputElement_injective (htype : 0 < spec.typeBytes) {i j : ℕ}
    (h : spec.outputElement i = spec.outputElement j) : i = j :=
  Nat.eq_of_mul_eq_mul_right htype (Nat.add_left_cancel h)

end PipelineSpec

open PipelineSpec

/-- The chunk that the pack step leaves at position `p`. -/
def PipelineContext.sourceChunk {κ : Type} (context : PipelineContext κ) (p : ℕ) : ℕ :=
  match context.stageContext.inputLayout with
  | .hierarchicalSwizzle =>
    transpose context.stageContext.ranksPerNode context.stageContext.nNodes p
  | .contiguous => p

namespace Prepared

variable {α β κ : Type} [AddCommMonoid α] [DecidableEq κ] {plugins : κ → Plugin}
  {codecs : κ → Codec α β} {spec : PipelineSpec κ} {requestedDepth : ℤ}
  {context : PipelineContext κ} {chunks : List ℕ} {requireSerial : Bool} {logical : PipelinePlan}

variable (P : Prepared plugins spec requestedDepth context chunks requireSerial logical)

include P

theorem slice_eq {s : ℕ} (hs : s < context.depth) :
    context.slice s = exactSlice spec.rawChunkCount context.depth spec.typeBytes s :=
  (P.inputBytes_eq hs).1

theorem typeBytes_pos : 0 < spec.typeBytes := by
  have := P.valid.typeBytes_pos
  unfold typeBytes
  omega

theorem byteOffset_eq {s : ℕ} (hs : s < context.depth) : (context.slice s).byteOffset =
      progress spec.rawChunkCount context.depth s * spec.typeBytes := by
  rw [P.slice_eq hs, ← @progress_slice _ _ spec.typeBytes _ hs]
  rfl

/-- The pack step moves every row to its place. -/
theorem packSlice_eq (hswizzle : context.stageContext.inputLayout = .hierarchicalSwizzle →
      spec.inputChunks = context.stageContext.nNodes * context.stageContext.ranksPerNode) (m s : ℕ)
    (memory : UserMemory α) :
    context.packSlice m s memory = (List.range spec.inputChunks).map fun p (j : Fin m) =>
      memory (spec.input + (context.slice s).byteOffset +
        context.sourceChunk p * context.stageContext.rawChunkBytes + j * spec.typeBytes) := by
  unfold packSlice sourceChunk destinationChunk
  rw [P.spec_eq]
  cases hlayout : context.stageContext.inputLayout with
  | contiguous =>
    exact @scatter_eq_map _ _ id id _ _ (List.length_replicate) (fun _ h => h)
      (fun _ h => h) (fun _ _ => rfl) fun _ _ => rfl
  | hierarchicalSwizzle =>
    have hchunks := hswizzle hlayout
    have hchunks' := hchunks.trans (mul_comm _ _)
    refine @scatter_eq_map _ _
      (transpose context.stageContext.nNodes context.stageContext.ranksPerNode)
      (transpose context.stageContext.ranksPerNode context.stageContext.nNodes)
      _ _ (List.length_replicate) ?_ ?_ ?_ ?_
    · intro c hc
      rw [hchunks']
      exact transpose_lt (hchunks ▸ hc)
    · intro p hp
      rw [hchunks]
      exact transpose_lt (hchunks' ▸ hp)
    · exact fun c hc => transpose_transpose (hchunks ▸ hc)
    · exact fun p hp => transpose_transpose (hchunks' ▸ hp)

/-- **What a slice reads.** -/
theorem inputEdge_holds (hswizzle : context.stageContext.inputLayout = .hierarchicalSwizzle →
      spec.inputChunks = context.stageContext.nNodes * context.stageContext.ranksPerNode) {m s : ℕ}
    (hs : s < context.depth)
    (hm : m = (exactSlice spec.rawChunkCount context.depth spec.typeBytes s).elementCount)
    (memory : UserMemory α) :
    (context.inputEdge m s memory : ValueEdge α β κ m).Holds codecs none spec.inputChunks
      fun p j => memory (spec.inputElement (context.sourceChunk p * spec.rawChunkCount +
        (progress spec.rawChunkCount context.depth s + j))) := by
  suffices hrows : (if context.stagesInput then context.packSlice m s memory
      else (List.range context.spec.inputChunks).map fun chunk (j : Fin m) =>
        memory (context.spec.input + (context.slice s).byteOffset +
          (chunk * m + j) * context.spec.typeBytes)) =
      (List.range spec.inputChunks).map fun p (j : Fin m) => memory (spec.inputElement
        (context.sourceChunk p * spec.rawChunkCount +
          (progress spec.rawChunkCount context.depth s + j))) by
    unfold inputEdge
    rw [hrows, List.map_map]
    exact holds_raw codecs _ _
  by_cases hstaged : context.stagesInput = true
  · rw [if_pos hstaged, P.packSlice_eq hswizzle]
    refine List.map_congr_left fun p _ => funext fun j => congrArg memory ?_
    rw [P.byteOffset_eq hs, P.rawChunkBytes, inputElement]
    ring
  · rw [if_neg hstaged, P.spec_eq]
    refine List.map_congr_left fun p hp => funext fun j => congrArg memory ?_
    have hp := List.mem_range.mp hp
    rw [P.stagesInput_iff] at hstaged
    have hpos := P.valid.inputChunks_pos
    rw [P.byteOffset_eq hs, inputElement]
    -- one chunk, or one slice of contiguous chunks
    by_cases hone : spec.inputChunks = 1
    · obtain rfl : p = 0 := by omega
      have hsource : context.sourceChunk 0 = 0 := by
        unfold sourceChunk
        split <;> simp [transpose]
      rw [hsource]
      ring
    · have hstages : ¬(1 < context.depth ∨
          context.stageContext.inputLayout = .hierarchicalSwizzle) :=
        fun h => hstaged ⟨by omega, h⟩
      rw [not_or, not_lt] at hstages
      have hdepth : context.depth = 1 := le_antisymm hstages.1 P.depth_pos.1
      have hslice : s = 0 := by omega
      have hsource : context.sourceChunk p = p := by
        unfold sourceChunk
        split
        · next hlayout => exact absurd hlayout hstages.2
        · rfl
      have hcount : p * m = p * spec.rawChunkCount := by
        rw [hm, hdepth, hslice, exactSlice_single]
      rw [hsource, hcount, hdepth, hslice, progress_zero one_pos]
      ring

theorem outputAddress_eq {m s : ℕ} (hs : s < context.depth)
    (hm : m = (exactSlice spec.rawChunkCount context.depth spec.typeBytes s).elementCount) {i : ℕ}
    (hi : i < context.plan.finalChunks * m) :
    context.outputAddress m s i = spec.outputElement (i / m * spec.rawChunkCount +
      (progress spec.rawChunkCount context.depth s + i % m)) := by
  unfold outputAddress outputElement
  rw [P.spec_eq, P.byteOffset_eq hs]
  by_cases hstaged : context.stagesOutput = true
  · rw [if_pos hstaged, P.rawChunkBytes]
    ring
  · rw [if_neg hstaged]
    rw [P.stagesOutput_iff] at hstaged
    have hdepth := P.depth_pos.1
    by_cases hone : context.depth = 1
    · have hslice : s = 0 := by omega
      have hcount : m = spec.rawChunkCount := by
        rw [hm, hone, hslice, exactSlice_single]
      rw [← hcount, hone, hslice, progress_zero one_pos, zero_mul, zero_add,
        Nat.div_add_mod', add_zero]
    · have hchunk : context.plan.finalChunks ≤ 1 := by omega
      have hlt : i < m := hi.trans_le (by
        calc context.plan.finalChunks * m ≤ 1 * m := Nat.mul_le_mul_right m hchunk
          _ = m := one_mul m)
      rw [Nat.div_eq_of_lt hlt, Nat.mod_eq_of_lt hlt]
      ring

/-- **What a slice writes.** -/
theorem storeSlice_spec {m s : ℕ} (hs : s < context.depth)
    (hm : m = (exactSlice spec.rawChunkCount context.depth spec.typeBytes s).elementCount)
    {edge : ValueEdge α β κ m} {f : ℕ → Fin m → α}
    (hedge : edge.Holds codecs none context.plan.finalChunks f) (memory : UserMemory α) :
    ∃ memory', context.storeSlice s edge memory = some memory' ∧
      (∀ c < context.plan.finalChunks, ∀ j : Fin m, memory' (spec.outputElement
        (c * spec.rawChunkCount + (progress spec.rawChunkCount context.depth s + j))) = f c j) ∧
      ∀ a, (∀ c < context.plan.finalChunks, ∀ j < m, spec.outputElement
        (c * spec.rawChunkCount + (progress spec.rawChunkCount context.depth s + j)) ≠ a) →
        memory' a = memory a := by
  have hvalues := hedge.values?
  refine ⟨_, by rw [storeSlice, hvalues]; rfl, fun c hc j => ?_, fun a ha => ?_⟩
  · have hi : c * m + j < context.plan.finalChunks * m := div_add_lt hc j.2
    have haddress := P.outputAddress_eq hs hm hi
    rw [mul_add_div j.2, mul_add_mod j.2] at haddress
    rw [← haddress, store_at]
    · have hmod : (c * m + j) % m < m := by rw [mul_add_mod j.2]; exact j.2
      have hindex : (⟨(c * m + j) % m, hmod⟩ : Fin m) = j := Fin.ext (mul_add_mod j.2)
      rw [elementAt, dif_pos hmod, hindex, mul_add_div j.2]
      simp [List.getD_eq_getElem?_getD, hc]
    · -- rows do not meet, and a slice stays inside its chunk
      intro i hi i' hi' heq
      rw [List.length_map, List.length_range] at hi hi'
      rw [P.outputAddress_eq hs hm hi, P.outputAddress_eq hs hm hi'] at heq
      have helement := spec.outputElement_injective P.typeBytes_pos heq
      have hlt : ∀ i, progress spec.rawChunkCount context.depth s + i % m < spec.rawChunkCount :=
        fun i => progress_add_lt hs ((Nat.mod_lt i (Nat.zero_lt_of_lt j.2)).trans_eq hm)
      obtain ⟨hrow, hcolumn⟩ := mul_add_inj (hlt i) (hlt i') helement
      rw [← Nat.div_add_mod' i m, ← Nat.div_add_mod' i' m, hrow, add_left_cancel hcolumn]
    · rw [List.length_map, List.length_range]
      exact hi
  · apply store_of_ne
    intro i hi
    rw [List.length_map, List.length_range] at hi
    have hpos : 0 < m := pos_of_ne_zero fun hzero => by simp [hzero] at hi
    rw [P.outputAddress_eq hs hm hi]
    exact ha _ (Nat.div_lt_of_lt_mul (by rwa [mul_comm])) _ (Nat.mod_lt i hpos)

/-- No slice writes what another slice reads. -/
theorem outputElement_ne_inputElement {s t : ℕ} (hs : s < context.depth) (ht : t < context.depth)
    (hst : s ≠ t) {c j c' j' : ℕ} (hc : c < context.plan.finalChunks)
    (hj : j < (exactSlice spec.rawChunkCount context.depth spec.typeBytes s).elementCount)
    (hc' : c' < spec.inputChunks)
    (hj' : j' < (exactSlice spec.rawChunkCount context.depth spec.typeBytes t).elementCount) :
    spec.outputElement
        (c * spec.rawChunkCount + (progress spec.rawChunkCount context.depth s + j)) ≠
      spec.inputElement
        (c' * spec.rawChunkCount + (progress spec.rawChunkCount context.depth t + j')) := by
  intro heq
  have htype := P.typeBytes_pos
  -- an element lies in the row of its slice
  have hrow : ∀ {start chunks s c j : ℕ}, s < context.depth → c < chunks →
      j < (exactSlice spec.rawChunkCount context.depth spec.typeBytes s).elementCount →
      ((.user, start + (c * spec.rawChunkCount +
        (progress spec.rawChunkCount context.depth s + j)) * spec.typeBytes) : Loc) ∈
        rowLocs (start + (context.slice s).byteOffset) context.stageContext.rawChunkBytes
          (context.slice s).bytes chunks := by
    intro start chunks s c j hs hc hj
    have hbytes : (context.slice s).bytes =
        (exactSlice spec.rawChunkCount context.depth spec.typeBytes s).elementCount *
          spec.typeBytes := by
      rw [P.slice_eq hs]
      rfl
    have hlt := Nat.mul_lt_mul_of_pos_right hj htype
    have hsum : start + (c * spec.rawChunkCount +
        (progress spec.rawChunkCount context.depth s + j)) * spec.typeBytes =
        start + progress spec.rawChunkCount context.depth s * spec.typeBytes +
          c * (spec.rawChunkCount * spec.typeBytes) + j * spec.typeBytes := by ring
    refine ⟨rfl, c, hc, ?_⟩
    rw [P.byteOffset_eq hs, P.rawChunkBytes, hbytes, hsum]
    omega
  have hdisjoint := P.rows_disjoint (by omega) hs ht hst
  unfold outputRows inputRows at hdisjoint
  rw [P.spec_eq] at hdisjoint
  have hin := @hrow spec.input _ _ _ _ ht hc' hj'
  have hout := @hrow spec.output _ _ _ _ hs hc hj
  rw [outputElement, inputElement] at heq
  rw [← heq] at hin
  exact Set.disjoint_left.mp hdisjoint hout hin

end Prepared

end Coccl
