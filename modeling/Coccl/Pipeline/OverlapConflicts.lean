import Coccl.Pipeline.Overlap

/-!
# Conflicts between the slices

Two steps of different slices touch the same bytes only in a slot of one of the two rings, or in the
user's buffers between a first and a last step. The order of `Ordered` covers each of them
(`Prepared.conflict_ordered`).
-/

namespace Coccl

open Streams PipelineContext

section

variable {κ : Type} {context : PipelineContext κ} {l : Loc} {s t k : ℕ} {a b step : Step}

/-! ## Which temporaries a step touches -/

/-- A step touches the temporary its stage writes and the one before it. -/
def PipelineContext.TouchesTemp (context : PipelineContext κ) : Step → ℕ → Prop
  | .pack, i => i = 0 ∧ context.stagesInput = true
  | .stage k, i | .prepare k, i | .commit k, i =>
    i = context.firstTemp + k ∨ i + 1 = context.firstTemp + k
  | .unpack, i => i + 1 = context.firstTemp + context.stageCount

theorem touchesTemp_iff {i : ℕ} (h : step ∈ context.stageSteps k) :
    context.TouchesTemp step i ↔ i = context.firstTemp + k ∨ i + 1 = context.firstTemp + k := by
  rcases mem_stageSteps.mp h with ⟨-, rfl | rfl⟩ | ⟨-, rfl⟩ <;> rfl

theorem tempLocs_not_user {i : ℕ} (hl : l ∈ context.tempLocs s i) : l.1 ≠ .user := by
  have hspace : l.1 = (context.tempPtr s i).1 := hl.1
  rw [hspace]
  unfold tempPtr
  simp only
  split <;> simp

/-- The unpack step stays inside the last stage's output when the output holds all its rows. -/
theorem unpackSource_subset :
    (context.unpackSource s).locs ⊆ context.payloadLocs s (context.stageCount - 1) ↔
      context.plan.finalChunks * (context.slice s).bytes ≤
        context.outputBytes s (context.stageCount - 1) := by
  have hbytes : (context.payload s (context.stageCount - 1)).bytes =
      context.outputBytes s (context.stageCount - 1) := by
    unfold payload
    split <;> rfl
  constructor
  · intro hsub
    by_contra hlt
    -- the first byte behind the output
    have hmem : ((context.payload s (context.stageCount - 1)).space,
        (context.payload s (context.stageCount - 1)).start +
          context.outputBytes s (context.stageCount - 1)) ∈ (context.unpackSource s).locs :=
      ⟨rfl, Nat.le_add_right _ _, Nat.add_lt_add_left (not_le.mp hlt) _⟩
    have hin := (hsub hmem).2.2
    rw [hbytes] at hin
    exact lt_irrefl _ hin
  · intro hle
    refine Region.subset_of_le rfl le_rfl ?_
    rw [hbytes]
    exact Nat.add_le_add_left hle _

namespace Prepared

theorem usesFrameExchange_pos (h : context.usesFrameExchange k = true) : 0 < k := by
  rcases k with _ | k
  · simp [usesFrameExchange] at h
  · exact Nat.succ_pos k

theorem stageSteps_writes (hc : step ∈ context.stageSteps k) :
    context.stepWrites s step ⊆ context.payloadLocs s k ∪ context.frameLocs s k := by
  rcases mem_stageSteps.mp hc with ⟨-, rfl | rfl⟩ | ⟨-, rfl⟩
  · exact Set.subset_union_right
  · exact Set.subset_union_left
  · exact subset_rfl

theorem payloadWriter_mem (hk : k < context.stageCount) :
    context.payloadWriter k ∈ context.sliceSteps := by
  refine mem_sliceSteps.mpr (.inr (.inl ⟨k, hk, mem_stageSteps.mpr ?_⟩))
  unfold payloadWriter
  cases context.usesFrameExchange k <;> simp

theorem payloadWriter_key (k : ℕ) : context.stepKey (context.payloadWriter k) = 2 * k + 2 := by
  unfold payloadWriter
  split <;> rfl

variable {prog : List PipelineItem} (O : context.Ordered prog) (hn : (hostWorks prog).Nodup)

section

include O hn

/-- A step precedes a later step of its slice in every later slice. -/
theorem precedes_later (hst : s < t) (ht : t < context.depth) 
    (ha : a ∈ context.sliceSteps) (hb : b ∈ context.sliceSteps)
    (hab : a = b ∨ context.stepKey a < context.stepKey b) :
    Precedes prog (.at s a) (.at t b) := by
  rcases hab with rfl | hab
  · exact O.step s t hst ht a ha
  · exact (O.slice s (by omega) a b (sliceSteps_pair ha hb hab)).trans hn (O.step s t hst ht b hb)

/-- A step precedes what waits for it two slices later, and everything of that step after. -/
theorem precedes_slot (hst : s + 2 ≤ t) (ht : t < context.depth) 
    (ha : a ∈ context.sliceSteps)
    (hslot : ∀ s, s + 2 < context.depth → Precedes prog (.at s a) (.at (s + 2) b)) :
    Precedes prog (.at s a) (.at t b) := by
  obtain ⟨t, rfl⟩ : ∃ t', t = t' + 2 := ⟨t - 2, by omega⟩
  rcases Nat.eq_or_lt_of_le (show s ≤ t by omega) with rfl | hlt
  · exact hslot s ht
  · exact (O.step s t hlt (by omega) a ha).trans hn (hslot t ht)

end

variable [DecidableEq κ] {plugins : κ → Plugin} {spec : PipelineSpec κ} {requestedDepth : ℤ}
  {chunks : List ℕ} {requireSerial : Bool} {logical : PipelinePlan}
  (P : Prepared plugins spec requestedDepth context chunks requireSerial logical)

include P

/-- The output of a stage lies in the temporary of the stage, or in the user's buffer where the
last stage writes it directly. -/
theorem output_cases (hs : s < context.depth) (hk : k < context.stageCount)
    (hl : l ∈ context.payloadLocs s k ∪ context.frameLocs s k) :
    (l.1 = .user ∧ k + 1 = context.stageCount ∧ context.stagesOutput = false ∧
        l ∈ context.payloadLocs s k) ∨
      (context.firstTemp + k < context.plan.temps.length ∧
        l ∈ context.tempLocs s (context.firstTemp + k)) := by
  rcases ht : context.outputTemp k with _ | t
  · left
    have hcond := P.tempShape.outputTemp k hk
    rw [ht] at hcond
    have hframes : context.frameLocs s k = ∅ := by simp [frameLocs, frameMetadata, ht]
    rw [hframes, Set.union_empty] at hl
    have huser : l.1 = .user := by
      have := hl.1
      rwa [payload, ht] at this
    split_ifs at hcond with h
    rw [not_or, Bool.not_eq_true] at h
    exact ⟨huser, by omega, h.2, hl⟩
  · right
    obtain ⟨rfl, hlt, -⟩ := P.stageTemp hs hk ht
    refine ⟨hlt, ?_⟩
    rcases hl with hl | hl
    · exact P.payload_subset hs hk ht hl
    · exact P.frames_subset hs hk ht hl

theorem inner_cases (hs : s < context.depth) (hk : k + 1 < context.stageCount)
    (hl : l ∈ context.payloadLocs s k ∪ context.frameLocs s k) :
    context.firstTemp + k < context.plan.temps.length ∧
      l ∈ context.tempLocs s (context.firstTemp + k) := by
  rcases P.output_cases hs (by omega) hl with ⟨-, h, -⟩ | h
  · omega
  · exact h

theorem frames_cases (hs : s < context.depth) (hk : k < context.stageCount)
    (hl : l ∈ context.frameLocs s k) : context.firstTemp + k < context.plan.temps.length ∧
      l ∈ context.tempLocs s (context.firstTemp + k) := by
  rcases ht : context.outputTemp k with _ | t
  · simp [frameLocs, frameMetadata, ht] at hl
  · obtain ⟨rfl, hlt, -⟩ := P.stageTemp hs hk ht
    exact ⟨hlt, P.frames_subset hs hk ht hl⟩

/-- The packed rows, and the input a first stage reads without packing, are rows of the input. -/
theorem stageInput_cases (hdepth : 1 < context.depth) (hs : s < context.depth)
    (hl : l ∈ context.stageInput s) :
    (l.1 = .user ∧ context.stagesInput = false ∧ l ∈ context.inputRows s) ∨
      (context.stagesInput = true ∧ 0 < context.plan.temps.length ∧ l ∈ context.tempLocs s 0) := by
  unfold stageInput at hl
  rcases ht : context.plan.inputStagingTemp with _ | t
  · left
    rw [ht] at hl
    obtain ⟨hspace, hlo, hhi⟩ := hl
    have hunstaged : context.stagesInput = false := by simp [stagesInput, ht]
    -- an unpacked input of a pipeline of two slices or more has one chunk
    have hone : spec.inputChunks = 1 := by
      have hnot := P.stagesInput_iff.not.mp (by simp [hunstaged])
      have hpos := P.valid.inputChunks_pos
      simp only [StagesInput, not_and_or, not_lt] at hnot
      omega
    obtain ⟨-, hbytes⟩ := P.inputBytes_eq hs
    rw [hone, mul_one] at hbytes
    refine ⟨hspace, hunstaged, hspace, 0, by rw [P.spec_eq, hone]; exact one_pos, ?_, ?_⟩
    · simpa using hlo
    · rw [← hbytes]
      simpa using hhi
  · right
    rw [ht] at hl
    obtain ⟨rfl, hlt, hsub⟩ := P.packed_subset hs ht
    exact ⟨by simp [stagesInput, ht], hlt, hsub hl⟩

/-- What a step reads: rows of the user's input, if it is the first one, or temporaries. -/
theorem reads_cases (hdepth : 1 < context.depth) (hs : s < context.depth)
    (hstep : step ∈ context.sliceSteps) (hl : l ∈ context.stepReads s step)
    (hrows : context.stagesOutput → ∀ slice < context.depth,
      context.plan.finalChunks * (context.slice slice).bytes ≤
        context.outputBytes slice (context.stageCount - 1)) :
    (l.1 = .user ∧ step = context.firstStep ∧ l ∈ context.inputRows s) ∨
      ∃ i < context.plan.temps.length, l ∈ context.tempLocs s i ∧ context.TouchesTemp step i := by
  rcases mem_sliceSteps.mp hstep with ⟨rfl, hin⟩ | ⟨k, hk, hmem⟩ | ⟨rfl, hout⟩
  · exact .inl ⟨hl.1, by simp [firstStep, hin], hl⟩
  · -- a stage reads the output of the stage before it, an exchange its own metadata too
    have hprev : ∀ {l}, 0 < k → l ∈ context.payloadLocs s (k - 1) ∪ context.frameLocs s (k - 1) →
        ∃ i < context.plan.temps.length, l ∈ context.tempLocs s i ∧
          context.TouchesTemp step i := by
      intro l hpos hl
      obtain ⟨hlt, hmem'⟩ := P.inner_cases hs (by omega) hl
      exact ⟨_, hlt, hmem', (touchesTemp_iff hmem).mpr (.inr (by omega))⟩
    rcases mem_stageSteps.mp hmem with ⟨hex, rfl | rfl⟩ | ⟨hex, rfl⟩
    · exact .inr (hprev (usesFrameExchange_pos hex) (.inr hl))
    · right
      rcases hl with hl | hl
      · exact hprev (usesFrameExchange_pos hex) hl
      · obtain ⟨hlt, hmem⟩ := P.frames_cases hs hk hl
        exact ⟨_, hlt, hmem, .inl rfl⟩
    · rcases k with _ | k
      · rcases P.stageInput_cases hdepth hs hl with ⟨huser, hin, hrow⟩ | ⟨hin, hlt, hmem⟩
        · exact .inl ⟨huser, by simp [firstStep, hin], hrow⟩
        · exact .inr ⟨0, hlt, hmem, .inr (by simp [firstTemp, hin])⟩
      · exact .inr (hprev (Nat.succ_pos k) hl)
  · right
    have hpos := P.stageCount_pos
    have hsub := unpackSource_subset.mpr (hrows hout s hs)
    rcases P.output_cases hs (by omega) (.inl (hsub hl)) with ⟨-, -, hno, -⟩ | ⟨hlt, hmem⟩
    · simp [hno] at hout
    · exact ⟨_, hlt, hmem, show _ + 1 = _ by omega⟩

/-- What a step writes: the user's output, if it is the last one, or a temporary. -/
theorem writes_cases (hs : s < context.depth) (hstep : step ∈ context.sliceSteps)
    (hl : l ∈ context.stepWrites s step) :
    (l.1 = .user ∧ step = context.lastStep) ∨
      ∃ i < context.plan.temps.length, l ∈ context.tempLocs s i ∧ context.TouchesTemp step i := by
  rcases mem_sliceSteps.mp hstep with ⟨rfl, hin⟩ | ⟨k, hk, hmem⟩ | ⟨rfl, hout⟩
  · right
    rcases ht : context.plan.inputStagingTemp with _ | t
    · simp [stagesInput, ht] at hin
    · simp only [stepWrites, ht] at hl
      obtain ⟨rfl, hlt, hsub⟩ := P.packed_subset hs ht
      exact ⟨0, hlt, hsub hl, rfl, hin⟩
  · rcases P.output_cases hs hk (stageSteps_writes hmem hl) with
      ⟨huser, hlast, hno, -⟩ | ⟨hlt, hmem'⟩
    · left
      obtain rfl : k = context.stageCount - 1 := by omega
      rcases mem_stageSteps.mp hmem with ⟨hex, rfl | rfl⟩ | ⟨hex, rfl⟩
      · exact absurd huser (tempLocs_not_user (P.frames_cases hs hk hl).2)
      all_goals exact ⟨huser, by simp [lastStep, hno, finalStep, payloadWriter, hex]⟩
    · exact .inr ⟨_, hlt, hmem', (touchesTemp_iff hmem).mpr (.inl rfl)⟩
  · exact .inl ⟨hl.1, by simp [lastStep, hout]⟩

/-- Which steps touch a ring. -/
theorem ring_cases (hstep : step ∈ context.sliceSteps) {i : ℕ} (hi : i < context.plan.temps.length)
    (htouch : context.TouchesTemp step i) (hring : context.InRing i) :
    (context.reusesInputRaw = true ∧ i + 1 = context.firstTemp ∧ (step = .pack ∨ step = .stage 0)) ∨
      (context.reusesOutputRaw = true ∧ i + 1 = context.firstTemp + context.stageCount ∧
        (step ∈ context.stageSteps (context.stageCount - 1) ∨ step = .unpack)) := by
  obtain ⟨hkind, hboundary⟩ := P.inRing_boundary hi hring
  have hshape := P.tempShape
  have hpos := P.stageCount_pos
  rcases hboundary with hin | hout
  · left
    rw [hshape.inputStagingTemp] at hin
    split_ifs at hin with hstaged
    obtain rfl := Option.some.inj hin
    have hfirst : context.firstTemp = 1 := by simp [firstTemp, hstaged]
    refine ⟨by simp [reusesInputRaw, hkind, hstaged], hfirst.symm, ?_⟩
    rcases mem_sliceSteps.mp hstep with ⟨rfl, -⟩ | ⟨k, hk, hmem⟩ | ⟨rfl, -⟩
    · exact .inl rfl
    · right
      rw [touchesTemp_iff hmem] at htouch
      obtain rfl : k = 0 := by omega
      rcases mem_stageSteps.mp hmem with ⟨hex, -⟩ | ⟨-, rfl⟩
      · simp [usesFrameExchange] at hex
      · rfl
    · simp only [TouchesTemp] at htouch
      omega
  · right
    rw [hshape.outputStagingTemp] at hout
    split_ifs at hout with hstaged
    have hindex := Option.some.inj hout
    refine ⟨by simp [reusesOutputRaw, hkind, hstaged], by omega, ?_⟩
    rcases mem_sliceSteps.mp hstep with ⟨rfl, -⟩ | ⟨k, hk, hmem⟩ | ⟨rfl, -⟩
    · obtain ⟨rfl, hin⟩ := htouch
      have hfirst : context.firstTemp = 1 := by simp [firstTemp, hin]
      omega
    · left
      rw [touchesTemp_iff hmem] at htouch
      obtain rfl : k = context.stageCount - 1 := by omega
      exact hmem
    · exact .inr rfl

theorem touches_cases (safe : OverlapSafe plugins context) (hdepth : 1 < context.depth)
    (hs : s < context.depth) (hstep : step ∈ context.sliceSteps)
    (hl : l ∈ context.stepReads s step ∪ context.stepWrites s step) (huser : l.1 ≠ .user) :
    ∃ i < context.plan.temps.length, l ∈ context.tempLocs s i ∧ context.TouchesTemp step i := by
  rcases hl with hl | hl
  · exact (P.reads_cases hdepth hs hstep hl safe.rows).resolve_left fun h => huser h.1
  · exact (P.writes_cases hs hstep hl).resolve_left fun h => huser h.1

/-! ## The order covers the conflicts -/

theorem stage_zero_mem : .stage 0 ∈ context.sliceSteps :=
  mem_sliceSteps.mpr (.inr (.inl ⟨0, P.stageCount_pos, mem_stageSteps.mpr (.inr ⟨rfl, rfl⟩)⟩))

theorem firstStep_mem : context.firstStep ∈ context.sliceSteps := by
  unfold firstStep
  split
  · exact mem_sliceSteps.mpr (.inl ⟨rfl, ‹_›⟩)
  · exact P.stage_zero_mem

theorem finalStep_mem : context.finalStep ∈ context.sliceSteps :=
  payloadWriter_mem (Nat.sub_lt P.stageCount_pos one_pos)

theorem lastStep_mem : context.lastStep ∈ context.sliceSteps := by
  unfold lastStep
  split
  · exact mem_sliceSteps.mpr (.inr (.inr ⟨rfl, ‹_›⟩))
  · exact P.finalStep_mem

theorem firstStep_le_lastStep : context.firstStep = context.lastStep ∨
      context.stepKey context.firstStep < context.stepKey context.lastStep := by
  have hkey : context.stepKey context.firstStep ≤ context.stepKey context.lastStep := by
    have hfirst : context.stepKey context.firstStep ≤ 2 := by
      unfold firstStep
      split <;> simp [stepKey]
    have hpos := P.stageCount_pos
    have hlast : 2 ≤ context.stepKey context.lastStep := by
      unfold lastStep
      split
      · simp only [stepKey]
        omega
      · rw [finalStep, payloadWriter_key]
        omega
    omega
  rcases Nat.eq_or_lt_of_le hkey with h | h
  · exact .inl (stepKey_inj P.firstStep_mem P.lastStep_mem h)
  · exact .inr h

variable (safe : OverlapSafe plugins context) (hdepth : 1 < context.depth) (hst : s < t)
  (ht : t < context.depth) (ha : a ∈ context.sliceSteps) (hb : b ∈ context.sliceSteps)
  (hl : (l ∈ context.stepWrites s a ∧ l ∈ context.stepReads t b ∪ context.stepWrites t b) ∨
    (l ∈ context.stepWrites t b ∧ l ∈ context.stepReads s a ∪ context.stepWrites s a))

include safe hdepth hst ht ha hb hl

/-- In the user's buffers a last step writes, and a first or a last step touches. -/
theorem user_ordered (hlater : a = b ∨ context.stepKey a < context.stepKey b →
    Precedes prog (.at s a) (.at t b)) (huser : l.1 = .user) :
    Precedes prog (.at s a) (.at t b) := by
  have hs : s < context.depth := by omega
  have hreads : ∀ {u c}, u < context.depth → c ∈ context.sliceSteps →
      l ∈ context.stepReads u c → c = context.firstStep ∧ l ∈ context.inputRows u := by
    intro u c hu hc hlc
    rcases P.reads_cases hdepth hu hc hlc safe.rows with ⟨-, h⟩ | ⟨i, -, hi, -⟩
    · exact h
    · exact absurd huser (tempLocs_not_user hi)
  have hwrites : ∀ {u c}, u < context.depth → c ∈ context.sliceSteps →
      l ∈ context.stepWrites u c → c = context.lastStep := by
    intro u c hu hc hlc
    rcases P.writes_cases hu hc hlc with ⟨-, h⟩ | ⟨i, -, hi, -⟩
    · exact h
    · exact absurd huser (tempLocs_not_user hi)
  rcases hl with ⟨hwa, hrb | hwb⟩ | ⟨hwb, hra | hwa⟩
  · -- a later slice would read what an earlier one writes
    obtain rfl := hwrites hs ha hwa
    obtain ⟨rfl, hrow⟩ := hreads ht hb hrb
    by_cases hout : context.stagesOutput = true
    · have hlast : context.lastStep = .unpack := by simp [lastStep, hout]
      rw [hlast] at hwa
      exact absurd hrow (Set.disjoint_left.mp
        (P.rows_disjoint hdepth hs ht (ne_of_lt hst)) hwa)
    · have hlast : context.lastStep = context.finalStep := by simp [lastStep, hout]
      by_cases hsame : context.firstStep = context.finalStep
      · exact hlater (.inl (by rw [hlast, hsame]))
      · rw [hlast] at hwa
        exact absurd hrb (Set.disjoint_left.mp
          (safe.direct (by simpa using hout) hsame s t hst ht) hwa)
  · exact hlater (.inl ((hwrites hs ha hwa).trans (hwrites ht hb hwb).symm))
  · obtain rfl := hwrites ht hb hwb
    obtain ⟨rfl, -⟩ := hreads hs ha hra
    exact hlater P.firstStep_le_lastStep
  · exact hlater (.inl ((hwrites hs ha hwa).trans (hwrites ht hb hwb).symm))

include O hn

/-- **Steps of different slices that meet in memory run in the order of their slices.** -/
theorem conflict_ordered (hexchange : context.stagesOutput = true →
      context.usesFrameExchange (context.stageCount - 1) = false) :
    Precedes prog (.at s a) (.at t b) := by
  have hs : s < context.depth := by omega
  have hlater := precedes_later O hn hst ht ha hb
  by_cases huser : l.1 = .user
  · exact P.user_ordered safe hdepth hst ht ha hb hl hlater huser
  -- the workspace: both steps touch one slot of one ring
  have hla : l ∈ context.stepReads s a ∪ context.stepWrites s a := by
    rcases hl with ⟨h, -⟩ | ⟨-, h⟩
    · exact .inr h
    · exact h
  have hlb : l ∈ context.stepReads t b ∪ context.stepWrites t b := by
    rcases hl with ⟨-, h⟩ | ⟨h, -⟩
    · exact h
    · exact .inr h
  obtain ⟨i, hi, hli, htouch⟩ := P.touches_cases safe hdepth hs ha hla huser
  obtain ⟨j, hj, hlj, htouch'⟩ := P.touches_cases safe hdepth ht hb hlb huser
  have hring : context.InRing i ∧ i = j ∧ rawSlot s = rawSlot t := by
    by_contra h
    exact Set.disjoint_left.mp (P.tempLocs_disjoint (ne_of_lt hst) hi hj h) hli hlj
  obtain ⟨hring, rfl, hslot⟩ := hring
  have hfar : s + 2 ≤ t := by
    simp only [rawSlot, kCocclPipelineRawRingSlots] at hslot
    omega
  have hpos := P.stageCount_pos
  rcases P.ring_cases ha hi htouch hring with ⟨hin, hindex, ha'⟩ | ⟨hout, hindex, ha'⟩ <;>
    rcases P.ring_cases hb hi htouch' hring with ⟨-, hindex', hb'⟩ | ⟨-, hindex', hb'⟩
  · rcases ha' with rfl | rfl <;> rcases hb' with rfl | rfl
    · exact hlater (.inl rfl)
    · exact hlater (.inr (by simp [stepKey]))
    · exact precedes_slot O hn hfar ht ha (O.inputSlot hin)
    · exact hlater (.inl rfl)
  · omega
  · omega
  · -- the last stage exchanges no frames, so it is one step
    have hfinal : ∀ {c}, c ∈ context.stageSteps (context.stageCount - 1) →
        c = .stage (context.stageCount - 1) := by
      intro c hc
      rcases mem_stageSteps.mp hc with ⟨hex, -⟩ | ⟨-, h⟩
      · rw [hexchange (stagesOutput_of_reuses hout)] at hex
        cases hex
      · exact h
    rcases ha' with ha' | rfl <;> rcases hb' with hb' | rfl
    · exact hlater (.inl ((hfinal ha').trans (hfinal hb').symm))
    · obtain rfl := hfinal ha'
      refine hlater (.inr ?_)
      simp only [stepKey]
      omega
    · obtain rfl := hfinal hb'
      exact precedes_slot O hn hfar ht ha (O.outputSlot hout)
    · exact hlater (.inl rfl)

end Prepared

end

end Coccl
