import Coccl.Pipeline.OverlapOrder

/-!
# The order of the framed run

`runFramedOverlap` takes a stage through all slices before the next one, and enqueues metadata
rounds before payload rounds. It keeps the order of `Ordered` where the unpack step, if there is
one, follows a later stage that exchanges no frames.
-/

namespace Coccl

open Streams PipelineContext List

namespace PipelineContext

variable {κ : Type} {context : PipelineContext κ}

/-- What `runFramedOverlap` enqueues for one stage. -/
def framedBlock (context : PipelineContext κ) (stage : ℕ) : List PipelineItem :=
  if stage = 0 then
    (List.range context.depth).flatMap fun slice =>
      context.packItems slice ++ context.firstStageItems slice
  else context.framedStageItems stage

theorem runFramedOverlap_eq (hpos : 0 < context.stageCount) : context.runFramedOverlap =
    context.startItems ++ (List.range context.stageCount).flatMap context.framedBlock ++
      context.completionItems := by
  obtain ⟨n, hn⟩ : ∃ n, context.stageCount = n + 1 := ⟨context.stageCount - 1, by omega⟩
  have hlater : (List.range' 1 n).flatMap context.framedBlock =
      (List.range' 1 n).flatMap context.framedStageItems := by
    refine flatMap_congr fun k hk => if_neg ?_
    have := (mem_range'_1.mp hk).1
    omega
  have hrange : List.range (n + 1) = 0 :: List.range' 1 n := by
    rw [range_eq_range', range'_succ]
  rw [runFramedOverlap, hn, Nat.add_sub_cancel, hrange, flatMap_cons, hlater]
  simp only [framedBlock, if_pos, append_assoc]

variable {k : ℕ}

/-- A part of a stage is a part of the run. -/
theorem sublist_runFramedOverlap (hk : k < context.stageCount) {l : List PipelineItem}
    (h : l.Sublist (context.framedBlock k)) : l.Sublist context.runFramedOverlap := by
  rw [runFramedOverlap_eq (by omega)]
  exact ((sublist_flatMap_range hk h).trans (sublist_append_right _ _)).trans
    (sublist_append_left _ _)

/-! ## The blocks in terms of the plain stages -/

theorem laterStageItems_eq (hk : k ≠ 0) (s : ℕ) : context.laterStageItems k s =
    context.stageItems s k ++ if k + 1 = context.stageCount then context.unpackItems s else [] := by
  simp [laterStageItems, stageItems, inputSlotItems, hk]

/-- What a slice contributes to a stage that exchanges no frames. -/
def framedSlice (context : PipelineContext κ) (k s : ℕ) : List PipelineItem :=
  (if k = 0 then context.packItems s else []) ++ context.stageItems s k ++
    if k + 1 = context.stageCount then context.unpackItems s else []

theorem framedBlock_exchange (hex : context.usesFrameExchange k = true) :
    context.framedBlock k = (List.range context.depth).flatMap (prepareItems k) ++
      (List.range context.depth).flatMap (commitItems k) := by
  have hpos := Prepared.usesFrameExchange_pos hex
  rw [framedBlock, if_neg (by omega), framedStageItems, if_pos hex]

theorem stageItems_framedSlice (k s : ℕ) :
    (context.stageItems s k).Sublist (context.framedSlice k s) :=
  (sublist_append_right _ _).trans (sublist_append_left _ _)

theorem packItems_framedSlice (s : ℕ) : (context.packItems s).Sublist (context.framedSlice 0 s) :=
  (sublist_append_left _ _).trans (sublist_append_left _ _)

theorem unpackItems_framedSlice (hpos : 0 < context.stageCount) (s : ℕ) :
    (context.unpackItems s).Sublist (context.framedSlice (context.stageCount - 1) s) := by
  rw [framedSlice, if_pos (show context.stageCount - 1 + 1 = _ by omega)]
  exact sublist_append_right _ _

/-- The steps a slice takes in a stage, with the pack before the first one and the unpack after
the last one. -/
def framedSteps (context : PipelineContext κ) (k : ℕ) : List Step :=
  (if k = 0 then if context.stagesInput then [.pack] else [] else []) ++ context.stageSteps k ++
    if k = context.stageCount - 1 then if context.stagesOutput then [.unpack] else [] else []

theorem framedSteps_perm (hpos : 0 < context.stageCount) :
    ((List.range context.stageCount).flatMap context.framedSteps).Perm context.sliceSteps := by
  refine (flatMap_append_perm _ _ _).symm.trans ?_
  rw [flatMap_range_single (show context.stageCount - 1 < _ by omega)]
  refine List.Perm.append ((flatMap_append_perm _ _ _).symm.trans ?_) (.refl _)
  rw [flatMap_range_single hpos]

variable (hstaged : context.stagesOutput = true →
  1 < context.stageCount ∧ context.usesFrameExchange (context.stageCount - 1) = false)

include hstaged

theorem firstStageItems_eq (s : ℕ) : context.firstStageItems s = context.stageItems s 0 := by
  have hslot : context.outputSlotItems s 0 = [] := by
    refine if_neg fun h => ?_
    have := (hstaged (stagesOutput_of_reuses h.1)).1
    omega
  simp [firstStageItems, stageItems, hslot]

theorem framedBlock_plain (hk : k < context.stageCount)
    (hex : context.usesFrameExchange k = false) :
    context.framedBlock k = (List.range context.depth).flatMap (context.framedSlice k) := by
  unfold framedBlock framedSlice
  by_cases hzero : k = 0
  · subst hzero
    rw [if_pos rfl]
    refine flatMap_congr fun s _ => ?_
    have hunpack : (if 0 + 1 = context.stageCount then context.unpackItems s else []) = [] := by
      split_ifs with hone
      · have hno : ¬context.stagesOutput = true := fun hout => by
          have := (hstaged hout).1
          omega
        simp [unpackItems, hno]
      · rfl
    rw [hunpack, firstStageItems_eq hstaged, append_nil, if_pos rfl]
  · rw [if_neg hzero, framedStageItems, hex]
    refine flatMap_congr fun s _ => ?_
    rw [laterStageItems_eq hzero, if_neg hzero, nil_append]

/-! ## Records and hand-overs -/

theorem recordedBy_framedBlock (hk : k < context.stageCount) :
    RecordedBy (context.framedBlock k) := by
  cases hex : context.usesFrameExchange k with
  | true =>
    rw [framedBlock_exchange hex, recordedBy_append, recordedBy_flatMap, recordedBy_flatMap]
    refine ⟨fun s _ z hz e he => ?_, fun s _ z hz e he => ?_⟩
    · simp only [prepareItems, mem_cons, not_mem_nil, or_false] at hz
      rcases hz with rfl | rfl <;> cases he
    · simp only [commitItems, mem_cons, not_mem_nil, or_false] at hz
      rcases hz with rfl | rfl <;> cases he
      rfl
  | false =>
    rw [framedBlock_plain hstaged hk hex, recordedBy_flatMap]
    intro s _
    rw [framedSlice, recordedBy_append, recordedBy_append]
    refine ⟨⟨?_, recordedBy_stageItems s k⟩, ?_⟩
    · split_ifs
      · exact recordedBy_packItems s
      · simp [RecordedBy]
    · split_ifs
      · exact recordedBy_unpackItems s
      · simp [RecordedBy]

/-- A stage records its phase behind the payload of a slice. -/
theorem framedBlock_record {k s : ℕ} (hk : k < context.stageCount) (hs : s < context.depth) :
    [executeStage (1 + k) s (context.payloadWriter k), recordPhase (1 + k) s].Sublist
      (context.framedBlock k) := by
  cases hex : context.usesFrameExchange k with
  | true =>
    rw [framedBlock_exchange hex, payloadWriter, if_pos hex]
    exact (sublist_flatMap_range hs (.refl (commitItems k s))).trans (sublist_append_right _ _)
  | false =>
    rw [framedBlock_plain hstaged hk hex, payloadWriter, hex]
    exact sublist_flatMap_range hs ((stageItems_record s k).trans (stageItems_framedSlice k s))

/-- A later stage waits for the phase before it, slice by slice. -/
theorem framedBlock_wait {k s : ℕ} (hk : k < context.stageCount) (hzero : k ≠ 0)
    (hs : s < context.depth) :
    [waitForPhase (1 + k) k s, executeStage (1 + k) s (context.framesWriter k)].Sublist
      (context.framedBlock k) := by
  cases hex : context.usesFrameExchange k with
  | true =>
    rw [framedBlock_exchange hex, framesWriter, if_pos hex]
    refine (sublist_flatMap_range hs ?_).trans (sublist_append_left _ _)
    simp [prepareItems, cocclPipelinePhaseFirstStage]
  | false =>
    rw [framedBlock_plain hstaged hk hex, framesWriter, hex]
    exact sublist_flatMap_range hs
      ((stageItems_wait (.inl hzero)).trans (stageItems_framedSlice k s))

/-! ## The work of the framed run -/

theorem hostWorks_framedBlock (hk : k < context.stageCount) :
    (hostWorks (context.framedBlock k)).Perm
      ((List.range context.depth).flatMap fun s => (context.framedSteps k).map (.at s)) := by
  cases hex : context.usesFrameExchange k with
  | true =>
    -- all metadata rounds, then all payload rounds
    have hnz : k ≠ 0 := by
      have := Prepared.usesFrameExchange_pos hex
      omega
    have hsteps : context.framedSteps k = [.prepare k, .commit k] := by
      have hunpack : (if k = context.stageCount - 1 then
          if context.stagesOutput then [Step.unpack] else [] else []) = [] := by
        split_ifs with hlast hout
        · rw [hlast, (hstaged hout).2] at hex
          cases hex
        · rfl
        · rfl
      rw [framedSteps, hunpack, if_neg hnz, stageSteps, if_pos hex]
      rfl
    rw [framedBlock_exchange hex, hostWorks_append, hostWorks_flatMap, hostWorks_flatMap, hsteps]
    exact flatMap_append_perm _ _ _
  | false =>
    rw [framedBlock_plain hstaged hk hex, hostWorks_flatMap]
    refine List.Perm.of_eq (flatMap_congr fun s _ => ?_)
    rw [framedSlice, framedSteps, hostWorks_append, hostWorks_append, hostWorks_stageItems,
      map_append, map_append, stageSteps, hex]
    have hlast : k + 1 = context.stageCount ↔ k = context.stageCount - 1 := by omega
    congr 2
    · split_ifs <;> simp_all [hostWorks_packItems]
    · simp only [hlast]
      split_ifs <;> simp_all [hostWorks_unpackItems]

/-! ## The order -/

variable (hpos : 0 < context.stageCount)

include hpos

theorem recordedBy_runFramedOverlap :
    RecordedBy context.runFramedOverlap := by
  rw [runFramedOverlap_eq hpos, recordedBy_append, recordedBy_append, recordedBy_flatMap]
  exact ⟨⟨recordedBy_startItems, fun k hk =>
    recordedBy_framedBlock hstaged (mem_range.mp hk)⟩, recordedBy_completionItems⟩

theorem hostWorks_runFramedOverlap :
    (hostWorks context.runFramedOverlap).Perm (context.serialWorks ++ [.resume]) := by
  rw [runFramedOverlap_eq hpos, hostWorks_append, hostWorks_append, hostWorks_flatMap]
  refine List.Perm.append ?_ (.refl _)
  have hstages := List.Perm.flatMap_left (List.range context.stageCount) fun k hk =>
    hostWorks_framedBlock hstaged (mem_range.mp hk)
  refine hstages.trans ((flatMap_swap_perm _ _ _).trans ?_)
  refine List.Perm.flatMap_left _ fun s _ => ?_
  rw [← map_flatMap]
  exact (framedSteps_perm hpos).map _

theorem runFramedOverlap_linked :
    context.Linked context.runFramedOverlap where
  pack := fun hin s hs => by
    refine precedes_pack (recordedBy_runFramedOverlap hstaged hpos) hin
      (sublist_runFramedOverlap hpos ?_)
    rw [framedBlock_plain hstaged hpos rfl]
    exact sublist_flatMap_range hs (sublist_append_left _ _)
  next := fun s hs k hk => by
    refine @precedes_handover _ (recordedBy_runFramedOverlap hstaged hpos)
      (.phase (1 + (k + 1))) (.phase (1 + k) s) _ _ ?_
    rw [runFramedOverlap_eq hpos]
    refine List.Sublist.trans ?_ ((sublist_append_right _ _).trans (sublist_append_left _ _))
    refine append_sublist_flatMap_range (Nat.lt_succ_self k) hk
      (framedBlock_record hstaged (by omega) hs) ?_
    rw [Nat.add_comm 1 k]
    exact framedBlock_wait hstaged hk (Nat.succ_ne_zero k) hs
  exchange := fun s hs k hk hex => by
    refine precedes_of_stream (s := .phase (1 + k)) (sublist_runFramedOverlap hk ?_)
    rw [framedBlock_exchange hex]
    refine pair_sublist_append_iff.mpr (.inr (.inl ⟨?_, ?_⟩)) <;>
      exact mem_flatMap.mpr ⟨s, mem_range.mpr hs, by
        simp [prepareItems, commitItems, executeStage, cocclPipelinePhaseFirstStage]⟩
  unpack := fun hout s hs => by
    obtain ⟨-, hex⟩ := hstaged hout
    have hlast : context.stageCount - 1 < context.stageCount := by omega
    rw [finalStep, payloadWriter, hex]
    refine precedes_unpack (recordedBy_runFramedOverlap hstaged hpos) hpos hout
      (sublist_runFramedOverlap hlast ?_)
    rw [framedBlock_plain hstaged hlast hex]
    refine sublist_flatMap_range hs (.append (sublist_append_right _ _) ?_)
    rw [if_pos (show context.stageCount - 1 + 1 = _ by omega)]

/-- A step is enqueued slice by slice. -/
theorem runFramedOverlap_step {s t : ℕ} (hst : s < t) (ht : t < context.depth)
    {a : Step} (ha : a ∈ context.sliceSteps) :
    [executeStage (stepPhase a) s a, executeStage (stepPhase a) t a].Sublist
      context.runFramedOverlap := by
  have hloop : ∀ {f : ℕ → List PipelineItem}, (∀ u, executeStage (stepPhase a) u a ∈ f u) →
      [executeStage (stepPhase a) s a, executeStage (stepPhase a) t a].Sublist
        ((List.range context.depth).flatMap f) := fun hf =>
    append_sublist_flatMap_range hst ht (singleton_sublist.mpr (hf s))
      (singleton_sublist.mpr (hf t))
  rcases mem_sliceSteps.mp ha with ⟨rfl, hin⟩ | ⟨k, hk, hmem⟩ | ⟨rfl, hout⟩
  · refine sublist_runFramedOverlap hpos ?_
    rw [framedBlock_plain hstaged hpos rfl]
    exact hloop fun u => ((packItems_record hin).trans (packItems_framedSlice u)).subset
      (by simp [stepPhase, cocclPipelinePhasePack])
  · refine sublist_runFramedOverlap hk ?_
    rcases mem_stageSteps.mp hmem with ⟨hex, rfl | rfl⟩ | ⟨hex, rfl⟩
    · rw [framedBlock_exchange hex]
      exact (hloop fun u => by simp [prepareItems, stepPhase]).trans (sublist_append_left _ _)
    · rw [framedBlock_exchange hex]
      exact (hloop fun u => by simp [commitItems, stepPhase]).trans (sublist_append_right _ _)
    · rw [framedBlock_plain hstaged hk hex]
      exact hloop fun u => ((stageItems_record u k).trans (stageItems_framedSlice k u)).subset
        (by simp [stepPhase, cocclPipelinePhaseFirstStage])
  · have hlast : context.stageCount - 1 < context.stageCount := by omega
    refine sublist_runFramedOverlap hlast ?_
    rw [framedBlock_plain hstaged hlast (hstaged hout).2]
    exact hloop fun u => ((unpackItems_wait hout).trans (unpackItems_framedSlice hpos u)).subset
      (by simp [stepPhase])

/-- **`runFramedOverlap` keeps the order** where the unpack follows a later plain stage. -/
theorem runFramedOverlap_ordered (hdepth : 0 < context.depth) :
    context.Ordered context.runFramedOverlap where
  works_perm := hostWorks_runFramedOverlap hstaged hpos
  slice := fun s hs a b hab =>
    (runFramedOverlap_linked hstaged hpos).slice
      ((hostWorks_runFramedOverlap hstaged hpos).nodup_iff.mpr serialWorks_nodup) hpos hs hab
  step := fun s t hst ht a ha => precedes_of_stream (runFramedOverlap_step hstaged hpos hst ht ha)
  inputSlot := fun hreuse s hs => by
    refine precedes_inputSlot (recordedBy_runFramedOverlap hstaged hpos) hreuse
      (sublist_runFramedOverlap hpos ?_)
    rw [framedBlock_plain hstaged hpos rfl]
    exact append_sublist_flatMap_range (by omega) hs (stageItems_framedSlice 0 s)
      (packItems_framedSlice _)
  outputSlot := fun hreuse s hs => by
    have hlast : context.stageCount - 1 < context.stageCount := by omega
    refine precedes_outputSlot (recordedBy_runFramedOverlap hstaged hpos) hpos hreuse
      (sublist_runFramedOverlap hlast ?_)
    rw [framedBlock_plain hstaged hlast (hstaged (stagesOutput_of_reuses hreuse)).2]
    exact append_sublist_flatMap_range (by omega) hs (unpackItems_framedSlice hpos s)
      (stageItems_framedSlice _ _)
  resumes := by
    have hlast : context.stageCount - 1 < context.stageCount := by omega
    refine @precedes_handover _ (recordedBy_runFramedOverlap hstaged hpos) .user
      (.phase (if context.stagesOutput then cocclPipelinePhaseUnpack
        else context.finalStagePhase) (context.depth - 1)) _ _ ?_
    rw [runFramedOverlap_eq hpos]
    refine List.Sublist.append (List.Sublist.trans ?_ (sublist_append_right _ _)) (.refl _)
    refine sublist_flatMap_range hlast ?_
    by_cases hout : context.stagesOutput = true
    · rw [if_pos hout, lastStep, if_pos hout, framedBlock_plain hstaged hlast (hstaged hout).2]
      exact sublist_flatMap_range (show context.depth - 1 < _ by omega)
        ((unpackItems_record hdepth hout).trans (unpackItems_framedSlice hpos _))
    · rw [if_neg hout, lastStep, if_neg hout, finalStep, finalStagePhase_eq hpos]
      exact framedBlock_record hstaged hlast (by omega)

end PipelineContext

end Coccl
