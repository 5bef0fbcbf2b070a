import Coccl.Pipeline.OverlapCorrect

/-!
# The order of the enqueued programs

Both programs keep the order of `PipelineContext.Ordered`: a step hands over to the next one by an
event of its phase, recorded behind the step. Every event has one stream that records it, so the
last record before a wait is never older than the one the wait is for.
-/

namespace Coccl

open Streams PipelineContext List

/-! ## Who records an event -/

/-- The stream that records an event. -/
def PipelineEvent.stream : PipelineEvent → PipelineStream
  | .inputReady => .user
  | .phase p _ => .phase p
  | .inputRawConsumed _ => .phase cocclPipelinePhaseFirstStage
  | .outputRawConsumed _ => .phase cocclPipelinePhaseUnpack

/-- Every record is enqueued on its event's stream. -/
def RecordedBy (items : List PipelineItem) : Prop :=
  ∀ z ∈ items, ∀ e, z.cmd = .record e → z.stream = e.stream

theorem recordedBy_append {xs ys : List PipelineItem} :
    RecordedBy (xs ++ ys) ↔ RecordedBy xs ∧ RecordedBy ys := forall_mem_append

theorem recordedBy_flatMap {ι : Type*} {l : List ι} {f : ι → List PipelineItem} :
    RecordedBy (l.flatMap f) ↔ ∀ i ∈ l, RecordedBy (f i) := by
  simp only [RecordedBy, mem_flatMap]
  constructor
  · intro h i hi z hz
    exact h z ⟨i, hi, hz⟩
  · rintro h z ⟨i, hi, hz⟩
    exact h i hi z hz

/-- A step before a record of an event runs before a step behind a later wait for it. -/
theorem precedes_handover {prog : List PipelineItem} (hrec : RecordedBy prog) {s : PipelineStream}
    {e : PipelineEvent} {v w : WorkOp}
    (h : ([⟨e.stream, .work v⟩, ⟨e.stream, .record e⟩] ++
      [⟨s, .wait e⟩, ⟨s, .work w⟩] : List PipelineItem).Sublist prog) : Precedes prog v w :=
  precedes_of_event (fun z hz hcmd => hrec z hz e hcmd) h

namespace PipelineContext

variable {κ : Type} {context : PipelineContext κ} {k : ℕ} {z : PipelineItem} {s : ℕ}

theorem mem_stageItems : z ∈ context.stageItems s k ↔
    ((k ≠ 0 ∨ context.stagesInput = true) ∧ z = ⟨.phase (1 + k), .wait (.phase k s)⟩) ∨
      ((context.reusesOutputRaw = true ∧ k + 1 = context.stageCount ∧ 2 ≤ s) ∧
        z = ⟨.phase (1 + k), .wait (.outputRawConsumed (rawSlot s))⟩) ∨
      z = ⟨.phase (1 + k), .work (.at s (.stage k))⟩ ∨
      ((context.reusesInputRaw = true ∧ k = 0) ∧
        z = ⟨.phase (1 + k), .record (.inputRawConsumed (rawSlot s))⟩) ∨
      z = ⟨.phase (1 + k), .record (.phase (1 + k) s)⟩ := by
  have hphase : cocclPipelinePhaseFirstStage + k - 1 = k := by
    simp [cocclPipelinePhaseFirstStage]
  unfold stageItems phaseWaitItems outputSlotItems inputSlotItems
  simp only [mem_append, mem_ite_nil_right, mem_singleton, or_assoc, hphase]
  exact Iff.rfl

variable {s : ℕ}

theorem mem_packItems : z ∈ context.packItems s ↔ context.stagesInput = true ∧
      (((context.reusesInputRaw = true ∧ 2 ≤ s) ∧
          z = ⟨.phase 0, .wait (.inputRawConsumed (rawSlot s))⟩) ∨
        z = ⟨.phase 0, .work (.at s .pack)⟩ ∨ z = ⟨.phase 0, .record (.phase 0 s)⟩) := by
  unfold packItems
  simp only [mem_append, mem_ite_nil_right, mem_cons, not_mem_nil, or_false]
  exact Iff.rfl

theorem mem_unpackItems : z ∈ context.unpackItems s ↔
    context.stagesOutput = true ∧
      (z = ⟨.phase cocclPipelinePhaseUnpack, .wait (.phase context.finalStagePhase s)⟩ ∨
        z = ⟨.phase cocclPipelinePhaseUnpack, .work (.at s .unpack)⟩ ∨
        (context.reusesOutputRaw = true ∧
          z = ⟨.phase cocclPipelinePhaseUnpack, .record (.outputRawConsumed (rawSlot s))⟩) ∨
        (s + 1 = context.depth ∧ z = ⟨.phase cocclPipelinePhaseUnpack,
          .record (.phase cocclPipelinePhaseUnpack s)⟩)) := by
  unfold unpackItems
  simp only [mem_append, mem_ite_nil_right, mem_cons, not_mem_nil, or_false, or_assoc]
  exact Iff.rfl

theorem recordedBy_stageItems (s k : ℕ) : RecordedBy (context.stageItems s k) := by
  intro z hz e he
  rcases mem_stageItems.mp hz with ⟨-, rfl⟩ | ⟨-, rfl⟩ | rfl | ⟨⟨-, rfl⟩, rfl⟩ | rfl <;>
    cases he <;> rfl

theorem recordedBy_packItems (s : ℕ) : RecordedBy (context.packItems s) := by
  intro z hz e he
  rcases mem_packItems.mp hz with ⟨-, ⟨-, rfl⟩ | rfl | rfl⟩ <;> cases he
  rfl

theorem recordedBy_unpackItems (s : ℕ) : RecordedBy (context.unpackItems s) := by
  intro z hz e he
  rcases mem_unpackItems.mp hz with ⟨-, rfl | rfl | ⟨-, rfl⟩ | ⟨-, rfl⟩⟩ <;> cases he <;> rfl

theorem recordedBy_startItems : RecordedBy context.startItems := by
  intro z hz e he
  simp only [startItems, mem_cons, not_mem_nil, or_false] at hz
  rcases hz with rfl | rfl <;> cases he
  rfl

theorem recordedBy_completionItems : RecordedBy context.completionItems := by
  intro z hz e he
  simp only [completionItems, mem_cons, not_mem_nil, or_false] at hz
  rcases hz with rfl | rfl <;> cases he

/-! ## What the blocks of a slice contain -/

theorem rawSlot_add_two (s : ℕ) : rawSlot (s + 2) = rawSlot s := Nat.add_mod_right s 2

theorem finalStagePhase_eq (hpos : 0 < context.stageCount) :
    context.finalStagePhase = 1 + (context.stageCount - 1) := by
  simp only [finalStagePhase, cocclPipelinePhaseFirstStage]
  omega

theorem stageItems_record (s k : ℕ) :
    [executeStage (1 + k) s (.stage k), recordPhase (1 + k) s].Sublist
      (context.stageItems s k) := by
  unfold stageItems
  exact pair_sublist_append_iff.mpr (.inr (.inl (by simp [cocclPipelinePhaseFirstStage])))

theorem stageItems_wait (h : k ≠ 0 ∨ context.stagesInput = true) :
    [waitForPhase (1 + k) k s, executeStage (1 + k) s (.stage k)].Sublist
      (context.stageItems s k) := by
  unfold stageItems phaseWaitItems
  rw [if_pos h]
  have hphase : cocclPipelinePhaseFirstStage + k - 1 = k := by
    simp [cocclPipelinePhaseFirstStage]
  rw [hphase]
  refine List.Sublist.trans ?_ (sublist_append_left _ _)
  refine List.Sublist.trans ?_ (sublist_append_left _ _)
  exact pair_sublist_append_iff.mpr (.inr (.inl (by simp [cocclPipelinePhaseFirstStage])))

theorem stageItems_inputSlot (h : context.reusesInputRaw = true) :
    [executeStage 1 s (.stage 0), ⟨.phase 1, .record (.inputRawConsumed (rawSlot s))⟩].Sublist
      (context.stageItems s 0) := by
  unfold stageItems inputSlotItems
  rw [if_pos ⟨h, rfl⟩]
  refine List.Sublist.trans ?_ (sublist_append_left _ _)
  exact pair_sublist_append_iff.mpr (.inr (.inl (by simp [cocclPipelinePhaseFirstStage])))

theorem stageItems_outputSlot (h : context.reusesOutputRaw = true) (hpos : 0 < context.stageCount)
    (hs : 2 ≤ s) :
    [⟨.phase context.stageCount, .wait (.outputRawConsumed (rawSlot s))⟩,
      executeStage context.stageCount s (.stage (context.stageCount - 1))].Sublist
      (context.stageItems s (context.stageCount - 1)) := by
  unfold stageItems outputSlotItems
  have hlast : context.stageCount - 1 + 1 = context.stageCount := by omega
  have hphase : cocclPipelinePhaseFirstStage + (context.stageCount - 1) = context.stageCount := by
    simp only [cocclPipelinePhaseFirstStage]
    omega
  rw [if_pos ⟨h, hlast, hs⟩, hphase]
  refine List.Sublist.trans ?_ (sublist_append_left _ _)
  refine List.Sublist.trans ?_ (sublist_append_left _ _)
  exact pair_sublist_append_iff.mpr (.inr (.inl (by simp)))

theorem packItems_record (h : context.stagesInput = true) :
    [executeStage 0 s .pack, recordPhase 0 s].Sublist (context.packItems s) := by
  unfold packItems
  rw [if_pos h]
  exact sublist_append_right _ _

theorem packItems_slot (h : context.reusesInputRaw = true) (hs : 2 ≤ s) :
    [⟨.phase 0, .wait (.inputRawConsumed (rawSlot s))⟩, executeStage 0 s .pack].Sublist
      (context.packItems s) := by
  unfold packItems
  rw [if_pos (stagesInput_of_reuses h), if_pos ⟨h, hs⟩]
  exact pair_sublist_append_iff.mpr (.inr (.inl (by simp [cocclPipelinePhasePack])))

theorem unpackItems_wait (h : context.stagesOutput = true) :
    [waitForPhase cocclPipelinePhaseUnpack context.finalStagePhase s,
      executeStage cocclPipelinePhaseUnpack s .unpack].Sublist (context.unpackItems s) := by
  unfold unpackItems
  rw [if_pos h]
  exact (sublist_append_left _ _).trans (sublist_append_left _ _)

theorem unpackItems_slot (h : context.reusesOutputRaw = true) :
    [executeStage cocclPipelinePhaseUnpack s .unpack,
      ⟨.phase cocclPipelinePhaseUnpack, .record (.outputRawConsumed (rawSlot s))⟩].Sublist
      (context.unpackItems s) := by
  unfold unpackItems
  rw [if_pos (stagesOutput_of_reuses h), if_pos h]
  refine List.Sublist.trans ?_ (sublist_append_left _ _)
  exact pair_sublist_append_iff.mpr (.inr (.inl (by simp)))

theorem unpackItems_record (hdepth : 0 < context.depth) (hout : context.stagesOutput = true) :
    [executeStage cocclPipelinePhaseUnpack (context.depth - 1) .unpack,
      recordPhase cocclPipelinePhaseUnpack (context.depth - 1)].Sublist
      (context.unpackItems (context.depth - 1)) := by
  unfold unpackItems
  rw [if_pos hout, if_pos (show context.depth - 1 + 1 = context.depth by omega)]
  exact pair_sublist_append_iff.mpr (.inr (.inl (by simp)))

/-! ## The hand-overs between the blocks -/

section

variable {prog : List PipelineItem} (hrec : RecordedBy prog)

include hrec

theorem precedes_pack (hin : context.stagesInput = true)
    (h : (context.packItems s ++ context.stageItems s 0).Sublist prog) :
    Precedes prog (.at s .pack) (.at s (.stage 0)) := by
  refine @precedes_handover _ hrec (.phase 1) (.phase 0 s) _ _ (List.Sublist.trans ?_ h)
  exact List.Sublist.append (packItems_record hin) (@stageItems_wait _ _ 0 s (.inr hin))

theorem precedes_unpack (hpos : 0 < context.stageCount) (hout : context.stagesOutput = true)
    (h : (context.stageItems s (context.stageCount - 1) ++ context.unpackItems s).Sublist prog) :
    Precedes prog (.at s (.stage (context.stageCount - 1))) (.at s .unpack) := by
  refine @precedes_handover _ hrec (.phase cocclPipelinePhaseUnpack)
    (.phase context.finalStagePhase s) _ _ (List.Sublist.trans ?_ h)
  refine List.Sublist.append ?_ (unpackItems_wait hout)
  rw [finalStagePhase_eq hpos]
  exact stageItems_record s _

theorem precedes_inputSlot (hreuse : context.reusesInputRaw = true)
    (h : (context.stageItems s 0 ++ context.packItems (s + 2)).Sublist prog) :
    Precedes prog (.at s (.stage 0)) (.at (s + 2) .pack) := by
  refine @precedes_handover _ hrec (.phase 0) (.inputRawConsumed (rawSlot s)) _ _
    (List.Sublist.trans ?_ h)
  refine List.Sublist.append (stageItems_inputSlot hreuse) ?_
  rw [← rawSlot_add_two]
  exact packItems_slot hreuse (by omega)

theorem precedes_outputSlot (hpos : 0 < context.stageCount)
    (hreuse : context.reusesOutputRaw = true) (h : (context.unpackItems s ++
      context.stageItems (s + 2) (context.stageCount - 1)).Sublist prog) :
    Precedes prog (.at s .unpack) (.at (s + 2) (.stage (context.stageCount - 1))) := by
  refine @precedes_handover _ hrec (.phase context.stageCount)
    (.outputRawConsumed (rawSlot s)) _ _ (List.Sublist.trans ?_ h)
  refine List.Sublist.append (unpackItems_slot hreuse) ?_
  rw [← rawSlot_add_two]
  exact stageItems_outputSlot hreuse hpos (by omega)

end

/-! ## The work of the blocks -/

theorem hostWorks_packItems (s : ℕ) : hostWorks (context.packItems s) =
    (if context.stagesInput then [Step.pack] else []).map (.at s) := by
  unfold packItems
  split_ifs <;> rfl

theorem hostWorks_stageItems (s k : ℕ) :
    hostWorks (context.stageItems s k) = [.at s (.stage k)] := by
  unfold stageItems phaseWaitItems outputSlotItems inputSlotItems
  split_ifs <;> rfl

theorem hostWorks_unpackItems (s : ℕ) : hostWorks (context.unpackItems s) =
    (if context.stagesOutput then [Step.unpack] else []).map (.at s) := by
  unfold unpackItems
  split_ifs <;> rfl

/-! ## From one step to the next -/

/-- The hand-overs of a program, one for each two neighbouring steps. -/
structure Linked (context : PipelineContext κ) (prog : List PipelineItem) : Prop where
  pack : context.stagesInput = true → ∀ s < context.depth,
    Precedes prog (.at s .pack) (.at s (.stage 0))
  next : ∀ s < context.depth, ∀ k, k + 1 < context.stageCount →
    Precedes prog (.at s (context.payloadWriter k)) (.at s (context.framesWriter (k + 1)))
  exchange : ∀ s < context.depth, ∀ k < context.stageCount, context.usesFrameExchange k = true →
    Precedes prog (.at s (.prepare k)) (.at s (.commit k))
  unpack : context.stagesOutput = true → ∀ s < context.depth,
    Precedes prog (.at s context.finalStep) (.at s .unpack)

variable {prog : List PipelineItem} (L : context.Linked prog) (hn : (hostWorks prog).Nodup)

include L hn

omit hn in
/-- The metadata of a stage is written before its payload, if by another step. -/
theorem Linked.framesWriter (hs : s < context.depth) (hk : k < context.stageCount) :
    context.framesWriter k = context.payloadWriter k ∨
      Precedes prog (.at s (context.framesWriter k)) (.at s (context.payloadWriter k)) := by
  unfold PipelineContext.framesWriter payloadWriter
  by_cases hex : context.usesFrameExchange k = true
  · rw [if_pos hex, if_pos hex]
    exact .inr (L.exchange s hs k hk hex)
  · rw [if_neg hex, if_neg hex]
    exact .inl rfl

/-- Everything up to a stage precedes the stage's payload. -/
theorem Linked.upto (hs : s < context.depth) (hk : k < context.stageCount) {a : Step}
    (ha : a ∈ context.sliceSteps) (hkey : context.stepKey a ≤ 2 * k + 2) :
    a = context.payloadWriter k ∨
      Precedes prog (.at s a) (.at s (context.payloadWriter k)) := by
  -- by induction on the stage: a step of the stage itself, or one up to the stage before
  induction k with
  | zero =>
    rcases mem_sliceSteps.mp ha with ⟨rfl, hin⟩ | ⟨j, -, hmem⟩ | ⟨rfl, -⟩
    · exact .inr (L.pack hin s hs)
    · have := stageSteps_key hmem
      obtain rfl : j = 0 := by omega
      exact .inl (by simpa [stageSteps, payloadWriter, usesFrameExchange] using hmem)
    · simp only [stepKey] at hkey
      omega
  | succ k ih =>
    have hwriter := L.framesWriter hs hk
    by_cases hlow : context.stepKey a ≤ 2 * k + 2
    · right
      have hnext : Precedes prog (.at s (context.payloadWriter k))
          (.at s (context.payloadWriter (k + 1))) := by
        have hstep := L.next s hs k hk
        rcases hwriter with heq | hprec
        · rwa [heq] at hstep
        · exact hstep.trans hn hprec
      rcases ih (by omega) hlow with rfl | hprec
      · exact hnext
      · exact hprec.trans hn hnext
    · have hmem : a ∈ context.stageSteps (k + 1) :=
        Prepared.mem_stageSteps_of_key ha hk (by omega) hkey
      rcases mem_stageSteps.mp hmem with ⟨hex, rfl | rfl⟩ | ⟨hex, rfl⟩
      · right
        rw [payloadWriter, if_pos hex]
        exact L.exchange s hs _ hk hex
      · left
        simp [payloadWriter, hex]
      · left
        simp [payloadWriter, hex]

/-- The hand-overs keep the whole order of a slice. -/
theorem Linked.slice (hpos : 0 < context.stageCount) (hs : s < context.depth) {a b : Step}
    (hab : [a, b].Sublist context.sliceSteps) : Precedes prog (.at s a) (.at s b) := by
  have ha : a ∈ context.sliceSteps := hab.subset (by simp)
  have hb : b ∈ context.sliceSteps := hab.subset (by simp)
  have hkey : context.stepKey a < context.stepKey b := by
    simpa using sliceSteps_pairwise.sublist hab
  rcases mem_sliceSteps.mp hb with ⟨rfl, -⟩ | ⟨k, hk, hmem⟩ | ⟨rfl, hout⟩
  · simp [stepKey] at hkey
  · have hbKey := stageSteps_key hmem
    by_cases hwriter : b = context.payloadWriter k
    · subst hwriter
      refine (L.upto hn hs hk ha (by omega)).resolve_left fun heq => ?_
      rw [heq] at hkey
      exact lt_irrefl _ hkey
    · -- the metadata round of an exchange follows the stage before it
      have hprepare : b = .prepare k ∧ context.usesFrameExchange k = true := by
        rcases mem_stageSteps.mp hmem with ⟨hex, rfl | rfl⟩ | ⟨hex, rfl⟩
        · exact ⟨rfl, hex⟩
        · simp [payloadWriter, hex] at hwriter
        · simp [payloadWriter, hex] at hwriter
      obtain ⟨rfl, hex⟩ := hprepare
      obtain ⟨k, rfl⟩ : ∃ j, k = j + 1 :=
        ⟨k - 1, by have := Prepared.usesFrameExchange_pos hex; omega⟩
      have hnext := L.next s hs k hk
      rw [PipelineContext.framesWriter, if_pos hex] at hnext
      simp only [show context.stepKey (.prepare (k + 1)) = 2 * (k + 1) + 1 from rfl] at hkey
      rcases L.upto hn hs (show k < _ by omega) ha (by omega) with rfl | hprec
      · exact hnext
      · exact hprec.trans hn hnext
  · simp only [show context.stepKey .unpack = 2 * context.stageCount + 1 from rfl] at hkey
    rcases L.upto hn hs (show context.stageCount - 1 < _ by omega) ha (by omega) with rfl | hprec
    · exact L.unpack hout s hs
    · exact hprec.trans hn (L.unpack hout s hs)

omit L hn

/-! ## The slices one after another -/

/-- What `runOverlap` enqueues for one slice. -/
def overlapSlice (context : PipelineContext κ) (slice : ℕ) : List PipelineItem :=
  context.packItems slice ++ (List.range context.stageCount).flatMap (context.stageItems slice) ++
    context.unpackItems slice

theorem runOverlap_eq : context.runOverlap = context.startItems ++
    (List.range context.depth).flatMap context.overlapSlice ++ context.completionItems := rfl

theorem recordedBy_runOverlap : RecordedBy context.runOverlap := by
  rw [runOverlap_eq, recordedBy_append, recordedBy_append, recordedBy_flatMap]
  refine ⟨⟨recordedBy_startItems, fun s _ => ?_⟩, recordedBy_completionItems⟩
  rw [overlapSlice, recordedBy_append, recordedBy_append, recordedBy_flatMap]
  exact ⟨⟨recordedBy_packItems s, fun k _ => recordedBy_stageItems s k⟩, recordedBy_unpackItems s⟩

/-- A part of a slice is a part of the run. -/
theorem sublist_runOverlap (hs : s < context.depth) {l : List PipelineItem}
    (h : l.Sublist (context.overlapSlice s)) : l.Sublist context.runOverlap := by
  rw [runOverlap_eq]
  exact ((sublist_flatMap_range hs h).trans (sublist_append_right _ _)).trans
    (sublist_append_left _ _)

theorem sublist_runOverlap_pair {t : ℕ} (hst : s < t) (ht : t < context.depth)
    {l₁ l₂ : List PipelineItem} (h₁ : l₁.Sublist (context.overlapSlice s))
    (h₂ : l₂.Sublist (context.overlapSlice t)) : (l₁ ++ l₂).Sublist context.runOverlap := by
  rw [runOverlap_eq]
  exact ((append_sublist_flatMap_range hst ht h₁ h₂).trans (sublist_append_right _ _)).trans
    (sublist_append_left _ _)

theorem packItems_sublist (s : ℕ) : (context.packItems s).Sublist (context.overlapSlice s) :=
  (sublist_append_left _ _).trans (sublist_append_left _ _)

theorem stageItems_sublist (hk : k < context.stageCount) :
    (context.stageItems s k).Sublist (context.overlapSlice s) :=
  ((sublist_flatMap_range hk (.refl _)).trans (sublist_append_right _ _)).trans
    (sublist_append_left _ _)

theorem unpackItems_sublist (s : ℕ) : (context.unpackItems s).Sublist (context.overlapSlice s) :=
  sublist_append_right _ _

/-- The phase whose stream runs a step. -/
def stepPhase : Step → ℕ
  | .pack => cocclPipelinePhasePack
  | .stage stage | .prepare stage | .commit stage => cocclPipelinePhaseFirstStage + stage
  | .unpack => cocclPipelinePhaseUnpack

section

variable (hpos : 0 < context.stageCount)
  (hplain : ∀ k < context.stageCount, context.usesFrameExchange k = false)

include hplain

theorem payloadWriter_plain (hk : k < context.stageCount) :
    context.payloadWriter k = .stage k := by simp [payloadWriter, hplain k hk]

theorem framesWriter_plain (hk : k < context.stageCount) :
    context.framesWriter k = .stage k := by simp [framesWriter, hplain k hk]

theorem hostWorks_runOverlap :
    hostWorks context.runOverlap = context.serialWorks ++ [.resume] := by
  rw [runOverlap_eq, hostWorks_append, hostWorks_append, hostWorks_flatMap]
  have hslice : ∀ s, hostWorks (context.overlapSlice s) = context.sliceSteps.map (.at s) := by
    intro s
    rw [overlapSlice, sliceSteps, hostWorks_append, hostWorks_append, hostWorks_flatMap,
      hostWorks_packItems, hostWorks_unpackItems, map_append, map_append,
      map_flatMap]
    congr 2
    refine flatMap_congr fun k hk => ?_
    rw [hostWorks_stageItems, stageSteps, hplain k (mem_range.mp hk)]
    rfl
  simp only [hslice, serialWorks]
  rfl

theorem executeStage_mem_overlapSlice {a : Step} (ha : a ∈ context.sliceSteps) :
    executeStage (stepPhase a) s a ∈ context.overlapSlice s := by
  rcases mem_sliceSteps.mp ha with ⟨rfl, hin⟩ | ⟨k, hk, hmem⟩ | ⟨rfl, hout⟩
  · exact (packItems_sublist s).subset ((packItems_record hin).subset (by simp [stepPhase,
      cocclPipelinePhasePack]))
  · rcases mem_stageSteps.mp hmem with ⟨hex, -⟩ | ⟨-, rfl⟩
    · rw [hplain k hk] at hex
      cases hex
    · exact (stageItems_sublist hk).subset ((stageItems_record s k).subset (by simp [stepPhase,
        cocclPipelinePhaseFirstStage]))
  · exact (unpackItems_sublist s).subset ((unpackItems_wait hout).subset (by simp [stepPhase]))

include hpos in
theorem runOverlap_linked : context.Linked context.runOverlap where
  pack := fun hin s hs => by
    refine precedes_pack recordedBy_runOverlap hin (sublist_runOverlap hs ?_)
    refine List.Sublist.trans ?_ (sublist_append_left _ _)
    exact .append (.refl _) (sublist_flatMap_range hpos (.refl _))
  next := fun s hs k hk => by
    rw [payloadWriter_plain hplain (by omega), framesWriter_plain hplain hk]
    refine @precedes_handover _ recordedBy_runOverlap (.phase (1 + (k + 1))) (.phase (1 + k) s) _ _
      (sublist_runOverlap hs ?_)
    refine List.Sublist.trans ?_ ((sublist_append_right _ _).trans (sublist_append_left _ _))
    refine append_sublist_flatMap_range (Nat.lt_succ_self k) hk (stageItems_record s k) ?_
    rw [Nat.add_comm 1 k]
    exact stageItems_wait (.inl (Nat.succ_ne_zero k))
  exchange := fun s hs k hk hex => by
    rw [hplain k hk] at hex
    cases hex
  unpack := fun hout s hs => by
    have hlast : context.stageCount - 1 < context.stageCount := by omega
    rw [finalStep, payloadWriter_plain hplain hlast]
    refine precedes_unpack recordedBy_runOverlap hpos hout (sublist_runOverlap hs ?_)
    refine .append (List.Sublist.trans ?_ (sublist_append_right _ _)) (.refl _)
    exact sublist_flatMap_range hlast (.refl _)

include hpos in
/-- **`runOverlap` keeps the order** of a pipeline without exchanges of frames. -/
theorem runOverlap_ordered (hdepth : 0 < context.depth) : context.Ordered context.runOverlap where
  works_perm := by rw [hostWorks_runOverlap hplain]
  slice := fun s hs a b hab => by
    refine (runOverlap_linked hpos hplain).slice ?_ hpos hs hab
    rw [hostWorks_runOverlap hplain]
    exact serialWorks_nodup
  step := fun s t hst ht a ha => by
    have hmem : ∀ u, [executeStage (stepPhase a) u a].Sublist (context.overlapSlice u) :=
      fun u => singleton_sublist.mpr (executeStage_mem_overlapSlice hplain ha)
    exact precedes_of_stream (sublist_runOverlap_pair hst ht (hmem s) (hmem t))
  inputSlot := fun hreuse s hs => precedes_inputSlot recordedBy_runOverlap hreuse
    (sublist_runOverlap_pair (by omega) hs (stageItems_sublist hpos) (packItems_sublist _))
  outputSlot := fun hreuse s hs => precedes_outputSlot recordedBy_runOverlap hpos hreuse
    (sublist_runOverlap_pair (by omega) hs (unpackItems_sublist s) (stageItems_sublist (by omega)))
  resumes := by
    refine @precedes_handover _ recordedBy_runOverlap .user (.phase (if context.stagesOutput then
      cocclPipelinePhaseUnpack else context.finalStagePhase) (context.depth - 1)) _ _ ?_
    rw [runOverlap_eq]
    refine List.Sublist.append (List.Sublist.trans ?_ (sublist_append_right _ _)) (.refl _)
    refine sublist_flatMap_range (show context.depth - 1 < _ by omega) ?_
    by_cases hout : context.stagesOutput = true
    · rw [if_pos hout, lastStep, if_pos hout]
      exact (unpackItems_record hdepth hout).trans (unpackItems_sublist _)
    · have hlast : context.stageCount - 1 < context.stageCount := by omega
      rw [if_neg hout, lastStep, if_neg hout, finalStep, payloadWriter_plain hplain hlast,
        finalStagePhase_eq hpos]
      exact (stageItems_record _ _).trans (stageItems_sublist hlast)

end

end PipelineContext

end Coccl
