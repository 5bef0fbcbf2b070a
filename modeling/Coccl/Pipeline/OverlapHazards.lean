import Coccl.Pipeline.FramedOrder

/-!
# Where the overlapped run goes wrong

A pipeline that is not `OverlapSafe` has a legal order that is not as good as the serial run:

* without a later stage that exchanges no frames nothing is unpacked, and the user's stream goes on
  at once (`resumes_early`);
* an unpack step that reads more rows than the last stage wrote reads something else;
* a direct output that reaches into the input of a later slice may be written before or after that
  slice was packed.
-/

namespace Coccl

open Streams PipelineContext Footprint List PipelineStream

namespace PipelineContext

variable {κ : Type} {context : PipelineContext κ}

/-! ## The items of the programs -/

/-- What the executor enqueues behind the hand-over from the user's stream; `unpacks` says whether
the unpack steps are among it. -/
inductive Enqueued (context : PipelineContext κ) (unpacks : Prop) : PipelineItem → Prop
  | packSlot (s) (hin : context.stagesInput = true) (hslot : context.reusesInputRaw = true) :
      Enqueued context unpacks ⟨.phase 0, .wait (.inputRawConsumed (rawSlot s))⟩
  | pack (s) : Enqueued context unpacks ⟨.phase 0, .work (.at s .pack)⟩
  | packed (s) : Enqueued context unpacks ⟨.phase 0, .record (.phase 0 s)⟩
  | stageWait (s k) : Enqueued context unpacks ⟨.phase (1 + k), .wait (.phase k s)⟩
  | stageSlot (s k) (hslot : context.reusesOutputRaw = true) :
      Enqueued context unpacks ⟨.phase (1 + k), .wait (.outputRawConsumed (rawSlot s))⟩
  | stage (s k) (hk : k < context.stageCount) :
      Enqueued context unpacks ⟨.phase (1 + k), .work (.at s (.stage k))⟩
  | prepare (s k) (hpos : 0 < k) :
      Enqueued context unpacks ⟨.phase (1 + k), .work (.at s (.prepare k))⟩
  | commit (s k) (hpos : 0 < k) :
      Enqueued context unpacks ⟨.phase (1 + k), .work (.at s (.commit k))⟩
  | inputFree (s) : Enqueued context unpacks ⟨.phase 1, .record (.inputRawConsumed (rawSlot s))⟩
  | staged (s k) (hk : k < context.stageCount) :
      Enqueued context unpacks ⟨.phase (1 + k), .record (.phase (1 + k) s)⟩
  | unpack {z} (hunpacks : unpacks) (s) (h : z ∈ context.unpackItems s) :
      Enqueued context unpacks z
  | completed : Enqueued context unpacks ⟨.user, .wait (.phase (if context.stagesOutput then
      cocclPipelinePhaseUnpack else context.finalStagePhase) (context.depth - 1))⟩
  | resume : Enqueued context unpacks ⟨.user, .work .resume⟩

section

variable {unpacks : Prop} {z : PipelineItem} {s k : ℕ}

theorem enqueued_packItems (h : z ∈ context.packItems s) : Enqueued context unpacks z := by
  obtain ⟨hin, ⟨⟨hslot, -⟩, rfl⟩ | rfl | rfl⟩ := mem_packItems.mp h
  exacts [.packSlot s hin hslot, .pack s, .packed s]

theorem enqueued_stageItems (hk : k < context.stageCount) (h : z ∈ context.stageItems s k) :
    Enqueued context unpacks z := by
  obtain ⟨-, rfl⟩ | ⟨⟨hslot, -⟩, rfl⟩ | rfl | ⟨⟨-, rfl⟩, rfl⟩ | rfl := mem_stageItems.mp h
  exacts [.stageWait s k, .stageSlot s k hslot, .stage s k hk, .inputFree s, .staged s k hk]

theorem enqueued_exchange (hpos : k ≠ 0) (hk : k < context.stageCount)
    (h : z ∈ prepareItems k s ++ commitItems k s) : Enqueued context unpacks z := by
  have hphase : cocclPipelinePhaseFirstStage + k - 1 = k := by
    simp [cocclPipelinePhaseFirstStage]
  simp only [prepareItems, commitItems, hphase, cons_append, nil_append, mem_cons,
    not_mem_nil, or_false] at h
  have hpos := pos_of_ne_zero hpos
  obtain rfl | rfl | rfl | rfl := h
  exacts [.stageWait s k, .prepare s k hpos, .commit s k hpos, .staged s k hk]

theorem enqueued_completionItems (h : z ∈ context.completionItems) :
    Enqueued context unpacks z := by
  simp only [completionItems, mem_cons, not_mem_nil, or_false] at h
  obtain rfl | rfl := h
  exacts [.completed, .resume]

end

/-- A program of the executor: the hand-over, then the items of the slices. -/
def Enqueues (context : PipelineContext κ) (unpacks : Prop) (prog : List PipelineItem) : Prop :=
  ∃ body, prog = context.startItems ++ body ∧ ∀ z ∈ body, Enqueued context unpacks z

theorem enqueues_runOverlap : Enqueues context True context.runOverlap := by
  refine ⟨_, append_assoc _ _ _, fun z hz => ?_⟩
  rcases mem_append.mp hz with hz | hz
  · obtain ⟨s, -, hz⟩ := mem_flatMap.mp hz
    rcases mem_append.mp hz with hz | hz
    · rcases mem_append.mp hz with hz | hz
      · exact enqueued_packItems hz
      · obtain ⟨k, hk, hz⟩ := mem_flatMap.mp hz
        exact enqueued_stageItems (mem_range.mp hk) hz
    · exact .unpack trivial s hz
  · exact enqueued_completionItems hz

theorem firstStageItems_sublist (s : ℕ) :
    (context.firstStageItems s).Sublist (context.stageItems s 0) := by
  unfold firstStageItems stageItems
  refine List.Sublist.append (List.Sublist.append (List.Sublist.append ?_ (.refl _)) (.refl _))
    (.refl _)
  exact sublist_append_left _ _

theorem enqueues_runFramedOverlap (hpos : 0 < context.stageCount) :
    Enqueues context (1 < context.stageCount ∧
      context.usesFrameExchange (context.stageCount - 1) = false) context.runFramedOverlap := by
  rw [runFramedOverlap_eq hpos]
  refine ⟨_, append_assoc _ _ _, fun z hz => ?_⟩
  rcases mem_append.mp hz with hz | hz
  · obtain ⟨k, hk, hz⟩ := mem_flatMap.mp hz
    have hk := mem_range.mp hk
    by_cases hzero : k = 0
    · subst hzero
      obtain ⟨s, -, hz⟩ := mem_flatMap.mp hz
      rcases mem_append.mp hz with hz | hz
      · exact enqueued_packItems hz
      · exact enqueued_stageItems hk ((firstStageItems_sublist s).subset hz)
    · cases hex : context.usesFrameExchange k with
      | true =>
        rw [framedBlock_exchange hex] at hz
        rcases mem_append.mp hz with hz | hz
        · obtain ⟨s, -, hz⟩ := mem_flatMap.mp hz
          exact enqueued_exchange hzero hk (mem_append_left _ hz)
        · obtain ⟨s, -, hz⟩ := mem_flatMap.mp hz
          exact enqueued_exchange hzero hk (mem_append_right _ hz)
      | false =>
        rw [framedBlock, if_neg hzero, framedStageItems, hex] at hz
        obtain ⟨s, -, hz⟩ := mem_flatMap.mp hz
        rw [laterStageItems_eq hzero] at hz
        rcases mem_append.mp hz with hz | hunpack
        · exact enqueued_stageItems hk hz
        · split_ifs at hunpack with hlast
          · obtain rfl : k = context.stageCount - 1 := by omega
            exact .unpack ⟨by omega, hex⟩ s hunpack
          · cases hunpack
  · exact enqueued_completionItems hz

/-! ## The streams of the items -/

variable {unpacks : Prop} {z : PipelineItem}

/-- The user's stream waits for the last phase and goes on with the user's work. -/
theorem Enqueued.of_user (h : Enqueued context unpacks z) (huser : z.stream = .user) :
    z = ⟨.user, .wait (.phase (if context.stagesOutput then cocclPipelinePhaseUnpack
      else context.finalStagePhase) (context.depth - 1))⟩ ∨ z = ⟨.user, .work .resume⟩ := by
  cases h with
  | unpack _ s h =>
    obtain ⟨-, rfl | rfl | ⟨-, rfl⟩ | ⟨-, rfl⟩⟩ := mem_unpackItems.mp h <;> cases huser
  | completed => exact .inl rfl
  | resume => exact .inr rfl
  | _ => cases huser

theorem Enqueued.stream_of_resume (h : Enqueued context unpacks z)
    (hwork : z.work? = some .resume) : z.stream = .user := by
  cases h with
  | unpack _ s h =>
    obtain ⟨-, rfl | rfl | ⟨-, rfl⟩ | ⟨-, rfl⟩⟩ := mem_unpackItems.mp h <;> cases hwork
  | resume => rfl
  | _ => cases hwork

/-- Every record is enqueued on its event's stream. -/
theorem Enqueued.recorded (h : Enqueued context unpacks z) {e : PipelineEvent}
    (he : z.cmd = .record e) : z.stream = e.stream := by
  cases h with
  | unpack _ s h => exact recordedBy_unpackItems s z h e he
  | packed | inputFree | staged =>
    cases he
    rfl
  | _ => cases he

/-- Without unpack steps nothing records their phase. -/
theorem Enqueued.not_record_unpack (hstages : context.stageCount ≤ kCocclPipelineExplicitStages)
    (hno : ¬unpacks) (h : Enqueued context unpacks z) (s : ℕ) :
    z.cmd ≠ .record (.phase cocclPipelinePhaseUnpack s) := by
  intro hcmd
  cases h with
  | staged s k hk =>
    simp only [Cmd.record.injEq, PipelineEvent.phase.injEq, cocclPipelinePhaseUnpack,
      kCocclPipelinePhysicalStages, kCocclPipelineExplicitStages] at hcmd hstages
    omega
  | unpack hunpacks => exact hno hunpacks
  | _ => cases hcmd

/-- **Without its unpack steps the run of a staged output lets the user go on at once.** -/
theorem resumes_early {prog : List PipelineItem} (hprog : Enqueues context unpacks prog)
    (hstages : context.stageCount ≤ kCocclPipelineExplicitStages) (hno : ¬unpacks)
    (hout : context.stagesOutput = true) {op : WorkOp} (hop : op ≠ .resume)
    (hmem : op ∈ hostWorks prog) : ¬context.OverlapCorrect prog := by
  intro hcorrect
  obtain ⟨body, rfl, hbody⟩ := hprog
  obtain ⟨order, hlegal, early, late, hworks, hearly, hlate⟩ :=
    @exists_legal_streams_first _ _ _ ⟨.user, .record .inputReady⟩
      (⟨.phase (if context.stagesInput then cocclPipelinePhasePack
        else cocclPipelinePhaseFirstStage), .wait .inputReady⟩ :: body) rfl (· = .user) (by
      intro y hy huser e hwait x hx hrecord
      have huser : y.stream = .user := by simpa using huser
      rcases mem_cons.mp hy with rfl | hy
      · cases hwait
      rcases mem_cons.mp hy with rfl | hy
      · cases huser
      -- the user's stream waits for the phase of the unpack steps, which nobody records
      rcases (hbody y hy).of_user huser with rfl | rfl
      · rw [if_pos hout] at hwait
        cases hwait
        rcases mem_cons.mp hx with rfl | hx
        · cases hrecord
        · exact absurd hrecord ((hbody x hx).not_record_unpack hstages hno _)
      · cases hwait)
  have hresumes := hcorrect.resumes order hlegal op (hlegal.works_perm.mem_iff.mpr hmem) hop
  change [op, .resume].Sublist (works (_ :: _ :: body) order) at hresumes
  rw [hworks] at hresumes
  have hnotEarly : op ∉ early := by
    intro h
    obtain ⟨x, hx, hwork, huser⟩ := hearly op h
    have huser : x.stream = .user := by simpa using huser
    rcases mem_cons.mp hx with rfl | hx
    · cases huser
    · rcases (hbody x hx).of_user huser with rfl | rfl
      · cases hwork
      · exact hop (Option.some.inj hwork).symm
  rcases pair_sublist_append_iff.mp hresumes with h | ⟨h, -⟩ | h
  · exact hnotEarly (h.subset (by simp))
  · exact hnotEarly h
  · obtain ⟨x, hx, hwork, huser⟩ := hlate .resume (h.subset (by simp))
    rcases mem_cons.mp hx with rfl | hx
    · cases hwork
    · exact huser (by simpa using (hbody x hx).stream_of_resume hwork)

/-! ## A direct output over a later input -/

/-- The streams that feed the stages behind the first one. -/
def feedsStages (context : PipelineContext κ) (stream : PipelineStream) : Bool :=
  stream = .phase 0 ∨ (1 < context.stageCount ∧ stream = .phase 1)

/-- The streams of the pack step and of the first stage run only those. -/
theorem Enqueued.work_of_feedsStages (h : Enqueued context unpacks z)
    (hout : context.stagesOutput = false) (hstream : context.feedsStages z.stream = true)
    {w : WorkOp} (hwork : z.work? = some w) :
    ∃ u, w = .at u .pack ∨ (1 < context.stageCount ∧ w = .at u (.stage 0)) := by
  simp only [feedsStages, decide_eq_true_eq] at hstream
  cases h with
  | pack s =>
    cases hwork
    exact ⟨s, .inl rfl⟩
  | stage s k =>
    cases hwork
    simp only [phase.injEq] at hstream
    obtain rfl : k = 0 := by omega
    exact ⟨s, .inr ⟨by omega, rfl⟩⟩
  | prepare s k hpos | commit s k hpos =>
    simp only [phase.injEq] at hstream
    omega
  | unpack _ s h => simp [(mem_unpackItems.mp h).1] at hout
  | resume => simp at hstream
  | _ => cases hwork

theorem Enqueued.feedsStages_of_firstStep (h : Enqueued context unpacks z)
    (hne : context.firstStep ≠ context.finalStep) {t : ℕ}
    (hwork : z.work? = some (.at t context.firstStep)) : context.feedsStages z.stream = true := by
  have hfirst : context.firstStep = .pack ∨ context.firstStep = .stage 0 := by
    unfold firstStep
    split <;> simp
  simp only [feedsStages, decide_eq_true_eq]
  cases h with
  | pack => simp
  | stage s k hk =>
    have hstep : Step.stage k = context.firstStep := (WorkOp.at.inj (Option.some.inj hwork)).2
    rw [← hstep] at hfirst hne
    obtain rfl : k = 0 := by simpa using hfirst
    -- a single stage would be the final step as well
    refine .inr ⟨not_le.mp fun hle => hne ?_, rfl⟩
    simp [finalStep, payloadWriter, show context.stageCount - 1 = 0 by omega, usesFrameExchange]
  | prepare | commit =>
    simp at hwork
    simp [← hwork.2] at hfirst
  | unpack _ s h =>
    obtain ⟨-, rfl | rfl | ⟨-, rfl⟩ | ⟨-, rfl⟩⟩ := mem_unpackItems.mp h <;> simp at hwork
    simp [← hwork.2] at hfirst
  | _ => cases hwork

/-- The pack step and the first of several stages do not write the user's buffers. -/
theorem not_user_of_feeds (hshape : Prepared.TempShape context) {u : ℕ} {w : WorkOp}
    (hw : w = .at u .pack ∨ (1 < context.stageCount ∧ w = .at u (.stage 0))) {l : Loc}
    (hl : l ∈ context.writes w) : l.1 ≠ .user := by
  have htemp : ∀ s i, (context.tempPtr s i).1 ≠ .user := by
    intro s i
    unfold tempPtr
    simp only
    split <;> simp
  rcases hw with rfl | ⟨hlt, rfl⟩
  · simp only [PipelineContext.writes, stepWrites] at hl
    split at hl
    · have hspace : l.1 = (context.tempPtr u _).1 := hl.1
      exact hspace ▸ htemp _ _
    · cases hl
  · have ht := hshape.outputTemp 0 (by omega)
    rw [if_pos (.inl (by omega))] at ht
    simp only [PipelineContext.writes, stepWrites, payloadLocs, payload, frameLocs, frameMetadata,
      ht] at hl
    rcases hl with hl | hl
    · have hspace : l.1 = (context.tempPtr u _).1 := hl.1
      exact hspace ▸ htemp _ _
    · split_ifs at hl
      · cases hl
      · have hspace : l.1 = (context.tempPtr u _).1 := hl.1
        exact hspace ▸ htemp _ _

end PipelineContext

section

variable {κ : Type} [DecidableEq κ] {plugins : κ → Plugin} {spec : PipelineSpec κ}
  {requestedDepth : ℤ} {context : PipelineContext κ} {chunks : List ℕ} {requireSerial : Bool}
  {logical : PipelinePlan} {unpacks : Prop} {prog : List PipelineItem}

namespace Prepared

variable (P : Prepared plugins spec requestedDepth context chunks requireSerial logical)

include P

/-- The streams of the pack step and the first stage wait for none behind them. -/
theorem feedsStages_closed (hout : context.stagesOutput = false) {y : PipelineItem}
    (hy : Enqueued context unpacks y) (hstream : context.feedsStages y.stream = true)
    {e : PipelineEvent} (hwait : y.cmd = .wait e) : context.feedsStages e.stream = true := by
  simp only [feedsStages, decide_eq_true_eq] at hstream ⊢
  have hreuse : context.reusesOutputRaw = false := by simp [reusesOutputRaw, hout]
  cases hy with
  | packSlot s hin hslot =>
    cases hwait
    -- a single stage has no ring for its input
    refine .inr ⟨not_le.mp fun hle => ?_, rfl⟩
    have hpos := P.stageCount_pos
    simp only [reusesInputRaw, decide_eq_true_eq] at hslot
    exact P.workspaceKind_unified (by omega) hin hout hslot.1
  | stageWait s k =>
    cases hwait
    simp only [phase.injEq] at hstream
    obtain rfl : k = 0 := by omega
    exact .inl rfl
  | stageSlot s k hslot => simp [hreuse] at hslot
  | unpack _ s h => simp [(mem_unpackItems.mp h).1] at hout
  | completed => simp at hstream
  | _ => cases hwait

theorem outputTemp_final (hout : context.stagesOutput = false) :
    context.outputTemp (context.stageCount - 1) = none := by
  have hpos := P.stageCount_pos
  rw [P.tempShape.outputTemp _ (by omega), if_neg]
  simp [hout]
  omega

/-- A direct output goes to the user's buffer. -/
theorem finalStep_writes (hout : context.stagesOutput = false) (s : ℕ) :
    context.stepWrites s context.finalStep ⊆
      (Region.mk .user (context.spec.output + (context.slice s).byteOffset)
        (context.outputBytes s (context.stageCount - 1))).locs := by
  have ht := P.outputTemp_final hout
  have hmem : context.finalStep ∈ context.stageSteps (context.stageCount - 1) := by
    rw [mem_stageSteps]
    unfold finalStep payloadWriter
    cases context.usesFrameExchange (context.stageCount - 1) <;> simp
  have hsub := @stageSteps_writes _ context s _ _ hmem
  rw [frameLocs, frameMetadata, ht, Set.union_empty, payloadLocs, payload, ht] at hsub
  exact hsub

/-- **A correct run does not write its output over the input of a later slice.** -/
theorem direct_of_correct (hprog : Enqueues context unpacks prog)
    (hcorrect : context.OverlapCorrect prog) (hout : context.stagesOutput = false)
    (hne : context.firstStep ≠ context.finalStep) {s t : ℕ} (hst : s < t) (ht : t < context.depth)
    (hmem : .at t context.firstStep ∈ hostWorks prog) :
    Disjoint (context.stepWrites s context.finalStep) (context.stepReads t context.firstStep) := by
  refine Set.disjoint_left.mpr fun l hwrite hread => ?_
  obtain ⟨body, rfl, hbody⟩ := hprog
  -- run the pack step and the first stage of all slices first
  obtain ⟨order, hlegal, early, late, hworks, hearly, hlate⟩ :=
    @exists_legal_streams_first _ _ _ ⟨.user, .record .inputReady⟩
      (⟨.phase (if context.stagesInput then cocclPipelinePhasePack
        else cocclPipelinePhaseFirstStage), .wait .inputReady⟩ :: body) rfl context.feedsStages (by
      intro y hy hstream e hwait x hx hrecord
      rcases mem_cons.mp hx with rfl | hx
      · cases hrecord
      have hstream' := (hbody x hx).recorded hrecord
      rcases mem_cons.mp hy with rfl | hy
      · cases hwait
      rcases mem_cons.mp hy with rfl | hy
      · cases hwait
        rcases (hbody x hx).of_user hstream' with rfl | rfl <;> cases hrecord
      · rw [hstream']
        exact P.feedsStages_closed hout (hbody y hy) hstream hwait)
  have hop : .at t context.firstStep ∈ early := by
    have hall := hlegal.works_perm.mem_iff.mpr hmem
    rw [hworks] at hall
    refine (mem_append.mp hall).resolve_right fun h => ?_
    obtain ⟨x, hx, hwork, hstream⟩ := hlate _ h
    rcases mem_cons.mp hx with rfl | hx
    · cases hwork
    · exact hstream ((hbody x hx).feedsStages_of_firstStep hne hwork)
  obtain ⟨before, after, rfl⟩ := append_of_mem hop
  have hpair : [.at s context.finalStep, .at t context.firstStep].Sublist context.serialWorks :=
    pair_sublist_flatMap_iff.mpr (.inl ⟨s, t, pair_sublist_range_iff.mpr ⟨hst, ht⟩,
      mem_map.mpr ⟨_, P.finalStep_mem, rfl⟩, mem_map.mpr ⟨_, P.firstStep_mem, rfl⟩⟩)
  obtain ⟨serialBefore, serialAfter, hserial, hfinal⟩ := pair_sublist_split hpair
  -- let every step leave ones in a memory of zeros
  let ops : WorkOp → Op Loc UInt8 :=
    fun op => .fill (context.reads op) (context.writes op) 1
  have hagree := hcorrect.reads ops (fun op => ⟨rfl, rfl⟩) order hlegal (fun _ => 0) _ before
    (after ++ late) serialBefore serialAfter (by rw [← cons_append, ← append_assoc]
                                                 exact hworks) hserial l hread
  have hones : run ops serialBefore (fun _ => 0) l = 1 :=
    run_fill (fun op => ⟨_, _, rfl⟩) (.inr ⟨_, hfinal, hwrite⟩)
  have hzeros : run ops before (fun _ => 0) l = 0 := by
    refine run_frame ops (fun w hw hl => ?_) _
    obtain ⟨x, hx, hwork, hstream⟩ := hearly w (mem_append_left _ hw)
    rcases mem_cons.mp hx with rfl | hx
    · cases hwork
    obtain ⟨u, hu⟩ := (hbody x hx).work_of_feedsStages hout hstream hwork
    refine not_user_of_feeds P.tempShape hu hl ?_
    exact (P.finalStep_writes hout s hwrite).1
  rw [hzeros, hones] at hagree
  cases hagree

end Prepared

end

end Coccl
