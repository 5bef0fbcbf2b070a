import Coccl.Pipeline.Regions

/-!
# Cached streams and events

A pipeline that overlaps its slices or exchanges frames takes its streams and events from a cache
keyed by the communicator alone, created for the depth of the first such run.
`PipelineResources.fits_iff` says which programs find everything they use in an entry; `FitsEvery`
follows a sequence of runs.
-/

namespace Coccl

open Streams PipelineContext List

/-! ## Resources -/

/-- What `createResources` creates depends on the depth it is called with. -/
structure PipelineResources where
  depth : ℕ
  deriving DecidableEq, Repr

namespace PipelineResources

/-- The streams and the events that are not null. Of the unpack phase only the last slice has
one. -/
def createdStream : PipelineStream → Bool
  | .user => true
  | .phase phase => phase < kCocclPipelinePhysicalStages

def createdEvent (resources : PipelineResources) : PipelineEvent → Bool
  | .inputReady => true
  | .phase phase slice =>
    phase < kCocclPipelinePhysicalStages && slice < resources.depth &&
      !(phase = cocclPipelinePhaseUnpack && slice ≠ resources.depth - 1)
  | .inputRawConsumed slot | .outputRawConsumed slot => slot < kCocclPipelineRawRingSlots

/-- The item's stream and event exist. -/
def Provides (resources : PipelineResources) (item : PipelineItem) : Prop :=
  createdStream item.stream = true ∧
    match item.cmd with
    | .record event | .wait event => resources.createdEvent event = true
    | .work _ => True

end PipelineResources

/-! ## What a program uses -/

namespace PipelineContext

variable {κ : Type} (context : PipelineContext κ)

/-- An event that a program of this depth may use: of the phases there are, in one of its slices,
and of the unpack phase only that of the last slice and only with a staged output. -/
def UsesEvent : PipelineEvent → Prop
  | .inputReady => True
  | .phase phase slice =>
    phase < kCocclPipelinePhysicalStages ∧ slice < context.depth ∧
      (phase = cocclPipelinePhaseUnpack → context.stagesOutput = true ∧ slice + 1 = context.depth)
  | .inputRawConsumed slot | .outputRawConsumed slot => slot < kCocclPipelineRawRingSlots

def Uses (item : PipelineItem) : Prop :=
  PipelineResources.createdStream item.stream = true ∧
    match item.cmd with
    | .record event | .wait event => context.UsesEvent event
    | .work _ => True

variable {context} {slice stage : ℕ} (hcount : context.stageCount ≤ kCocclPipelineExplicitStages)
  (hpos : 0 < context.stageCount)

theorem rawSlot_lt (slice : ℕ) : rawSlot slice < kCocclPipelineRawRingSlots :=
  Nat.mod_lt slice (by decide)

include hcount

/-- The phase of a stage is neither missing nor the unpack phase. -/
theorem stagePhase_lt (hstage : stage < context.stageCount) :
    cocclPipelinePhaseFirstStage + stage < cocclPipelinePhaseUnpack ∧
      cocclPipelinePhaseFirstStage + stage < kCocclPipelinePhysicalStages := by
  simp only [cocclPipelinePhaseFirstStage, cocclPipelinePhaseUnpack, kCocclPipelinePhysicalStages,
    kCocclPipelineExplicitStages] at *
  omega

include hpos in
theorem finalStagePhase_lt : context.finalStagePhase < cocclPipelinePhaseUnpack ∧
    context.finalStagePhase < kCocclPipelinePhysicalStages := by
  have hlast := stagePhase_lt hcount (Nat.sub_one_lt_of_lt hpos)
  unfold finalStagePhase
  omega

omit hcount

theorem uses_startItems : ∀ item ∈ context.startItems, context.Uses item := by
  intro item hitem
  simp only [startItems, mem_cons, not_mem_nil, or_false] at hitem
  rcases hitem with rfl | rfl
  · exact ⟨rfl, trivial⟩
  · refine ⟨?_, trivial⟩
    cases context.stagesInput <;> rfl

theorem uses_packItems (hslice : slice < context.depth) :
    ∀ item ∈ context.packItems slice, context.Uses item := by
  intro item hitem
  unfold packItems at hitem
  split at hitem
  · simp only [mem_append, mem_cons, not_mem_nil, or_false] at hitem
    rcases hitem with hitem | rfl | rfl
    · obtain rfl := mem_singleton.mp (mem_ite_nil_right.mp hitem).2
      exact ⟨rfl, rawSlot_lt slice⟩
    · exact ⟨rfl, trivial⟩
    · exact ⟨rfl, by decide, hslice, nofun⟩
  · cases hitem

section

variable (hstage : stage < context.stageCount) (hslice : slice < context.depth)
include hcount hstage

theorem stage_stream :
    PipelineResources.createdStream (.phase (cocclPipelinePhaseFirstStage + stage)) = true :=
  decide_eq_true (stagePhase_lt hcount hstage).2

theorem uses_executeStage (step : Step) :
    context.Uses (executeStage (cocclPipelinePhaseFirstStage + stage) slice step) :=
  ⟨stage_stream hcount hstage, trivial⟩

theorem uses_slotItems : ∀ item ∈ context.outputSlotItems slice stage ++
    context.inputSlotItems slice stage, context.Uses item := by
  intro item hitem
  rcases mem_append.mp hitem with hitem | hitem
  · unfold outputSlotItems at hitem
    obtain rfl := mem_singleton.mp (mem_ite_nil_right.mp hitem).2
    exact ⟨stage_stream hcount hstage, rawSlot_lt slice⟩
  · unfold inputSlotItems at hitem
    obtain rfl := mem_singleton.mp (mem_ite_nil_right.mp hitem).2
    exact ⟨stage_stream hcount hstage, rawSlot_lt slice⟩

include hslice

theorem uses_recordPhase :
    context.Uses (recordPhase (cocclPipelinePhaseFirstStage + stage) slice) := by
  obtain ⟨hunpack, hphase⟩ := stagePhase_lt hcount hstage
  exact ⟨stage_stream hcount hstage, hphase, hslice, fun heq => absurd heq hunpack.ne⟩

/-- A stage waits for the stage before it, the first one for the pack phase. -/
theorem uses_waitForPhase : context.Uses (waitForPhase (cocclPipelinePhaseFirstStage + stage)
    (cocclPipelinePhaseFirstStage + stage - 1) slice) := by
  obtain ⟨hunpack, hphase⟩ := stagePhase_lt hcount hstage
  refine ⟨stage_stream hcount hstage, ?_, hslice, fun heq => absurd heq ?_⟩ <;> omega

theorem uses_phaseWaitItems : ∀ item ∈ context.phaseWaitItems slice stage, context.Uses item := by
  intro item hitem
  unfold phaseWaitItems at hitem
  obtain rfl := mem_singleton.mp (mem_ite_nil_right.mp hitem).2
  exact uses_waitForPhase hcount hstage hslice

theorem uses_stageItems : ∀ item ∈ context.stageItems slice stage, context.Uses item := by
  intro item hitem
  simp only [stageItems, mem_append, mem_singleton] at hitem
  rcases hitem with (((hitem | hitem) | rfl) | hitem) | rfl
  · exact uses_phaseWaitItems hcount hstage hslice item hitem
  · exact uses_slotItems hcount hstage item (mem_append_left _ hitem)
  · exact uses_executeStage hcount hstage _
  · exact uses_slotItems hcount hstage item (mem_append_right _ hitem)
  · exact uses_recordPhase hcount hstage hslice

end

include hcount hpos

/-- The unpack phase records the event of the last slice only. -/
theorem uses_unpackItems (hslice : slice < context.depth) :
    ∀ item ∈ context.unpackItems slice, context.Uses item := by
  intro item hitem
  unfold unpackItems at hitem
  split at hitem
  · rename_i hstages
    simp only [mem_append, mem_cons, not_mem_nil, or_false] at hitem
    rcases hitem with ((rfl | rfl) | hitem) | hitem
    · obtain ⟨hunpack, hphase⟩ := finalStagePhase_lt hcount hpos
      exact ⟨rfl, hphase, hslice, fun heq => absurd heq hunpack.ne⟩
    · exact ⟨rfl, trivial⟩
    · obtain rfl := mem_singleton.mp (mem_ite_nil_right.mp hitem).2
      exact ⟨rfl, rawSlot_lt slice⟩
    · obtain ⟨hlast, hitem⟩ := mem_ite_nil_right.mp hitem
      obtain rfl := mem_singleton.mp hitem
      exact ⟨rfl, by decide, hslice, fun _ => ⟨hstages, hlast⟩⟩
  · cases hitem

variable (hdepth : 0 < context.depth)
include hdepth

theorem uses_completionItems : ∀ item ∈ context.completionItems, context.Uses item := by
  intro item hitem
  simp only [completionItems, mem_cons, not_mem_nil, or_false] at hitem
  rcases hitem with rfl | rfl
  · refine ⟨rfl, ?_⟩
    cases hstages : context.stagesOutput with
    | true => exact ⟨Nat.lt_succ_self _, by omega, fun _ => ⟨hstages, by omega⟩⟩
    | false =>
      obtain ⟨hunpack, hphase⟩ := finalStagePhase_lt hcount hpos
      exact ⟨hphase, by omega, fun heq => absurd heq hunpack.ne⟩
  · exact ⟨rfl, trivial⟩

theorem uses_runOverlap : ∀ item ∈ context.runOverlap, context.Uses item := by
  intro item hitem
  simp only [runOverlap, mem_append, mem_flatMap, mem_range] at hitem
  rcases hitem with (hitem | ⟨slice, hslice, (hitem | ⟨stage, hstage, hitem⟩) | hitem⟩) | hitem
  · exact uses_startItems item hitem
  · exact uses_packItems hslice item hitem
  · exact uses_stageItems hcount hstage hslice item hitem
  · exact uses_unpackItems hcount hpos hslice item hitem
  · exact uses_completionItems hcount hpos hdepth item hitem

omit hdepth in
theorem uses_laterStageItems {slice stage : ℕ} (hstage : stage < context.stageCount)
    (hslice : slice < context.depth) :
    ∀ item ∈ context.laterStageItems stage slice, context.Uses item := by
  intro item hitem
  simp only [laterStageItems, mem_append, mem_cons, not_mem_nil, or_false] at hitem
  rcases hitem with ((hitem | hitem) | rfl | rfl) | hitem
  · exact uses_phaseWaitItems hcount hstage hslice item hitem
  · exact uses_slotItems hcount hstage item (mem_append_left _ hitem)
  · exact uses_executeStage hcount hstage _
  · exact uses_recordPhase hcount hstage hslice
  · exact uses_unpackItems hcount hpos hslice item (mem_ite_nil_right.mp hitem).2

omit hdepth in
theorem uses_framedStageItems {stage : ℕ} (hstage : stage < context.stageCount) :
    ∀ item ∈ context.framedStageItems stage, context.Uses item := by
  intro item hitem
  unfold framedStageItems at hitem
  split at hitem
  · simp only [mem_append, mem_flatMap, mem_range, prepareItems, commitItems,
      mem_cons, not_mem_nil, or_false] at hitem
    rcases hitem with ⟨slice, hslice, rfl | rfl⟩ | ⟨slice, hslice, rfl | rfl⟩
    · exact uses_waitForPhase hcount hstage hslice
    · exact uses_executeStage hcount hstage _
    · exact uses_executeStage hcount hstage _
    · exact uses_recordPhase hcount hstage hslice
  · obtain ⟨slice, hslice, hitem⟩ := mem_flatMap.mp hitem
    exact uses_laterStageItems hcount hpos hstage (mem_range.mp hslice) item hitem

theorem uses_runFramedOverlap : ∀ item ∈ context.runFramedOverlap, context.Uses item := by
  intro item hitem
  simp only [runFramedOverlap, mem_append, mem_flatMap, mem_range, mem_range'_1] at hitem
  rcases hitem with ((hitem | ⟨slice, hslice, hitem | hitem⟩) | ⟨stage, hstage, hitem⟩) | hitem
  · exact uses_startItems item hitem
  · exact uses_packItems hslice item hitem
  · simp only [firstStageItems, mem_append, mem_singleton] at hitem
    rcases hitem with ((hitem | rfl) | hitem) | rfl
    · exact uses_phaseWaitItems hcount hpos hslice item hitem
    · exact uses_executeStage hcount hpos _
    · exact uses_slotItems hcount hpos item (mem_append_right _ hitem)
    · exact uses_recordPhase hcount hpos hslice
  · exact uses_framedStageItems hcount hpos (by omega) item hitem
  · exact uses_completionItems hcount hpos hdepth item hitem

theorem uses_overlapProgram (plugins : κ → Plugin) :
    ∀ item ∈ overlapProgram plugins context, context.Uses item := by
  intro item hitem
  unfold overlapProgram at hitem
  split at hitem
  · exact uses_runFramedOverlap hcount hpos hdepth item hitem
  · exact uses_runOverlap hcount hpos hdepth item hitem

omit hcount hdepth in
/-- Every slice records its first stage. -/
theorem recordPhase_mem_overlapProgram (plugins : κ → Plugin) {slice : ℕ}
    (hslice : slice < context.depth) :
    recordPhase cocclPipelinePhaseFirstStage slice ∈ overlapProgram plugins context := by
  unfold overlapProgram
  split
  · simp only [runFramedOverlap, mem_append, mem_flatMap, mem_range]
    refine .inl (.inl (.inr ⟨slice, hslice, .inr ?_⟩))
    simp [firstStageItems]
  · simp only [runOverlap, mem_append, mem_flatMap, mem_range]
    refine .inl (.inr ⟨slice, hslice, .inl (.inr ⟨0, hpos, ?_⟩)⟩)
    simp [stageItems]

omit hcount hpos hdepth in
theorem completionItems_subset_overlapProgram (plugins : κ → Plugin) :
    ∀ item ∈ context.completionItems, item ∈ overlapProgram plugins context := by
  intro item hitem
  unfold overlapProgram
  split
  · exact mem_append_right _ hitem
  · exact mem_append_right _ hitem

end PipelineContext

/-! ## Programs that find what they use -/

variable {resources : PipelineResources}

/-- An entry for as many slices has every event, but that of the last slice to be unpacked only if
it is for no more. -/
theorem PipelineResources.createdEvent_of_uses {κ : Type} {context : PipelineContext κ}
    (hle : context.depth ≤ resources.depth)
    (heq : context.stagesOutput = true → context.depth = resources.depth) {event : PipelineEvent}
    (h : context.UsesEvent event) : resources.createdEvent event = true := by
  cases event with
  | inputReady => rfl
  | phase phase slice =>
    obtain ⟨hphase, hslice, hunpack⟩ := h
    simp only [createdEvent, Bool.and_eq_true, decide_eq_true_eq, Bool.not_eq_true',
      Bool.and_eq_false_iff, decide_eq_false_iff_not, not_not]
    refine ⟨⟨hphase, by omega⟩, ?_⟩
    by_cases hphase' : phase = cocclPipelinePhaseUnpack
    · obtain ⟨hstages, hlast⟩ := hunpack hphase'
      have := heq hstages
      exact .inr (by omega)
    · exact .inl hphase'
  | inputRawConsumed slot | outputRawConsumed slot => exact decide_eq_true h

/-- **What an entry must be made for.** A program of two slices or more finds every stream and event
it uses exactly when the entry is for as many slices, and for exactly as many if its output is
staged. -/
theorem PipelineResources.provides_iff {κ : Type} {context : PipelineContext κ}
    (resources : PipelineResources) (plugins : κ → Plugin)
    (hcount : context.stageCount ≤ kCocclPipelineExplicitStages)
    (hpos : 0 < context.stageCount) (hdepth : 0 < context.depth) :
    (∀ item ∈ overlapProgram plugins context, resources.Provides item) ↔
      context.depth ≤ resources.depth ∧
        (context.stagesOutput = true → context.depth = resources.depth) := by
  constructor
  · intro h
    constructor
    · obtain ⟨-, hrecord⟩ := h _ (recordPhase_mem_overlapProgram hpos plugins
        (Nat.sub_one_lt hdepth.ne'))
      simp only [recordPhase, createdEvent, Bool.and_eq_true, decide_eq_true_eq] at hrecord
      omega
    · intro hstages
      obtain ⟨-, hwait⟩ := h _ (completionItems_subset_overlapProgram plugins _ (mem_cons_self ..))
      simp only [hstages, if_true, createdEvent, Bool.and_eq_true, decide_eq_true_eq,
        Bool.not_eq_true', Bool.and_eq_false_iff, decide_eq_false_iff_not, not_not,
        not_true, false_or] at hwait
      omega
  · rintro ⟨hle, heq⟩ item hitem
    obtain ⟨hstream, hcmd⟩ := uses_overlapProgram hcount hpos hdepth plugins item hitem
    refine ⟨hstream, ?_⟩
    cases hkind : item.cmd with
    | record event | wait event =>
      rw [hkind] at hcmd
      exact createdEvent_of_uses hle heq hcmd
    | work op => trivial

/-! ## Sequences of runs -/

/-- The entry of a communicator that a run gets: the one in the cache, or a new one if creating it
succeeds. -/
def findOrCreateResources (cached : Option PipelineResources) (depth : ℕ) (creates : Bool) :
    Option PipelineResources :=
  match cached with
  | some resources => some resources
  | none => if creates then some ⟨depth⟩ else none

/-- A pipeline handed to `cocclRunPipelineWithDepth`, with whether its resources could be
created. -/
structure PipelineRun {κ : Type} [DecidableEq κ] (plugins : κ → Plugin) where
  spec : PipelineSpec κ
  requestedDepth : ℤ
  context : PipelineContext κ
  prepared : cocclPreparePipeline plugins spec requestedDepth = .ok context
  creates : Bool

namespace PipelineRun

variable {κ : Type} [DecidableEq κ] {plugins : κ → Plugin} (run : PipelineRun plugins)

def depth : ℕ := run.context.depth

/-- A serial run needs resources only for its frames. -/
def usesResources : Bool :=
  !(run.depth = 1 && !pipelineUsesFramedCompressor plugins run.context.spec)

/-- What the run enqueues with the help of the resources. A serial one stays on the user's
stream. -/
def program : List PipelineItem :=
  if run.depth = 1 then [] else overlapProgram plugins run.context

/-- The cache after the run. -/
def after (cached : Option PipelineResources) : Option PipelineResources :=
  if run.usesResources then findOrCreateResources cached run.depth run.creates else cached

/-- Every stream and event the run uses is in the entry it gets. -/
def Fits (cached : Option PipelineResources) : Prop :=
  ∀ resources, run.usesResources = true →
    findOrCreateResources cached run.depth run.creates = some resources →
      ∀ item ∈ run.program, resources.Provides item

/-- The run would fit an entry made for a depth. -/
def CoveredBy (depth : ℕ) : Prop :=
  run.depth = 1 ∨
    run.depth ≤ depth ∧ (run.context.stagesOutput = true → run.depth = depth)

/-- The run creates an entry if there is none. -/
def createsResources : Bool := run.usesResources && run.creates

variable {run}

theorem provides_iff_coveredBy (resources : PipelineResources) :
    (∀ item ∈ run.program, resources.Provides item) ↔ run.CoveredBy resources.depth := by
  obtain ⟨chunks, requireSerial, logical, P⟩ := cocclPreparePipeline_prepared run.prepared
  unfold program CoveredBy
  by_cases hserial : run.depth = 1
  · simp [hserial]
  · have hcount : run.context.stageCount ≤ kCocclPipelineExplicitStages := by
      unfold stageCount
      rw [P.spec_eq]
      exact P.valid.stages_le
    have hpos : 0 < run.context.stageCount := by
      unfold stageCount
      rw [P.spec_eq]
      exact length_pos_iff.mpr P.valid.stages_ne
    rw [if_neg hserial]
    refine (resources.provides_iff plugins hcount hpos P.depth_pos.1).trans ?_
    exact ⟨.inr, fun h => h.resolve_left hserial⟩

theorem usesResources_of_depth (h : run.depth ≠ 1) : run.usesResources = true := by
  simp [usesResources, h]

theorem fits_some : run.Fits (some resources) ↔ run.CoveredBy resources.depth := by
  rw [← provides_iff_coveredBy]
  constructor
  · intro h item hitem
    by_cases hserial : run.depth = 1
    · simp [program, hserial] at hitem
    · exact h resources (usesResources_of_depth hserial) rfl item hitem
  · intro h found _ hfound item hitem
    obtain rfl := Option.some.inj hfound
    exact h item hitem

/-- A run always fits the entry it creates. -/
theorem fits_none : run.Fits none := by
  intro resources _ hcreated item hitem
  obtain ⟨-, ⟨⟩⟩ := Option.ite_none_right_eq_some.mp hcreated
  exact (provides_iff_coveredBy _).mpr (.inr ⟨le_rfl, fun _ => rfl⟩) item hitem

theorem after_some (resources : PipelineResources) :
    run.after (some resources) = some resources := by
  unfold after
  split <;> rfl

theorem after_none : run.after none = if run.createsResources then some ⟨run.depth⟩ else none := by
  unfold after createsResources
  cases run.usesResources <;> cases run.creates <;> rfl

end PipelineRun

section

variable {κ : Type} [DecidableEq κ] {plugins : κ → Plugin}

/-- Every run of a sequence fits the cache as it finds it. -/
def FitsEvery : Option PipelineResources → List (PipelineRun plugins) → Prop
  | _, [] => True
  | cached, run :: rest => run.Fits cached ∧ FitsEvery (run.after cached) rest

theorem fitsEvery_some {runs : List (PipelineRun plugins)} :
    FitsEvery (some resources) runs ↔ ∀ run ∈ runs, run.CoveredBy resources.depth := by
  induction runs with
  | nil => simp [FitsEvery]
  | cons run rest ih =>
    rw [FitsEvery, run.fits_some, run.after_some, ih, forall_mem_cons]

/-- The runs after the one that creates the entry are covered by its depth. -/
def Covered (runs : List (PipelineRun plugins)) : Prop :=
  match runs.dropWhile fun run => !run.createsResources with
  | [] => True
  | first :: rest => ∀ run ∈ rest, run.CoveredBy first.depth

/-- **Cached resources.** Every run of a sequence finds what it uses in the cache exactly when the
runs after the one that filled it are serial, or have no more slices than that one and, if they
stage their output, as many. -/
theorem fitsEvery_iff_covered (runs : List (PipelineRun plugins)) :
    FitsEvery none runs ↔ Covered runs := by
  induction runs with
  | nil => exact Iff.rfl
  | cons run rest ih =>
    rw [FitsEvery, run.after_none, and_iff_right run.fits_none]
    unfold Covered
    cases hcreates : run.createsResources with
    | true =>
      rw [if_pos rfl, fitsEvery_some, dropWhile_cons_of_neg (by simp [hcreates])]
    | false =>
      rw [if_neg Bool.false_ne_true, dropWhile_cons_of_pos (by simp [hcreates])]
      exact ih

end

/-- An exchange of `count` floats with each of two ranks on two nodes. -/
def exchangeOf (count : ℕ) : PipelineSpec Unit where
  input := 4096
  output := 8192
  rawChunkCount := count
  inputChunks := 2
  datatype := .float32
  ownerComm := ⟨0, 0, 2, 1, 2, Nat.two_pos, Nat.one_pos⟩
  stages := [.compress (some ()), .allToAll ⟨0, 0, 2, 1, 2, Nat.two_pos, Nat.one_pos⟩, .decompress]
  inPlaceLayout := .none
  inputLayout := .contiguous

/-- With a configured depth of four, an exchange of two floats creates events for two slices and an
exchange of eight floats after it uses those of four. -/
theorem exchangeOf_not_fitsEvery : ∃ small large :
      PipelineRun (fun _ : Unit => (⟨fun _ => false, none⟩ : Plugin)),
    small.spec = exchangeOf 2 ∧ large.spec = exchangeOf 8 ∧ small.requestedDepth = 4 ∧
      large.requestedDepth = 4 ∧ ¬FitsEvery none [small, large] := by
  obtain ⟨small, hsmall, hsmallDepth⟩ : ∃ context,
      cocclPreparePipeline (fun _ => ⟨fun _ => false, none⟩) (exchangeOf 2) 4 = .ok context ∧
      decide (context.depth = 2) = true := Checked.exists_of_any (by decide +kernel)
  obtain ⟨large, hlarge, hlargeDepth⟩ : ∃ context,
      cocclPreparePipeline (fun _ => ⟨fun _ => false, none⟩) (exchangeOf 8) 4 = .ok context ∧
      decide (context.depth = 4) = true := Checked.exists_of_any (by decide +kernel)
  rw [decide_eq_true_eq] at hsmallDepth hlargeDepth
  refine ⟨⟨exchangeOf 2, 4, small, hsmall, true⟩, ⟨exchangeOf 8, 4, large, hlarge, true⟩, rfl, rfl,
    rfl, rfl, ?_⟩
  rintro ⟨-, hfits, -⟩
  rw [PipelineRun.after_none, if_pos, PipelineRun.fits_some] at hfits
  · rcases hfits with hserial | ⟨hle, -⟩
    · simp only [PipelineRun.depth, hlargeDepth] at hserial
      omega
    · simp only [PipelineRun.depth, hlargeDepth, hsmallDepth] at hle
      omega
  · simp [PipelineRun.createsResources, PipelineRun.usesResources, PipelineRun.depth, hsmallDepth]

end Coccl
