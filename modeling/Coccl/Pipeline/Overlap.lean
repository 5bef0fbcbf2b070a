import Coccl.Pipeline.Regions

/-!
# What the overlapped run has to achieve

`OverlapCorrect` says that a program on streams does in every legal order what the serial run does:
the user's output is the same, every step reads what the steps before it in its slice wrote, and the
user's stream goes on after all of it. What the events have to enforce for that is `Ordered`: each
slice in its own order, each step slice by slice, and the two rings slot by slot.
-/

namespace Coccl

open Streams Footprint List

namespace PipelineContext

variable {κ : Type} (context : PipelineContext κ)

/-! ## The serial run -/

/-- The steps of one stage. -/
def stageSteps (stage : ℕ) : List Step :=
  if context.usesFrameExchange stage then [.prepare stage, .commit stage] else [.stage stage]

/-- The steps of a slice, in their order. -/
def sliceSteps : List Step :=
  (if context.stagesInput then [.pack] else []) ++
  (List.range context.stageCount).flatMap context.stageSteps ++
  (if context.stagesOutput then [.unpack] else [])

/-- The slices one after another. -/
def serialWorks : List WorkOp :=
  (List.range context.depth).flatMap fun slice => context.sliceSteps.map (.at slice)

/-- The step that writes a stage's payload, and the one that writes its metadata. -/
def payloadWriter (stage : ℕ) : Step :=
  if context.usesFrameExchange stage then .commit stage else .stage stage

def framesWriter (stage : ℕ) : Step :=
  if context.usesFrameExchange stage then .prepare stage else .stage stage

def firstStep : Step := if context.stagesInput then .pack else .stage 0

def finalStep : Step := context.payloadWriter (context.stageCount - 1)

def lastStep : Step := if context.stagesOutput then .unpack else context.finalStep

/-! ## What a step reads of the steps before it -/

/-- A step of the same slice, what its consumer reads, and what it wrote there. -/
structure Feed where
  producer : Step
  region : Set Loc
  written : Set Loc

def payloadFeed (slice stage : ℕ) : Feed :=
  ⟨context.payloadWriter stage, context.payloadLocs slice stage, context.payloadLocs slice stage⟩

def framesFeed (slice stage : ℕ) : Feed :=
  ⟨context.framesWriter stage, context.frameLocs slice stage, context.frameLocs slice stage⟩

/-- What the steps of a slice hand to a step. -/
def feeds (slice : ℕ) : Step → List Feed
  | .pack => []
  | .stage 0 =>
    match context.plan.inputStagingTemp with
    | some tempIndex => [⟨.pack, (context.packedInput slice tempIndex).locs,
        (context.packedInput slice tempIndex).locs⟩]
    | none => []
  | .stage (stage + 1) => [context.payloadFeed slice stage, context.framesFeed slice stage]
  | .prepare stage => [context.framesFeed slice (stage - 1)]
  | .commit stage =>
    [context.payloadFeed slice (stage - 1), context.framesFeed slice (stage - 1),
      ⟨.prepare stage, context.frameLocs slice stage, context.frameLocs slice stage⟩]
  | .unpack =>
    [⟨context.finalStep, (context.unpackSource slice).locs,
      context.payloadLocs slice (context.stageCount - 1)⟩]

/-! ## Correctness of an overlapped run -/

/-- The bytes of the user's output buffer. -/
def userOutput : Set Loc :=
  Region.locs ⟨.user, context.spec.output,
    context.stageContext.rawChunkBytes * context.plan.finalChunks⟩

/-- Device work with the footprints the executor gives it; what it computes is arbitrary. -/
def Respects (ops : WorkOp → Op Loc UInt8) : Prop :=
  ∀ op, (ops op).reads = context.reads op ∧ (ops op).writes = context.writes op

/-- Every legal order of `prog` is as good as the serial run. -/
structure OverlapCorrect (prog : List PipelineItem) : Prop where
  result : ∀ ops, context.Respects ops → ∀ order, Legal prog order → ∀ memory,
    ∀ l ∈ context.userOutput, run ops (works prog order) memory l =
      run ops context.serialWorks memory l
  reads : ∀ ops, context.Respects ops → ∀ order, Legal prog order → ∀ memory op,
    ∀ before after serialBefore serialAfter, works prog order = before ++ op :: after →
    context.serialWorks = serialBefore ++ op :: serialAfter → ∀ l ∈ context.reads op,
    run ops before memory l = run ops serialBefore memory l
  feeds : ∀ order, Legal prog order → ∀ slice step, .at slice step ∈ works prog order →
    ∀ feed ∈ context.feeds slice step, feed.region ⊆ feed.written ∧
      [.at slice feed.producer, .at slice step].Sublist (works prog order) ∧
      ∀ op, [.at slice feed.producer, op].Sublist (works prog order) →
        ([op, .at slice step].Sublist (works prog order) ∨ op = .at slice step) →
        Disjoint (context.writes op) feed.region
  resumes : ∀ order, Legal prog order → ∀ op ∈ works prog order, op ≠ .resume →
    [op, .resume].Sublist (works prog order)

/-! ## What the events enforce -/

/-- The order the executor's streams and events keep. -/
structure Ordered (prog : List PipelineItem) : Prop where
  works_perm : (hostWorks prog).Perm (context.serialWorks ++ [.resume])
  slice : ∀ s < context.depth, ∀ a b, [a, b].Sublist context.sliceSteps →
    Precedes prog (.at s a) (.at s b)
  step : ∀ s t, s < t → t < context.depth → ∀ a ∈ context.sliceSteps,
    Precedes prog (.at s a) (.at t a)
  inputSlot : context.reusesInputRaw → ∀ s, s + 2 < context.depth →
    Precedes prog (.at s (.stage 0)) (.at (s + 2) .pack)
  outputSlot : context.reusesOutputRaw → ∀ s, s + 2 < context.depth →
    Precedes prog (.at s .unpack) (.at (s + 2) (.stage (context.stageCount - 1)))
  resumes : Precedes prog (.at (context.depth - 1) context.lastStep) .resume

/-! ## The steps of a slice -/

/-- A key that grows along the steps of a slice. -/
def stepKey : Step → ℕ
  | .pack => 0
  | .prepare stage => 2 * stage + 1
  | .stage stage | .commit stage => 2 * stage + 2
  | .unpack => 2 * context.stageCount + 1

variable {context}

theorem stagesInput_of_reuses (h : context.reusesInputRaw = true) : context.stagesInput = true := by
  simp_all [reusesInputRaw]

theorem stagesOutput_of_reuses (h : context.reusesOutputRaw = true) :
    context.stagesOutput = true := by
  simp_all [reusesOutputRaw]

theorem mem_stageSteps {step : Step} {k : ℕ} : step ∈ context.stageSteps k ↔
    (context.usesFrameExchange k = true ∧ (step = .prepare k ∨ step = .commit k)) ∨
      (context.usesFrameExchange k = false ∧ step = .stage k) := by
  unfold stageSteps
  split <;> simp_all

theorem mem_sliceSteps {step : Step} : step ∈ context.sliceSteps ↔
    (step = .pack ∧ context.stagesInput = true) ∨
      (∃ k < context.stageCount, step ∈ context.stageSteps k) ∨
      (step = .unpack ∧ context.stagesOutput = true) := by
  unfold sliceSteps
  simp only [mem_append, mem_flatMap, mem_range, or_assoc]
  refine or_congr ?_ (or_congr Iff.rfl ?_)
  · split <;> simp_all
  · split <;> simp_all

theorem stageSteps_key {step : Step} {k : ℕ} (h : step ∈ context.stageSteps k) :
    2 * k + 1 ≤ context.stepKey step ∧ context.stepKey step ≤ 2 * k + 2 := by
  rcases mem_stageSteps.mp h with ⟨-, rfl | rfl⟩ | ⟨-, rfl⟩ <;> simp [stepKey]

/-- The steps of a slice are listed in the order of their keys. -/
theorem sliceSteps_pairwise :
    context.sliceSteps.Pairwise fun a b => context.stepKey a < context.stepKey b := by
  have hstages : ((List.range context.stageCount).flatMap context.stageSteps).Pairwise
      fun a b => context.stepKey a < context.stepKey b := by
    refine pairwise_flatMap.mpr ⟨fun k _ => ?_, ?_⟩
    · unfold stageSteps
      split <;> simp [stepKey]
    · refine pairwise_lt_range.imp fun {i j} hij a ha b hb => ?_
      have := stageSteps_key ha
      have := stageSteps_key hb
      omega
  unfold sliceSteps
  refine pairwise_append.mpr ⟨pairwise_append.mpr ⟨?_, hstages, ?_⟩, ?_, ?_⟩
  · split <;> simp
  · intro a ha b hb
    obtain ⟨k, -, hk⟩ := mem_flatMap.mp hb
    have := stageSteps_key hk
    obtain rfl : a = .pack := by
      split at ha <;> simp_all
    show 0 < context.stepKey b
    omega
  · split <;> simp
  · intro a ha b hb
    obtain rfl : b = .unpack := by
      split at hb <;> simp_all
    rcases mem_append.mp ha with ha | ha
    · obtain rfl : a = .pack := by
        split at ha <;> simp_all
      simp [stepKey]
    · obtain ⟨k, hk, hmem⟩ := mem_flatMap.mp ha
      have := stageSteps_key hmem
      have := mem_range.mp hk
      simp only [stepKey] at *
      omega

theorem sliceSteps_nodup : context.sliceSteps.Nodup :=
  sliceSteps_pairwise.imp fun {a b} h => by
    rintro rfl
    exact lt_irrefl _ h

/-- Steps with growing keys come in this order. -/
theorem sliceSteps_pair {a b : Step} (ha : a ∈ context.sliceSteps) (hb : b ∈ context.sliceSteps)
    (h : context.stepKey a < context.stepKey b) : [a, b].Sublist context.sliceSteps := by
  obtain ⟨i, hi⟩ := mem_iff_getElem?.mp ha
  obtain ⟨j, hj⟩ := mem_iff_getElem?.mp hb
  obtain ⟨hilt, rfl⟩ := List.getElem?_eq_some_iff.mp hi
  obtain ⟨hjlt, rfl⟩ := List.getElem?_eq_some_iff.mp hj
  have hkeys := pairwise_iff_getElem.mp (@sliceSteps_pairwise _ context)
  rcases lt_trichotomy i j with hij | rfl | hij
  · exact pair_sublist_iff.mpr ⟨i, j, hij, hi, hj⟩
  · exact absurd h (lt_irrefl _)
  · have := hkeys j i hjlt hilt hij
    omega

theorem stepKey_inj {a b : Step} (ha : a ∈ context.sliceSteps) (hb : b ∈ context.sliceSteps)
    (h : context.stepKey a = context.stepKey b) : a = b := by
  have hkeys : (context.sliceSteps.map context.stepKey).Nodup :=
    pairwise_map.mpr (sliceSteps_pairwise.imp ne_of_lt)
  exact inj_on_of_nodup_map hkeys ha hb h

end PipelineContext

section

variable {κ : Type} (plugins : κ → Plugin)

/-- The pipelines whose overlapped run is correct. A staged output has to hold the rows its unpack
step reads, and the framed run unpacks only after a later stage that exchanges no frames; a direct
output must not reach into the input of a later slice. -/
structure OverlapSafe (context : PipelineContext κ) : Prop where
  rows : context.stagesOutput → ∀ slice < context.depth,
    context.plan.finalChunks * (context.slice slice).bytes ≤
      context.outputBytes slice (context.stageCount - 1)
  framed : context.stagesOutput → pipelineUsesFramedCompressor plugins context.spec →
    1 < context.stageCount ∧ context.usesFrameExchange (context.stageCount - 1) = false
  direct : context.stagesOutput = false → context.firstStep ≠ context.finalStep →
    ∀ s t, s < t → t < context.depth →
      Disjoint (context.stepWrites s context.finalStep) (context.stepReads t context.firstStep)

end

end Coccl
