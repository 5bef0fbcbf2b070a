import Coccl.Collectives.Primitives
import Coccl.Pipeline.Within

/-!
# The collectives stay within their plans

The stages every primitive lists are regular: an all-to-all of an accepted pipeline splits its
chunks evenly, because the reduction behind it divides by the same number of ranks and the planner
checks that.
-/

namespace Coccl

open Checked PreparedCall Except AllReduce

section

variable {κ : Type}

/-! ## Even splits -/

variable {rest : List (Stage κ)} {stage : Stage κ}

theorem splits_cons (hstage : ∀ comm, stage ≠ .allToAll comm) (hrest : ∀ chunks, Splits rest chunks)
    (chunks : ℕ) : Splits (stage :: rest) chunks :=
  ⟨fun comm _ heq _ => absurd heq (hstage comm), fun outputChunks _ => hrest outputChunks⟩

/-- A stage that reduces by `count` is accepted only where `count` divides its chunks. -/
theorem dvd_of_stageChunks {count chunks : ℕ} {counts : List ℕ}
    (hstage : stage = .decompressReduce count ∨ ∃ encoder, stage = .decompReduceComp count encoder)
    (h : stageChunks (stage :: rest) chunks = .ok counts) : count ∣ chunks := by
  obtain ⟨outputChunks, hchunks, -⟩ := bind_eq_ok.mp h
  rcases hstage with rfl | ⟨encoder, rfl⟩
  · obtain ⟨hdvd, -⟩ := ite_error_eq_ok.mp hchunks
    exact Nat.dvd_of_mod_eq_zero (by tauto)
  · obtain ⟨hdvd, -⟩ := ite_error_eq_ok.mp hchunks
    exact Nat.dvd_of_mod_eq_zero (by tauto)

/-- An all-to-all in front of a reduction over the same ranks. -/
theorem splits_exchange {comm : Comm} (hstage : stage = .decompressReduce comm.nRanks ∨
      ∃ encoder, stage = .decompReduceComp comm.nRanks encoder)
    (hrest : ∀ chunks, Splits rest chunks) (chunks : ℕ) :
    Splits (.allToAll comm :: stage :: rest) chunks := by
  refine ⟨fun comm' counts heq h => ?_, fun outputChunks _ => splits_cons ?_ hrest outputChunks⟩
  · cases heq
    exact dvd_of_stageChunks hstage h
  · rcases hstage with rfl | ⟨encoder, rfl⟩ <;> exact nofun

theorem splits_nil (chunks : ℕ) : Splits ([] : List (Stage κ)) chunks := trivial

/-- A flat all-to-all: as many chunks as ranks. -/
theorem splits_flat {comm : Comm} {encoder : Option κ} (hrest : ∀ chunks, Splits rest chunks) :
    Splits (.compress encoder :: .allToAll comm :: rest) comm.nRanks := by
  refine ⟨nofun, fun outputChunks hchunks => ?_⟩
  obtain rfl := ok.inj hchunks
  refine ⟨fun comm' counts heq _ => ?_, fun outputChunks _ => hrest outputChunks⟩
  cases heq
  exact dvd_rfl

/-! ## The hierarchical reductions -/

variable {hierarchy : HierarchicalComms} {intra inter finalCompressor : Option κ}
  {rest : List (Stage κ)}

theorem splits_intraReduction (hrest : ∀ chunks, Splits rest chunks) :
    ∀ chunks, Splits (intraReduction hierarchy intra inter ++ rest) chunks := by
  unfold intraReduction
  split_ifs
  · exact splits_cons (by nofun) (splits_exchange (.inr ⟨inter, rfl⟩) hrest)
  · exact splits_cons (by nofun) (splits_exchange (.inl rfl) hrest)
  · exact splits_cons (by nofun) (splits_cons (by nofun) hrest)
  · exact splits_cons (by nofun) hrest

theorem splits_interReduction (hrest : ∀ chunks, Splits rest chunks) :
    ∀ chunks, Splits (interReduction hierarchy inter finalCompressor ++ rest) chunks := by
  unfold interReduction
  split_ifs
  · exact splits_exchange (.inr ⟨finalCompressor, rfl⟩) hrest
  · exact splits_exchange (.inl rfl) hrest
  · exact splits_cons (by nofun) (splits_cons (by nofun) hrest)
  · exact splits_cons (by nofun) hrest

/-- The reduction inside a node leaves its result encoded for the level across nodes. -/
theorem carried_intraReduction :
    (intraReduction hierarchy intra inter).foldl carriedCompressor none = inter := by
  unfold intraReduction
  cases intra <;> cases inter <;> rfl

theorem carried_interReduction :
    (interReduction hierarchy inter finalCompressor).foldl carriedCompressor inter =
      finalCompressor := by
  unfold interReduction
  cases inter <;> cases finalCompressor <;> rfl

theorem listed_hierarchicalReduction : 2 ≤ (intraReduction hierarchy intra inter ++
        interReduction hierarchy inter finalCompressor).length ∧
      ∀ stage ∈ intraReduction hierarchy intra inter ++
        interReduction hierarchy inter finalCompressor, stage ≠ .pack ∧ stage ≠ .unpack := by
  unfold intraReduction interReduction
  cases intra <;> cases inter <;> cases finalCompressor <;> simp

/-! ## The primitives -/

variable {prepared : PreparedCall κ} {submission : Submission κ}

theorem cocclExecuteReduceScatter_regular
    (h : cocclExecuteReduceScatter hierarchy prepared = .ok submission) :
    submission.spec.Regular := by
  unfold cocclExecuteReduceScatter at h
  split at h
  · obtain rfl := ok.inj h
    exact ⟨by simp [ReduceScatter.runOneShot, submit],
      by simp [ReduceScatter.runOneShot, submit], rfl,
      splits_flat (splits_cons (by nofun) splits_nil)⟩
  · obtain ⟨-, h⟩ := ite_error_eq_ok.mp h
    obtain rfl := ok.inj h
    refine ⟨listed_hierarchicalReduction.1, listed_hierarchicalReduction.2, ?_, ?_⟩
    · show List.foldl carriedCompressor none (_ ++ _) = none
      rw [List.foldl_append, carried_intraReduction, carried_interReduction]
    · show Splits (_ ++ interReduction hierarchy _ none) _
      rw [← List.append_nil (interReduction hierarchy _ none)]
      exact splits_intraReduction (splits_interReduction splits_nil) _

theorem runTripleShot_regular : (runTripleShot hierarchy prepared).spec.Regular := by
  obtain ⟨htwo, hlisted⟩ := @listed_hierarchicalReduction κ hierarchy
    (prepared.compressors.get .intra) (prepared.compressors.get .inter)
    (prepared.compressors.get .default)
  have hstages : (runTripleShot hierarchy prepared).spec.stages =
      intraReduction hierarchy (prepared.compressors.get .intra) (prepared.compressors.get .inter)
        ++ (interReduction hierarchy (prepared.compressors.get .inter)
          (prepared.compressors.get .default) ++ (.allGather prepared.comm ::
            if (prepared.compressors.get .default).isSome then [.decompress] else [])) := by
    simp [runTripleShot, submit, cocclBuildHierarchicalReduction]
  refine ⟨?_, ?_, ?_, ?_⟩
  · rw [hstages, ← List.append_assoc, List.length_append]
    omega
  · rw [hstages, ← List.append_assoc]
    intro stage hstage
    rcases List.mem_append.mp hstage with hmem | hmem
    · exact hlisted stage hmem
    · split_ifs at hmem <;> simp at hmem <;> rcases hmem with rfl | rfl <;> simp
  · rw [hstages, List.foldl_append, carried_intraReduction, List.foldl_append,
      carried_interReduction]
    cases prepared.compressors.get .default <;> rfl
  · rw [hstages]
    refine splits_intraReduction (splits_interReduction (splits_cons (by nofun) fun chunks => ?_)) _
    split_ifs
    · exact splits_cons (by nofun) splits_nil chunks
    · exact splits_nil chunks

theorem cocclExecuteAllReduce_regular
    (h : cocclExecuteAllReduce hierarchy prepared = .ok submission) :
    submission.spec.Regular := by
  obtain ⟨-, h⟩ := ite_error_eq_ok.mp h
  obtain ⟨-, h⟩ := ite_error_eq_ok.mp h
  split at h
  · obtain rfl := ok.inj h
    exact ⟨by simp [runOneShot, submit], by simp [runOneShot, submit], rfl,
      splits_cons (by nofun) (splits_cons (by nofun) (splits_cons (by nofun) splits_nil)) _⟩
  · obtain rfl := ok.inj h
    exact ⟨by simp [runTwoShot, submit], by simp [runTwoShot, submit], rfl,
      splits_flat (splits_cons (by nofun) (splits_cons (by nofun) (splits_cons (by nofun)
        splits_nil)))⟩
  · obtain rfl := ok.inj h
    exact runTripleShot_regular
  · cases h

/-- **Every primitive lists regular stages.** -/
theorem cocclExecutePrimitive_regular
    (h : cocclExecutePrimitive hierarchy prepared = .ok submission) :
    submission.spec.Regular := by
  unfold cocclExecutePrimitive at h
  split at h
  · obtain rfl := ok.inj h
    exact ⟨by simp [cocclExecuteAllGather, submit], by simp [cocclExecuteAllGather, submit], rfl,
      splits_cons (by nofun) (splits_cons (by nofun) (splits_cons (by nofun) splits_nil)) _⟩
  · obtain rfl := ok.inj h
    exact ⟨by simp [cocclExecuteAllToAll, submit], by simp [cocclExecuteAllToAll, submit], rfl,
      splits_flat (splits_cons (by nofun) splits_nil)⟩
  · exact cocclExecuteReduceScatter_regular h
  · exact cocclExecuteAllReduce_regular h

end

/-! ## Every run of a collective -/

section

variable {κ : Type} [DecidableEq κ] {plugins : κ → Plugin} {runtime : CompressorRuntime κ}

/-- **The executor of a collective never outgrows the plan.** -/
theorem preparePrimitive_within (hdecodes : DecodesAsPlanned runtime)
    (framesValid : Stage κ → PipelineEdge κ → Bool) {configDepth : ℤ}
    {hierarchy : HierarchicalComms} {prepared : PreparedCall κ} {context : PipelineContext κ}
    (h : preparePrimitive plugins configDepth hierarchy prepared = .ok context)
    (workspace : PipelineWorkspace context) {slice : ℕ} (hslice : slice < context.depth) :
    SliceWithin plugins runtime framesValid workspace slice := by
  obtain ⟨submission, hsubmission, h⟩ := bind_eq_ok.mp h
  obtain ⟨chunks, requireSerial, logical, P⟩ := cocclPreparePipeline_prepared h
  exact P.sliceWithin framesValid (cocclExecutePrimitive_regular hsubmission) hdecodes workspace
    hslice

end

/-! ### An all-to-all of frames in two slices -/

/-- A framed plugin that bounds its output by the raw size. -/
def framedPlugin : Plugin where
  capabilities := fun capability => capability = .framed
  getEncodedSizeBound := none

/-- Encodes by handing the raw bytes on. -/
def passthroughRuntime : CompressorRuntime Unit where
  execute := fun _ call =>
    if encodedOutput call.operation then
      .ok (some ⟨call.input.bytes, compressorRawPassthrough, call.input.chunks⟩)
    else .ok none
  getUnregisteredBuffer := fun bytes => .ok (1, bytes)

/-- Five elements for each of two ranks on two nodes. -/
def pairAllToAll : PreparedCall Unit where
  operation := .allToAll
  sendbuff := 4096
  recvbuff := 8192
  count := 5
  datatype := .float32
  comm := ⟨0, 0, 2, 1, 2, Nat.two_pos, Nat.one_pos⟩
  algorithm := .none
  compressors := ⟨some (), none, none⟩

/-- The sizes of a context for the exchange. -/
def PairSized (context : PipelineContext Unit) : Prop :=
  context.plan.registeredBytes ≤ 4096 ∧ context.plan.rawBytes ≤ 4096 ∧ context.spec.input = 4096 ∧
    context.spec.output = 8192 ∧ context.spec.inputChunks = 2 ∧
    context.stageContext.rawChunkBytes = 20 ∧ context.plan.finalChunks = 2

instance (context : PipelineContext Unit) : Decidable (PairSized context) :=
  inferInstanceAs (Decidable (_ ∧ _))

theorem PairSized.apart {context : PipelineContext Unit} (h : PairSized context) {base bytes : ℕ}
    (hbase : (base, bytes) = (16384, context.plan.registeredBytes) ∨
      (base, bytes) = (32768, context.plan.rawBytes)) :
    (base + bytes ≤ context.spec.input ∨ context.spec.input +
        context.stageContext.rawChunkBytes * context.spec.inputChunks ≤ base) ∧
      (base + bytes ≤ context.spec.output ∨ context.spec.output +
        context.stageContext.rawChunkBytes * max 1 context.plan.finalChunks ≤ base) := by
  obtain ⟨hregistered, hraw, hinput, houtput, hchunks, hbytes, hfinal⟩ := h
  simp only [Prod.mk.injEq] at hbase
  rw [hinput, houtput, hchunks, hbytes, hfinal]
  omega

/-- The workspaces behind the user's buffers. -/
def PairSized.workspace {context : PipelineContext Unit} (h : PairSized context) :
    PipelineWorkspace context where
  registeredBase := 16384
  rawBase := 32768
  registered_end := by
    have hmax : 65536 ≤ sizeMax := by decide
    have hle := h.1
    omega
  raw_end := by
    have hmax : 65536 ≤ sizeMax := by decide
    have hle := h.2.1
    omega
  workspaces := by
    have hle := h.1
    omega
  input_apart := fun _ _ hbase => (h.apart hbase).1
  output_end := by
    obtain ⟨-, -, -, houtput, -, hbytes, hfinal⟩ := h
    have hmax : 65536 ≤ sizeMax := by decide
    rw [houtput, hfinal, hbytes]
    omega
  output_apart := fun _ _ hbase => (h.apart hbase).2

theorem pairAllToAll_within : ∃ context,
    preparePrimitive (fun _ => framedPlugin) 2 ⟨pairAllToAll.comm, pairAllToAll.comm⟩
      pairAllToAll = .ok context ∧ context.depth = 2 ∧
    ∃ workspace : PipelineWorkspace context,
      ∀ slice < 2, SliceWithin (fun _ => framedPlugin) passthroughRuntime (fun _ _ => true)
        workspace slice := by
  obtain ⟨context, hcontext, hshape⟩ : ∃ context,
      preparePrimitive (fun _ => framedPlugin) 2 ⟨pairAllToAll.comm, pairAllToAll.comm⟩
        pairAllToAll = .ok context ∧ decide (context.depth = 2 ∧ PairSized context) = true :=
    exists_of_any (by decide +kernel)
  obtain ⟨hdepth, hsized⟩ := of_decide_eq_true hshape
  have hdecodes : DecodesAsPlanned passthroughRuntime := by
    intro policy call args hencoded h
    simp [passthroughRuntime, hencoded] at h
  exact ⟨context, hcontext, hdepth, hsized.workspace, fun slice hslice =>
    preparePrimitive_within hdecodes _ hcontext hsized.workspace (hdepth ▸ hslice)⟩

/-- A plugin without frames that declares four bytes for each chunk. -/
def tightPlugin : Plugin where
  capabilities := fun _ => false
  getEncodedSizeBound := some fun query => .ok (4 * query.chunks)

/-- **Raw data that is handed on outgrows a plan made by a smaller bound.** -/
theorem tightPlugin_outgrown : ∃ context,
    preparePrimitive (fun _ => tightPlugin) 2 ⟨pairAllToAll.comm, pairAllToAll.comm⟩
      pairAllToAll = .ok context ∧
    ∃ workspace : PipelineWorkspace context, ∀ edge, PipelineContext.edgeAfter
      (fun _ => tightPlugin) passthroughRuntime (fun _ _ => true) workspace 0 1 ≠ .ok edge := by
  obtain ⟨context, hcontext, hshape⟩ : ∃ context,
      preparePrimitive (fun _ => tightPlugin) 2 ⟨pairAllToAll.comm, pairAllToAll.comm⟩
        pairAllToAll = .ok context ∧ decide (∃ h : PairSized context, (PipelineContext.edgeAfter
          (fun _ => tightPlugin) passthroughRuntime (fun _ _ => true) h.workspace 0
          1).toOption.isNone = true) = true :=
    exists_of_any (by decide +kernel)
  obtain ⟨hsized, hrejected⟩ := of_decide_eq_true hshape
  refine ⟨context, hcontext, hsized.workspace, fun edge hedge => ?_⟩
  rw [hedge] at hrejected
  cases hrejected

end Coccl
