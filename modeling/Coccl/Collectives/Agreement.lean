import Coccl.Collectives.Hierarchy
import Coccl.Collectives.Result
import Coccl.Collectives.Within
import Coccl.Pipeline.Issued

/-!
# The inner communication of all ranks

All ranks of a communicator call one collective, and each decides from its own buffers whether it
runs in slices (`Collective.Unprovided`). With compressors of fixed size this, and the sizes of the
split communicators, decide whether all ranks issue the same inner collectives.
-/

namespace Coccl

open PipelineContext Checked List Stage Except AllReduce

/-! ## What all ranks submit -/

/-- The communicators split off on two ranks have the same sizes. -/
abbrev Placement.SameSplits (p : Placement) (r s : Fin p.nRanks) : Prop :=
  (p.hierarchy r).intraComm.nRanks = (p.hierarchy s).intraComm.nRanks ∧
    (p.hierarchy r).interComm.nRanks = (p.hierarchy s).interComm.nRanks

namespace Collective

variable {κ : Type} (collective : Collective κ) (p : Placement)

/-- The call of one rank. -/
def placedCall (rank : Fin p.nRanks) : PreparedCall κ where
  operation := collective.operation
  sendbuff := collective.sendbuff rank
  recvbuff := collective.recvbuff rank
  count := collective.count
  datatype := collective.datatype
  comm := (p.comm rank).toComm
  algorithm := collective.algorithm
  compressors := collective.compressors

/-- Whether the algorithm splits the communicator. -/
def Hierarchical : Prop :=
  (collective.operation = .reduceScatter ∧ collective.algorithm ≠ .reduceScatterOneShot) ∨
    (collective.operation = .allReduce ∧ collective.algorithm ≠ .allReduceOneShot ∧
      collective.algorithm ≠ .allReduceTwoShot)

/-- What a rank submits if its call is accepted. -/
def submission (rank : Fin p.nRanks) : Submission κ :=
  let prepared := collective.placedCall p rank
  match collective.operation with
  | .allGather => cocclExecuteAllGather prepared
  | .allToAll => cocclExecuteAllToAll prepared
  | .reduceScatter =>
    if collective.algorithm = .reduceScatterOneShot then ReduceScatter.runOneShot prepared
    else ReduceScatter.runTwoShot (p.hierarchy rank) prepared
  | .allReduce =>
    match collective.algorithm with
    | .allReduceOneShot => runOneShot prepared
    | .allReduceTwoShot => runTwoShot prepared
    | _ => runTripleShot (p.hierarchy rank) prepared

theorem submission_eq {rank : Fin p.nRanks} {submission : Submission κ}
    (h : cocclExecutePrimitive (p.hierarchy rank) (collective.placedCall p rank) =
      .ok submission) : submission = collective.submission p rank := by
  have hoperation : (collective.placedCall p rank).operation = collective.operation := rfl
  have halgorithm : (collective.placedCall p rank).algorithm = collective.algorithm := rfl
  unfold cocclExecutePrimitive cocclExecuteReduceScatter cocclExecuteAllReduce at h
  rw [hoperation, halgorithm] at h
  unfold Collective.submission
  cases hop : collective.operation with
  | allGather | allToAll =>
    rw [hop] at h
    exact (ok.inj h).symm
  | reduceScatter =>
    simp only [hop] at h ⊢
    split_ifs at h ⊢
    · exact (ok.inj h).symm
    · exact (ok.inj h).symm
  | allReduce =>
    simp only [hop] at h ⊢
    obtain ⟨-, h⟩ := ite_error_eq_ok.mp h
    obtain ⟨-, h⟩ := ite_error_eq_ok.mp h
    split at h
    all_goals first
      | rename_i halgo
        rw [halgo]
        exact (ok.inj h).symm
      | cases h

/-- The elements of a rank chunk. -/
def chunkCount : ℕ :=
  match collective.operation with
  | .allReduce => collective.count / p.nRanks
  | _ => collective.count

/-- The rank chunks of the send buffer. -/
def inputChunks : ℕ :=
  match collective.operation with
  | .allGather => 1
  | _ => p.nRanks

def inPlaceLayout : InPlaceLayout :=
  match collective.operation with
  | .allGather => .inputRankChunk
  | .allToAll => .none
  | .reduceScatter => .outputRankChunk
  | .allReduce => .sameBuffer

def serial : Bool :=
  collective.operation = .allReduce ∧ collective.algorithm = .allReduceOneShot

/-- The fields all ranks fill from the arguments they share. -/
theorem submission_submit (rank : Fin p.nRanks) : ∃ stages inputLayout,
    collective.submission p rank = (collective.placedCall p rank).submit (collective.chunkCount p)
      (collective.inputChunks p) stages collective.inPlaceLayout inputLayout collective.serial := by
  unfold submission chunkCount inputChunks inPlaceLayout serial
  cases hop : collective.operation with
  | allGather | allToAll => exact ⟨_, _, rfl⟩
  | reduceScatter =>
    simp only
    split
    · exact ⟨_, _, rfl⟩
    · exact ⟨_, _, rfl⟩
  | allReduce => cases halgo : collective.algorithm <;> exact ⟨_, _, rfl⟩

end Collective

section

variable {κ : Type} {hierarchy hierarchy' : HierarchicalComms}

theorem intraReduction_alike (hhandle : hierarchy.intraComm.handle = hierarchy'.intraComm.handle)
    (hranks : hierarchy.intraComm.nRanks = hierarchy'.intraComm.nRanks) (intra inter : Option κ) :
    List.Forall₂ Alike (intraReduction hierarchy intra inter)
      (intraReduction hierarchy' intra inter) := by
  unfold intraReduction
  rw [hranks]
  split_ifs
  · exact .cons (.compress _) (.cons (.allToAll hhandle hranks)
      (.cons (.decompReduceComp _ _) .nil))
  · exact .cons (.compress _) (.cons (.allToAll hhandle hranks) (.cons (.decompressReduce _) .nil))
  · exact .cons (.reduceScatter hhandle hranks) (.cons (.compress _) .nil)
  · exact .cons (.reduceScatter hhandle hranks) .nil

theorem interReduction_alike (hhandle : hierarchy.interComm.handle = hierarchy'.interComm.handle)
    (hranks : hierarchy.interComm.nRanks = hierarchy'.interComm.nRanks)
    (inter finalCompressor : Option κ) :
    List.Forall₂ Alike (interReduction hierarchy inter finalCompressor)
      (interReduction hierarchy' inter finalCompressor) := by
  unfold interReduction
  rw [hranks]
  split_ifs
  · exact .cons (.allToAll hhandle hranks) (.cons (.decompReduceComp _ _) .nil)
  · exact .cons (.allToAll hhandle hranks) (.cons (.decompressReduce _) .nil)
  · exact .cons (.reduceScatter hhandle hranks) (.cons (.compress _) .nil)
  · exact .cons (.reduceScatter hhandle hranks) .nil

variable {stage : Stage κ}

/-- The communicator and the compressors of a level's stages. -/
theorem mem_intraReduction {intra inter : Option κ}
    (h : stage ∈ intraReduction hierarchy intra inter) :
    (∀ comm, stage.communicator = some comm → comm = hierarchy.intraComm) ∧
      (stage.compressor = none ∨ stage.compressor = intra ∨ stage.compressor = inter) := by
  unfold intraReduction at h
  split_ifs at h <;> simp at h <;> rcases h with rfl | rfl | rfl <;> simp [communicator, compressor]

theorem mem_interReduction {inter finalCompressor : Option κ}
    (h : stage ∈ interReduction hierarchy inter finalCompressor) :
    (∀ comm, stage.communicator = some comm → comm = hierarchy.interComm) ∧
      (stage.compressor = none ∨ stage.compressor = finalCompressor) := by
  unfold interReduction at h
  split_ifs at h <;> simp at h <;> rcases h with rfl | rfl <;> simp [communicator, compressor]

theorem intraReduction_communicates (hierarchy : HierarchicalComms) (intra inter : Option κ) :
    ∃ stage ∈ intraReduction hierarchy intra inter,
      stage.communicator = some hierarchy.intraComm := by
  unfold intraReduction
  split_ifs <;> simp [communicator]

theorem interReduction_communicates (hierarchy : HierarchicalComms)
    (inter finalCompressor : Option κ) :
    ∃ stage ∈ interReduction hierarchy inter finalCompressor,
      stage.communicator = some hierarchy.interComm := by
  unfold interReduction
  split_ifs <;> simp [communicator]

end

namespace Collective

variable {κ : Type} {collective : Collective κ} {p : Placement}

/-- The communicators and the compressors of a rank's stages. -/
def Uses (collective : Collective κ) (rank : Fin p.nRanks) (stage : Stage κ) : Prop :=
  (∀ comm, stage.communicator = some comm → comm = (p.comm rank).toComm ∨
    comm = (p.hierarchy rank).intraComm ∨ comm = (p.hierarchy rank).interComm) ∧
  (stage.compressor = none ∨ ∃ scope, stage.compressor = collective.compressors.get scope)

attribute [local simp] communicator compressor

theorem mem_stages {rank : Fin p.nRanks} (h : stage ∈ (collective.submission p rank).spec.stages) :
    collective.Uses rank stage := by
  have hflat : ∀ {stages : List (Stage κ)}, (∀ stage ∈ stages,
      (stage.communicator = none ∨ stage.communicator = some (collective.placedCall p rank).comm) ∧
      (stage.compressor = none ∨
        stage.compressor = (collective.placedCall p rank).flatCompressor)) →
      stage ∈ stages → collective.Uses rank stage := by
    intro stages hstages h
    obtain ⟨hcomm, hcompressor⟩ := hstages stage h
    refine ⟨fun comm hsome => .inl ?_, hcompressor.imp_right fun h => ⟨_, h⟩⟩
    rcases hcomm with hcomm | hcomm <;> cases hcomm.symm.trans hsome
    rfl
  have hreduction : ∀ {finalCompressor : Option κ},
      (finalCompressor = none ∨ finalCompressor = collective.compressors.get .default) →
      stage ∈ cocclBuildHierarchicalReduction (collective.placedCall p rank) (p.hierarchy rank)
        finalCompressor → collective.Uses rank stage := by
    intro finalCompressor hfinal h
    rcases mem_append.mp h with h | h
    · obtain ⟨hcomm, hcompressor⟩ := mem_intraReduction h
      refine ⟨fun comm h => .inr (.inl (hcomm comm h)), ?_⟩
      rcases hcompressor with h | h | h
      · exact .inl h
      · exact .inr ⟨.intra, h⟩
      · exact .inr ⟨.inter, h⟩
    · obtain ⟨hcomm, hcompressor⟩ := mem_interReduction h
      refine ⟨fun comm h => .inr (.inr (hcomm comm h)), ?_⟩
      rcases hcompressor with h | h
      · exact .inl h
      · rcases hfinal with rfl | rfl
        · exact .inl h
        · exact .inr ⟨.default, h⟩
  unfold submission at h
  cases hop : collective.operation with
  | allGather =>
    simp only [hop] at h
    exact hflat (by simp [cocclExecuteAllGather, PreparedCall.submit]) h
  | allToAll =>
    simp only [hop] at h
    exact hflat (by simp [cocclExecuteAllToAll, PreparedCall.submit]) h
  | reduceScatter =>
    simp only [hop] at h
    split at h
    · exact hflat (by simp [ReduceScatter.runOneShot, PreparedCall.submit]) h
    · exact hreduction (.inl rfl) h
  | allReduce =>
    simp only [hop] at h
    split at h
    · exact hflat (by simp [runOneShot, PreparedCall.submit]) h
    · exact hflat (by simp [runTwoShot, PreparedCall.submit]) h
    · rcases mem_append.mp h with h | h
      · rcases mem_append.mp h with h | h
        · exact hreduction (.inr rfl) h
        · exact hflat (by simp) h
      · split at h
        · exact hflat (by simp) h
        · cases h

/-- Ranks whose split communicators have the same sizes submit alike. -/
theorem submission_alike {r s : Fin p.nRanks} (hsplits : collective.Hierarchical →
      p.SameSplits r s) :
    (collective.submission p r).spec.Alike (collective.submission p s).spec := by
  have hreduction : collective.Hierarchical → ∀ finalCompressor, List.Forall₂ Alike
      (cocclBuildHierarchicalReduction (collective.placedCall p r) (p.hierarchy r) finalCompressor)
      (cocclBuildHierarchicalReduction (collective.placedCall p s) (p.hierarchy s)
        finalCompressor) := fun h finalCompressor =>
    rel_append (intraReduction_alike (by rfl) (hsplits h).1 _ _)
      (interReduction_alike (by rfl) (hsplits h).2 _ _)
  unfold submission
  cases hop : collective.operation with
  | allGather =>
    exact ⟨rfl, rfl, rfl, .cons (.compress _) (.cons (.allGather rfl rfl) (.cons .decompress .nil)),
      rfl, rfl⟩
  | allToAll =>
    exact ⟨rfl, rfl, rfl, .cons (.compress _) (.cons (.allToAll rfl rfl) (.cons .decompress .nil)),
      rfl, rfl⟩
  | reduceScatter =>
    simp only
    split
    · exact ⟨rfl, rfl, rfl, .cons (.compress _) (.cons (.allToAll rfl rfl)
        (.cons (.decompressReduce _) .nil)), rfl, rfl⟩
    · rename_i halgo
      exact ⟨rfl, rfl, rfl, hreduction (.inl ⟨hop, halgo⟩) none, rfl, rfl⟩
  | allReduce =>
    simp only
    split
    · exact ⟨rfl, rfl, rfl, .cons (.compress _) (.cons (.allGather rfl rfl)
        (.cons (.decompressReduce _) .nil)), rfl, rfl⟩
    · exact ⟨rfl, rfl, rfl, .cons (.compress _) (.cons (.allToAll rfl rfl)
        (.cons (.decompReduceComp _ _) (.cons (.allGather rfl rfl) (.cons .decompress .nil)))),
        rfl, rfl⟩
    · rename_i hone htwo
      have hstages := rel_append
        (rel_append (hreduction (.inr ⟨hop, hone, htwo⟩) collective.compressors.default)
          (.cons (show Alike (.allGather (p.comm r).toComm) (.allGather (p.comm s).toComm)
            from .allGather rfl rfl) .nil))
        (show List.Forall₂ Alike
            (if collective.compressors.default.isSome then [.decompress] else [])
            (if collective.compressors.default.isSome then [.decompress] else []) by
          split_ifs
          · exact .cons .decompress .nil
          · exact .nil)
      exact ⟨rfl, rfl, rfl, hstages, rfl, rfl⟩

/-- A hierarchical algorithm communicates on both communicators. -/
theorem hierarchical_communicates (h : collective.Hierarchical) (rank : Fin p.nRanks) :
    (∃ stage ∈ (collective.submission p rank).spec.stages,
      stage.communicator = some (p.hierarchy rank).intraComm) ∧
    ∃ stage ∈ (collective.submission p rank).spec.stages,
      stage.communicator = some (p.hierarchy rank).interComm := by
  obtain ⟨intra, hintra, hintraComm⟩ := intraReduction_communicates (p.hierarchy rank)
    collective.compressors.intra collective.compressors.inter
  have hinter := interReduction_communicates (p.hierarchy rank) collective.compressors.inter
  unfold submission
  rcases h with ⟨hop, halgo⟩ | ⟨hop, hone, htwo⟩
  · obtain ⟨inter, hinter, hinterComm⟩ := hinter none
    simp only [hop, if_neg halgo]
    exact ⟨⟨intra, mem_append_left _ hintra, hintraComm⟩,
      ⟨inter, mem_append_right _ hinter, hinterComm⟩⟩
  · obtain ⟨inter, hinter, hinterComm⟩ := hinter collective.compressors.default
    simp only [hop]
    exact ⟨⟨intra, mem_append_left _ (mem_append_left _ (mem_append_left _ hintra)), hintraComm⟩,
      ⟨inter, mem_append_left _ (mem_append_left _ (mem_append_right _ hinter)), hinterComm⟩⟩

theorem communications_pos (rank : Fin p.nRanks) :
    0 < communications (collective.submission p rank).spec := by
  rw [communications, countP_pos_iff]
  by_cases h : collective.Hierarchical
  · obtain ⟨⟨stage, hstage, hcomm⟩, -⟩ := hierarchical_communicates h rank
    exact ⟨stage, hstage, by rw [hcomm]; rfl⟩
  · -- the second stage of a flat algorithm communicates
    have hsecond : ∃ stage, (collective.submission p rank).spec.stages[1]? = some stage ∧
        stage.communicator.isSome = true := by
      unfold submission
      cases hop : collective.operation with
      | allGather | allToAll => exact ⟨_, rfl, rfl⟩
      | reduceScatter =>
        simp only
        split
        · exact ⟨_, rfl, rfl⟩
        · rename_i halgo
          exact absurd (.inl ⟨hop, halgo⟩) h
      | allReduce =>
        simp only
        split
        · exact ⟨_, rfl, rfl⟩
        · exact ⟨_, rfl, rfl⟩
        · rename_i hone htwo
          exact absurd (.inr ⟨hop, hone, htwo⟩) h
    obtain ⟨stage, hstage, hcomm⟩ := hsecond
    exact ⟨stage, mem_of_getElem? hstage, hcomm⟩

/-- Compressors of fixed size exchange no frames. -/
theorem submission_fixed [DecidableEq κ] {plugins : κ → Plugin}
    (hfixed : ∀ scope, cocclCompressorSupports plugins (collective.compressors.get scope) .framed =
      false) (rank : Fin p.nRanks) :
    pipelineUsesFramedCompressor plugins (collective.submission p rank).spec = false := by
  refine any_eq_false.mpr fun stage hstage => ?_
  rw [Bool.not_eq_true]
  rcases (mem_stages hstage).2 with h | ⟨scope, h⟩
  · rw [h]
    rfl
  · rw [h, hfixed scope]

end Collective

/-! ## The depth each rank runs with -/

section

variable {κ : Type}

/-- The chunks a stage leaves. -/
def Stage.chunksAfter (chunks : ℕ) : Stage κ → ℕ
  | .allGather comm => chunks * comm.nRanks
  | .decompReduceComp reduceChunks _ | .decompressReduce reduceChunks => chunks / reduceChunks
  | .reduceScatter comm => chunks / comm.nRanks
  | _ => chunks

theorem chunksAfter_eq {chunks output : ℕ}
    (h : cocclPipelineStageOutputChunks stage chunks = .ok output) :
    output = stage.chunksAfter chunks := by
  cases stage with
  | allGather comm => exact (mul_eq_some.mp (orElse_eq_ok.mp h)).1
  | decompReduceComp reduceChunks _ | decompressReduce reduceChunks =>
    obtain ⟨-, h⟩ := ite_error_eq_ok.mp h
    exact (ok.inj h).symm
  | _ => exact (ok.inj h).symm

/-- The chunks all stages leave. -/
theorem getLastD_stageChunks {stages : List (Stage κ)} {inputChunks : ℕ} {chunks : List ℕ}
    (h : stageChunks stages inputChunks = .ok chunks) :
    chunks.getLastD inputChunks = stages.foldl chunksAfter inputChunks := by
  induction stages generalizing inputChunks chunks with
  | nil =>
    obtain rfl := ok.inj h
    rfl
  | cons stage rest ih =>
    obtain ⟨output, houtput, h⟩ := bind_eq_ok.mp h
    obtain ⟨outputs, houtputs, h⟩ := bind_eq_ok.mp h
    obtain rfl := ok.inj h
    rw [getLastD_cons, ih houtputs, foldl_cons, chunksAfter_eq houtput]

theorem chunksAfter_intraReduction (hierarchy : HierarchicalComms) (intra inter : Option κ)
    (chunks : ℕ) : (intraReduction hierarchy intra inter).foldl chunksAfter chunks =
      chunks / hierarchy.intraComm.nRanks := by
  unfold intraReduction
  split_ifs <;> rfl

theorem chunksAfter_interReduction (hierarchy : HierarchicalComms)
    (inter finalCompressor : Option κ) (chunks : ℕ) :
    (interReduction hierarchy inter finalCompressor).foldl chunksAfter chunks =
      chunks / hierarchy.interComm.nRanks := by
  unfold interReduction
  split_ifs <;> rfl

end

namespace Collective

variable {κ : Type} (collective : Collective κ) (p : Placement)

/-- The rank chunks left in the receive buffer. A hierarchical algorithm divides by the sizes of the
communicators it splits off. -/
def outputChunks (rank : Fin p.nRanks) : ℕ :=
  let scattered := p.nRanks / (p.hierarchy rank).intraComm.nRanks /
    (p.hierarchy rank).interComm.nRanks
  match collective.operation with
  | .allGather | .allToAll => p.nRanks
  | .reduceScatter => if collective.algorithm = .reduceScatterOneShot then 1 else scattered
  | .allReduce =>
    match collective.algorithm with
    | .allReduceOneShot | .allReduceTwoShot => p.nRanks
    | _ => scattered * p.nRanks

theorem foldl_chunksAfter (rank : Fin p.nRanks) :
    (collective.submission p rank).spec.stages.foldl chunksAfter (collective.inputChunks p) =
      collective.outputChunks p rank := by
  have hpos := p.nRanks_pos
  have hranks : (collective.placedCall p rank).comm.nRanks = p.nRanks := rfl
  have hreduction : ∀ finalCompressor : Option κ,
      (cocclBuildHierarchicalReduction (collective.placedCall p rank) (p.hierarchy rank)
        finalCompressor).foldl chunksAfter p.nRanks =
        p.nRanks / (p.hierarchy rank).intraComm.nRanks / (p.hierarchy rank).interComm.nRanks := by
    intro finalCompressor
    rw [cocclBuildHierarchicalReduction, foldl_append, chunksAfter_intraReduction,
      chunksAfter_interReduction]
  unfold submission inputChunks outputChunks
  cases hop : collective.operation with
  | allGather => exact one_mul _
  | allToAll => rfl
  | reduceScatter =>
    simp only
    split
    · exact Nat.div_self hpos
    · exact hreduction none
  | allReduce =>
    simp only
    split
    · exact Nat.mul_div_cancel _ hpos
    · exact (congrArg (· * p.nRanks) (Nat.div_self hpos)).trans (one_mul _)
    · simp only [runTripleShot, PreparedCall.submit]
      rw [foldl_append, foldl_append, hreduction]
      split_ifs <;> rfl

/-- The bytes of a rank chunk. -/
def chunkBytes : ℕ := collective.chunkCount p * collective.typeBytes

/-- Buffers that force a serial run. -/
def Unprovided (rank : Fin p.nRanks) : Prop :=
  UnprovidedOverlap collective.inPlaceLayout (collective.sendbuff rank) (collective.inputChunks p)
    (collective.recvbuff rank) (collective.outputChunks p rank) (collective.chunkBytes p) rank

/-- The slices a rank cuts its chunks into unless its buffers force a serial run. -/
def sliceDepth (configDepth : ℤ) : ℕ :=
  if collective.serial = true ∨ ∀ r s, p.node r = p.node s then 1
  else pipelineDepth configDepth (collective.chunkCount p)

end Collective

section

variable {κ : Type} [DecidableEq κ] {plugins : κ → Plugin} {collective : Collective κ}
  {p : Placement} {configDepth : ℤ} {rank : Fin p.nRanks} {context : PipelineContext κ}
  {chunks : List ℕ} {requireSerial : Bool} {logical : PipelinePlan}

/-- All ranks run on one node exactly when one rank's node has them all. -/
theorem Placement.localRanks_eq_nRanks (p : Placement) (rank : Fin p.nRanks) :
    p.localRanks rank = p.nRanks ↔ ∀ r s, p.node r = p.node s := by
  constructor
  · intro h r s
    have huniv := Finset.eq_univ_of_card _ (h.trans (Fintype.card_fin _).symm)
    have hnode : ∀ t, p.node t = p.node rank := fun t => by
      have := Finset.mem_univ t
      rw [← huniv, Finset.mem_filter] at this
      exact this.2
    rw [hnode r, hnode s]
  · intro h
    rw [Placement.localRanks, Finset.filter_true_of_mem fun s _ => h s rank, Finset.card_univ,
      Fintype.card_fin]

/-- The depth of a rank's pipeline. -/
theorem Collective.depth_eq
    (hfixed : pipelineUsesFramedCompressor plugins (collective.submission p rank).spec = false)
    (P : Prepared plugins (collective.submission p rank).spec
      ((collective.submission p rank).requestedDepth plugins configDepth) context chunks
      requireSerial logical) :
    (collective.Unprovided p rank ∧ context.depth = 1) ∨
      (¬ collective.Unprovided p rank ∧ context.depth = collective.sliceDepth p configDepth) := by
  obtain ⟨stages, inputLayout, hsubmit⟩ := collective.submission_submit p rank
  obtain ⟨-, hserial⟩ := requireSerial_spec P.serial
  rw [getLastD_stageChunks P.chunks_eq, P.rawChunkBytes] at hserial
  have hcount := P.valid.rawChunkCount_pos
  have hdepth := P.depth_eq
  have hrequested : pipelineDepth
      ((collective.submission p rank).requestedDepth plugins configDepth)
      (collective.submission p rank).spec.rawChunkCount = collective.sliceDepth p configDepth := by
    unfold Submission.requestedDepth sliceDepth
    rw [hfixed]
    rw [hsubmit] at hcount ⊢
    simp only [PreparedCall.submit, placedCall, Placement.comm, p.localRanks_eq_nRanks rank,
      Bool.not_false, and_true] at hcount ⊢
    have hone : pipelineDepth 1 (collective.chunkCount p) = 1 := by
      have := @pipelineDepth_pos _ 1 hcount
      simp only [pipelineDepth, kCocclPipelineMaxDepth] at this ⊢
      split_ifs at this ⊢ <;> omega
    by_cases hs : collective.serial = true
    · rw [if_pos hs, if_pos (.inl hs), hone]
    by_cases hn : ∀ r s, p.node r = p.node s
    · rw [if_neg hs, if_pos hn, if_pos (.inr hn), hone]
    · rw [if_neg hs, if_neg hn, if_neg (not_or.mpr ⟨hs, hn⟩)]
  rw [hrequested] at hdepth
  have hunprovided : requireSerial = true ↔ collective.Unprovided p rank := by
    rw [hserial, Unprovided, ← foldl_chunksAfter, chunkBytes]
    rw [hsubmit]
    exact Iff.rfl
  cases requireSerial with
  | true => exact .inl ⟨hunprovided.mp rfl, hdepth⟩
  | false => exact .inr ⟨fun h => Bool.false_ne_true (hunprovided.mpr h), hdepth⟩

end

/-! ## Agreement -/

section

variable {κ : Type}

/-- Stages on communicators of the same sizes have them from splits of the same sizes. -/
theorem Collective.splits_eq {collective : Collective κ} {p : Placement} {r s : Fin p.nRanks}
    (h : collective.Hierarchical)
    (hcomm : ∀ handle nRanks,
      (∃ stage ∈ (collective.submission p r).spec.stages, ∃ comm, stage.communicator = some comm ∧
        comm.handle = handle ∧ comm.nRanks = nRanks) →
      ∃ stage ∈ (collective.submission p s).spec.stages, ∃ comm, stage.communicator = some comm ∧
        comm.handle = handle ∧ comm.nRanks = nRanks) : p.SameSplits r s := by
  obtain ⟨⟨intra, hintra, hintraComm⟩, ⟨inter, hinter, hinterComm⟩⟩ :=
    hierarchical_communicates h r
  constructor
  · obtain ⟨stage, hstage, comm, hsome, hhandle, hranks⟩ :=
      hcomm 1 _ ⟨intra, hintra, _, hintraComm, rfl, rfl⟩
    rcases (mem_stages hstage).1 comm hsome with rfl | rfl | rfl
    · exact absurd hhandle Nat.zero_ne_one
    · exact hranks.symm
    · exact absurd hhandle (Nat.succ_ne_self 1)
  · obtain ⟨stage, hstage, comm, hsome, hhandle, hranks⟩ :=
      hcomm 2 _ ⟨inter, hinter, _, hinterComm, rfl, rfl⟩
    rcases (mem_stages hstage).1 comm hsome with rfl | rfl | rfl
    · exact absurd hhandle.symm (Nat.succ_ne_zero 1)
    · exact absurd hhandle.symm (Nat.succ_ne_self 1)
    · exact hranks.symm

variable [DecidableEq κ] {plugins : κ → Plugin}

/-- **When all ranks issue the same inner collectives.** All ranks of a placement call a collective
with compressors of fixed size, their pipelines are prepared and run to the end. They issue the same
sequence exactly when the communicators split off have one size each, and, where chunks are cut into
slices at all, either no rank's buffers force a serial run or every rank's do. -/
theorem Collective.issued_agree_iff (collective : Collective κ) (p : Placement) (configDepth : ℤ)
    {runtime : Fin p.nRanks → CompressorRuntime κ}
    {framesValid : Fin p.nRanks → Stage κ → PipelineEdge κ → Bool}
    {context : Fin p.nRanks → PipelineContext κ}
    (workspace : ∀ rank, PipelineWorkspace (context rank))
    (hfixed : ∀ scope, cocclCompressorSupports plugins (collective.compressors.get scope) .framed =
      false)
    (hsizes : ∀ r s, SameSizes (runtime r) (runtime s))
    (hprepared : ∀ rank, preparePrimitive plugins configDepth (p.hierarchy rank)
      (collective.placedCall p rank) = .ok (context rank))
    (hruns : ∀ rank, ∀ slice < (context rank).depth, ∃ final,
      edgeAfter plugins (runtime rank) (framesValid rank) (workspace rank) slice
        (context rank).stageCount = .ok final) :
    (∀ r s, issued plugins (runtime r) (framesValid r) (workspace r) =
      issued plugins (runtime s) (framesValid s) (workspace s)) ↔
    (collective.Hierarchical → ∀ r s,
      (p.hierarchy r).intraComm.nRanks = (p.hierarchy s).intraComm.nRanks ∧
        (p.hierarchy r).interComm.nRanks = (p.hierarchy s).interComm.nRanks) ∧
    (1 < collective.sliceDepth p configDepth → ∀ r s,
      collective.Unprovided p r → collective.Unprovided p s) := by
  have hcontext : ∀ rank, ∃ chunks requireSerial logical,
      Prepared plugins (collective.submission p rank).spec
        ((collective.submission p rank).requestedDepth plugins configDepth) (context rank) chunks
        requireSerial logical := by
    intro rank
    obtain ⟨submission, hsubmission, h⟩ := bind_eq_ok.mp (hprepared rank)
    obtain rfl := collective.submission_eq p hsubmission
    exact cocclPreparePipeline_prepared h
  choose chunks requireSerial logical P using hcontext
  have hplain := fun rank => submission_fixed (p := p) hfixed rank
  have hdepth := fun rank => depth_eq (hplain rank) (P rank)
  -- given splits of one size, two ranks agree if and only if their depths do
  have hiff : ∀ r s, (collective.Hierarchical → p.SameSplits r s) →
      (issued plugins (runtime r) (framesValid r) (workspace r) =
        issued plugins (runtime s) (framesValid s) (workspace s) ↔
          (context r).depth = (context s).depth) := fun r s hsplits =>
    issued_eq_iff (submission_alike hsplits) (hplain r) (hsizes r s) (P r) (P s)
      (communications_pos r) (hruns r) (hruns s)
  constructor
  · intro hagree
    have hsplits : ∀ r s, collective.Hierarchical → p.SameSplits r s := by
      intro r s h
      refine splits_eq h fun handle nRanks => ?_
      rw [← communicator_issued (P r) (hplain r) (hruns r),
        ← communicator_issued (P s) (hplain s) (hruns s), hagree r s]
      exact id
    refine ⟨fun h r s => hsplits r s h, fun hsliced r s hr => ?_⟩
    have heq := (hiff r s (hsplits r s)).mp (hagree r s)
    rcases hdepth r with ⟨-, hone⟩ | ⟨hnot, -⟩
    · rcases hdepth s with ⟨hs, -⟩ | ⟨-, hsliced'⟩
      · exact hs
      · omega
    · exact absurd hr hnot
  · rintro ⟨hsplits, hverdict⟩ r s
    rw [hiff r s fun h => hsplits h r s]
    have hr := (P r).depth_pos.1
    have hs := (P s).depth_pos.1
    by_cases hsliced : 1 < collective.sliceDepth p configDepth
    · have hrs := hverdict hsliced r s
      have hsr := hverdict hsliced s r
      rcases hdepth r with ⟨hr, hr'⟩ | ⟨hr, hr'⟩ <;> rcases hdepth s with ⟨hs, hs'⟩ | ⟨hs, hs'⟩
      · rw [hr', hs']
      · exact absurd (hrs hr) hs
      · exact absurd (hsr hs) hr
      · rw [hr', hs']
    · rcases hdepth r with ⟨-, hr'⟩ | ⟨-, hr'⟩ <;> rcases hdepth s with ⟨-, hs'⟩ | ⟨-, hs'⟩ <;>
        omega

/-! ### An all-to-all of two ranks on two nodes -/

def twoNodes : Placement := ⟨2, fun rank => rank, Nat.two_pos⟩

/-- Four elements for each rank; rank `0` may receive in place. -/
def pairExchange (inPlace : Bool) : Collective Unit where
  operation := .allToAll
  algorithm := .none
  count := 4
  datatype := .float32
  compressors := ⟨some (), none, none⟩
  sendbuff := fun _ => 4096
  recvbuff := fun rank => if inPlace ∧ rank = 0 then 4096 else 8192

def pairPrepared (inPlace : Bool) (rank : Fin twoNodes.nRanks) : Result (PipelineContext Unit) :=
  preparePrimitive (fun _ => plainPlugin) 2 (twoNodes.hierarchy rank)
    ((pairExchange inPlace).placedCall twoNodes rank)

def pairContext (inPlace : Bool) (rank : Fin twoNodes.nRanks) : PipelineContext Unit :=
  (pairPrepared inPlace rank).toOption.get (by revert inPlace rank; decide +kernel)

theorem pairPrepared_eq (inPlace : Bool) (rank : Fin twoNodes.nRanks) :
    pairPrepared inPlace rank = .ok (pairContext inPlace rank) := by
  have hok : ∀ (x : Result (PipelineContext Unit)) (h : x.toOption.isSome = true),
      x = .ok (x.toOption.get h) := by
    rintro (e | context) h
    · cases h
    · rfl
  exact hok _ _

def pairWorkspace (inPlace : Bool) (rank : Fin twoNodes.nRanks) :
    PipelineWorkspace (pairContext inPlace rank) where
  registeredBase := 16384
  rawBase := 32768
  registered_end := by revert inPlace rank; decide +kernel
  raw_end := by revert inPlace rank; decide +kernel
  workspaces := by revert inPlace rank; decide +kernel
  input_apart := by
    rintro base bytes (h | h) <;> obtain ⟨rfl, rfl⟩ := Prod.mk.inj h <;> revert inPlace rank <;>
      decide +kernel
  output_end := by revert inPlace rank; decide +kernel
  output_apart := by
    rintro base bytes (h | h) <;> obtain ⟨rfl, rfl⟩ := Prod.mk.inj h <;> revert inPlace rank <;>
      decide +kernel

/-- The inner collectives a rank issues. -/
def pairIssued (inPlace : Bool) (rank : Fin twoNodes.nRanks) : List InnerComm :=
  issued (fun _ => plainPlugin) passthroughRuntime (fun _ _ => true) (pairWorkspace inPlace rank)

theorem pairExchange_runs (inPlace : Bool) (rank : Fin twoNodes.nRanks) :
    ∀ slice < (pairContext inPlace rank).depth, ∃ final,
      edgeAfter (fun _ => plainPlugin) passthroughRuntime (fun _ _ => true)
        (pairWorkspace inPlace rank) slice (pairContext inPlace rank).stageCount = .ok final := by
  have hbound : (pairContext inPlace rank).depth ≤ 2 := by
    revert inPlace rank
    decide +kernel
  intro slice hslice
  have hslice : slice < 2 := by omega
  obtain ⟨final, hfinal, -⟩ : ∃ final, edgeAfter (fun _ => plainPlugin) passthroughRuntime
      (fun _ _ => true) (pairWorkspace inPlace rank) slice (pairContext inPlace rank).stageCount =
        .ok final ∧ (fun _ => true) final = true := by
    apply exists_of_any
    clear hbound
    interval_cases slice <;> revert inPlace rank <;> decide +kernel
  exact ⟨final, hfinal⟩

theorem passthroughRuntime_sameSizes : SameSizes passthroughRuntime passthroughRuntime := by
  intro policy call call' h
  simp only [passthroughRuntime, h.operation, h.input.bytes, h.input.chunks]

/-- Buffers apart on both ranks: both exchange twice. -/
theorem apartExchange_agree : (∀ rank, (pairContext false rank).depth = 2) ∧
    ∀ r s, pairIssued false r = pairIssued false s := by
  refine ⟨by decide +kernel, ?_⟩
  refine ((pairExchange false).issued_agree_iff twoNodes 2 (pairWorkspace false) ?_
    (fun _ _ => passthroughRuntime_sameSizes) (pairPrepared_eq false)
    (pairExchange_runs false)).mpr ⟨?_, ?_⟩
  · rintro (_ | _ | _) <;> rfl
  · rintro (⟨h, -⟩ | ⟨h, -⟩) <;> cases h
  · rintro - r s ⟨-, hlt, -⟩
    exact absurd hlt (by revert r; decide +kernel)

/-- Rank `0` receives in place and exchanges once, rank `1` exchanges twice. -/
theorem mixedExchange_not_agree :
    (∀ rank, pairPrepared true rank = .ok (pairContext true rank)) ∧
    (∀ rank, ∀ slice < (pairContext true rank).depth, ∃ final,
      edgeAfter (fun _ => plainPlugin) passthroughRuntime (fun _ _ => true)
        (pairWorkspace true rank) slice (pairContext true rank).stageCount = .ok final) ∧
    ¬ ∀ r s, pairIssued true r = pairIssued true s :=
  ⟨pairPrepared_eq true, pairExchange_runs true, by decide +kernel⟩

end

end Coccl
