import Coccl.Pipeline.Execute

/-!
# The primitives' pipelines

The specification each collective submits to the pipeline, as its `cocclExecute...` function builds
it from a prepared call: the flat algorithms, and the hierarchical ones, which reduce inside a node,
then across nodes (`cocclBuildHierarchicalReduction`).
-/

namespace Coccl

/-! ## Prepared calls -/

inductive Operation where
  | allGather
  | allToAll
  | reduceScatter
  | allReduce
  deriving DecidableEq, Repr

inductive AlgorithmKind where
  | none
  | reduceScatterOneShot
  | reduceScatterTwoShot
  | allReduceOneShot
  | allReduceTwoShot
  | allReduceTripleShot
  deriving DecidableEq, Repr

inductive CompressionScope where
  | default
  | intra
  | inter
  deriving DecidableEq, Repr

/-- The compressors a call resolved, one per scope. -/
structure PreparedCompressorSet (κ : Type) where
  default : Option κ
  intra : Option κ
  inter : Option κ

namespace PreparedCompressorSet

variable {κ : Type} (compressors : PreparedCompressorSet κ)

def get : CompressionScope → Option κ
  | .default => compressors.default
  | .intra => compressors.intra
  | .inter => compressors.inter

end PreparedCompressorSet

/-- One rank's call of a collective, with the algorithm and compressors chosen for it. -/
structure PreparedCall (κ : Type) where
  operation : Operation
  sendbuff : ℕ
  recvbuff : ℕ
  count : ℕ
  datatype : DataType
  comm : Comm
  algorithm : AlgorithmKind
  compressors : PreparedCompressorSet κ

/-- What `cocclCommGetHierarchicalComms` returns besides the communicator itself. -/
structure HierarchicalComms where
  intraComm : Comm
  interComm : Comm

/-- A pipeline handed to `cocclRunPipeline`, or to `cocclRunPipelineSerial`. -/
structure Submission (κ : Type) where
  spec : PipelineSpec κ
  serial : Bool

section

variable {κ : Type}

/-- The compressor of a flat algorithm. -/
def PreparedCall.flatCompressor (prepared : PreparedCall κ) : Option κ :=
  prepared.compressors.get (if prepared.comm.nNodes = 1 then .intra else .default)

/-- The fields every primitive fills alike. -/
def PreparedCall.submit (prepared : PreparedCall κ) (rawChunkCount inputChunks : ℕ)
    (stages : List (Stage κ)) (inPlaceLayout : InPlaceLayout) (inputLayout : InputLayout)
    (serial : Bool) : Submission κ :=
  { spec :=
      { input := prepared.sendbuff
        output := prepared.recvbuff
        rawChunkCount := rawChunkCount
        inputChunks := inputChunks
        datatype := prepared.datatype
        ownerComm := prepared.comm
        stages := stages
        inPlaceLayout := inPlaceLayout
        inputLayout := inputLayout }
    serial := serial }

def cocclExecuteAllGather (prepared : PreparedCall κ) : Submission κ :=
  prepared.submit prepared.count 1
    [.compress prepared.flatCompressor, .allGather prepared.comm, .decompress]
    .inputRankChunk .contiguous false

def cocclExecuteAllToAll (prepared : PreparedCall κ) : Submission κ :=
  prepared.submit prepared.count prepared.comm.nRanks
    [.compress prepared.flatCompressor, .allToAll prepared.comm, .decompress]
    .none .contiguous false

/-! ## Reductions -/

/-- The reduction inside a node, its result encoded for the level across nodes. -/
def intraReduction (hierarchy : HierarchicalComms) (intra inter : Option κ) : List (Stage κ) :=
  if intra.isSome then
    [.compress intra, .allToAll hierarchy.intraComm] ++
      if inter.isSome then [.decompReduceComp hierarchy.intraComm.nRanks inter]
      else [.decompressReduce hierarchy.intraComm.nRanks]
  else
    [.reduceScatter hierarchy.intraComm] ++ if inter.isSome then [.compress inter] else []

/-- The reduction across nodes, its result encoded for the final gather. -/
def interReduction (hierarchy : HierarchicalComms) (inter finalCompressor : Option κ) :
    List (Stage κ) :=
  if inter.isSome then
    [.allToAll hierarchy.interComm] ++
      if finalCompressor.isSome then
        [.decompReduceComp hierarchy.interComm.nRanks finalCompressor]
      else [.decompressReduce hierarchy.interComm.nRanks]
  else
    [.reduceScatter hierarchy.interComm] ++
      if finalCompressor.isSome then [.compress finalCompressor] else []

def cocclBuildHierarchicalReduction (prepared : PreparedCall κ) (hierarchy : HierarchicalComms)
    (finalCompressor : Option κ) : List (Stage κ) :=
  let intra := prepared.compressors.get .intra
  let inter := prepared.compressors.get .inter
  intraReduction hierarchy intra inter ++ interReduction hierarchy inter finalCompressor

namespace ReduceScatter

def runOneShot (prepared : PreparedCall κ) : Submission κ :=
  prepared.submit prepared.count prepared.comm.nRanks
    [.compress prepared.flatCompressor, .allToAll prepared.comm,
      .decompressReduce prepared.comm.nRanks]
    .outputRankChunk .contiguous false

def runTwoShot (hierarchy : HierarchicalComms) (prepared : PreparedCall κ) : Submission κ :=
  prepared.submit prepared.count prepared.comm.nRanks
    (cocclBuildHierarchicalReduction prepared hierarchy none)
    .outputRankChunk .hierarchicalSwizzle false

end ReduceScatter

/-- Every algorithm but the one-shot takes the hierarchical path. -/
def cocclExecuteReduceScatter (hierarchy : HierarchicalComms) (prepared : PreparedCall κ) :
    Result (Submission κ) :=
  if prepared.algorithm = .reduceScatterOneShot then .ok (ReduceScatter.runOneShot prepared)
  else if prepared.comm.nRanks % prepared.comm.localRanks ≠ 0 then .error .invalidArgument
  else .ok (ReduceScatter.runTwoShot hierarchy prepared)

namespace AllReduce

/-- The elements of a rank chunk. -/
def chunkCount (prepared : PreparedCall κ) : ℕ := prepared.count / prepared.comm.nRanks

def runOneShot (prepared : PreparedCall κ) : Submission κ :=
  prepared.submit (chunkCount prepared) prepared.comm.nRanks
    [.compress prepared.flatCompressor, .allGather prepared.comm,
      .decompressReduce prepared.comm.nRanks]
    .sameBuffer .contiguous true

def runTwoShot (prepared : PreparedCall κ) : Submission κ :=
  prepared.submit (chunkCount prepared) prepared.comm.nRanks
    [.compress prepared.flatCompressor, .allToAll prepared.comm,
      .decompReduceComp prepared.comm.nRanks prepared.flatCompressor,
      .allGather prepared.comm, .decompress]
    .sameBuffer .contiguous false

def runTripleShot (hierarchy : HierarchicalComms) (prepared : PreparedCall κ) : Submission κ :=
  let finalCompressor := prepared.compressors.get .default
  prepared.submit (chunkCount prepared) prepared.comm.nRanks
    (cocclBuildHierarchicalReduction prepared hierarchy finalCompressor ++
      [.allGather prepared.comm] ++ if finalCompressor.isSome then [.decompress] else [])
    .sameBuffer .hierarchicalSwizzle false

end AllReduce

def cocclExecuteAllReduce (hierarchy : HierarchicalComms) (prepared : PreparedCall κ) :
    Result (Submission κ) :=
  if prepared.count % prepared.comm.nRanks ≠ 0 then .error .invalidArgument
  else if prepared.algorithm = .allReduceTripleShot ∧
      prepared.comm.nRanks % prepared.comm.localRanks ≠ 0 then .error .invalidArgument
  else
    match prepared.algorithm with
    | .allReduceOneShot => .ok (AllReduce.runOneShot prepared)
    | .allReduceTwoShot => .ok (AllReduce.runTwoShot prepared)
    | .allReduceTripleShot => .ok (AllReduce.runTripleShot hierarchy prepared)
    | _ => .error .internalError

/-- The dispatch by operation. -/
def cocclExecutePrimitive (hierarchy : HierarchicalComms) (prepared : PreparedCall κ) :
    Result (Submission κ) :=
  match prepared.operation with
  | .allGather => .ok (cocclExecuteAllGather prepared)
  | .allToAll => .ok (cocclExecuteAllToAll prepared)
  | .reduceScatter => cocclExecuteReduceScatter hierarchy prepared
  | .allReduce => cocclExecuteAllReduce hierarchy prepared

/-! ## Depth -/

variable [DecidableEq κ] (plugins : κ → Plugin)

/-- The depth `cocclRunPipeline` and `cocclRunPipelineSerial` ask for. -/
def Submission.requestedDepth (configDepth : ℤ) (submission : Submission κ) : ℤ :=
  if submission.serial then 1
  else if submission.spec.ownerComm.localRanks = submission.spec.ownerComm.nRanks ∧
      !pipelineUsesFramedCompressor plugins submission.spec then 1
  else configDepth

/-- One rank's call up to the prepared pipeline it runs. -/
def preparePrimitive (configDepth : ℤ) (hierarchy : HierarchicalComms)
    (prepared : PreparedCall κ) : Result (PipelineContext κ) := do
  let submission ← cocclExecutePrimitive hierarchy prepared
  cocclPreparePipeline plugins submission.spec (submission.requestedDepth plugins configDepth)

end

end Coccl
