import Coccl.Collectives.Primitives

/-!
# Routing of calls

`cocclEnqueueCheck` routes the implicit calls and never fails; `cocclEnqueueExplicitCall` routes
those that ask for compression by name, and rejects what it cannot compress. Both resolve one
compressor per scope from the policies of the communicator's training role, and leave to the
algorithm which scopes count.
-/

namespace Coccl

/-! ## Calls -/

/-- The collectives, and the two point-to-point calls as one operation. -/
inductive CallOperation where
  | collective (operation : Operation)
  | sendRecv
  deriving DecidableEq, Repr

/-- The values of `ncclFunc_t` that routing tells apart. -/
inductive CallFunc where
  | send
  | recv
  | other
  deriving DecidableEq, Repr

inductive RedOp where
  | sum
  | prod
  | max
  | min
  | avg
  | custom (id : ℕ)
  deriving DecidableEq, Repr

/-- A communicator with the nodes of its ranks. -/
structure PlacedComm extends Comm where
  rankToNode : ℕ → ℕ

/-- The node the rank itself runs on. -/
def PlacedComm.node (comm : PlacedComm) : ℕ := comm.rankToNode comm.rank

/-- `cocclInfo`; a null buffer is `0`. -/
structure Info where
  sendbuff : ℕ
  recvbuff : ℕ
  count : ℕ
  datatype : DataType
  op : RedOp
  peer : ℕ
  func : CallFunc
  operation : CallOperation
  comm : PlacedComm
  stream : ℕ

/-- The traits routing reads from `cocclOperationDescriptor`. -/
structure OperationDescriptor where
  scaleBytesByRanks : Bool
  reduction : Bool
  countDivisibleByRanks : Bool

def cocclGetOperationDescriptor : CallOperation → OperationDescriptor
  | .collective .allGather => ⟨true, false, false⟩
  | .collective .reduceScatter => ⟨true, true, false⟩
  | .collective .allReduce => ⟨false, true, true⟩
  | .collective .allToAll => ⟨true, false, false⟩
  | .sendRecv => ⟨false, false, false⟩

/-- The call of an explicit collective. -/
def collectiveInfo (sendbuff recvbuff count : ℕ) (datatype : DataType) (op : RedOp)
    (operation : Operation) (comm : PlacedComm) (stream : ℕ) : Info where
  sendbuff := sendbuff
  recvbuff := recvbuff
  count := count
  datatype := datatype
  op := op
  peer := 0
  func := .other
  operation := .collective operation
  comm := comm
  stream := stream

/-! ## Policies -/

inductive TrainingRole where
  | unknown
  | dataParallel
  | pipelineParallel
  | tensorParallel
  deriving DecidableEq, Repr

inductive PolicyVariant where
  | default
  | forward
  | backward
  deriving DecidableEq, Repr

structure PolicyKey where
  operation : CallOperation
  variant : PolicyVariant
  scope : CompressionScope
  deriving DecidableEq

/-- What a process's configuration fixes for routing. `query` is `cocclTrainingAssistQuery` at the
time of the call, and `bfloat16Supported` whether CUDA has the type. -/
structure RouteConfig (κ : Type) where
  compressionEnabled : Bool
  trainingAssistEnabled : Bool
  query : ℕ → Option TrainingRole
  policies : TrainingRole → PolicyKey → Option κ
  thresholdBytes : κ → ℕ
  plugins : κ → Plugin
  bfloat16Supported : Bool

/-- A prepared call's compressors, with what is known of each scope's datatype. -/
structure RoutedCompressorSet (κ : Type) extends PreparedCompressorSet κ where
  datatypeSupported : CompressionScope → Bool
  thresholdBytes : ℕ

namespace RoutedCompressorSet

variable {κ : Type} (compressors : RoutedCompressorSet κ)

def get (scope : CompressionScope) : Option κ := compressors.toPreparedCompressorSet.get scope

def supports (scope : CompressionScope) : Bool :=
  (compressors.get scope).isSome && compressors.datatypeSupported scope

def anyEnabled : Bool :=
  compressors.default.isSome || compressors.intra.isSome || compressors.inter.isSome

theorem anyEnabled_iff : compressors.anyEnabled = true ↔
    ∃ scope, (compressors.get scope).isSome = true := by
  simp only [anyEnabled, Bool.or_eq_true, or_assoc]
  constructor
  · rintro (h | h | h)
    · exact ⟨.default, h⟩
    · exact ⟨.intra, h⟩
    · exact ⟨.inter, h⟩
  · rintro ⟨scope, h⟩
    cases scope with
    | default => exact .inl h
    | intra => exact .inr (.inl h)
    | inter => exact .inr (.inr h)

end RoutedCompressorSet

/-- `cocclPreparedCall` as routing fills it. -/
structure RoutedCall (κ : Type) where
  info : Info
  trainingRole : TrainingRole
  algorithm : AlgorithmKind
  compressors : RoutedCompressorSet κ

/-- A collective as its executor reads it. -/
def RoutedCall.prepared {κ : Type} (call : RoutedCall κ) (operation : Operation) :
    PreparedCall κ where
  operation := operation
  sendbuff := call.info.sendbuff
  recvbuff := call.info.recvbuff
  count := call.info.count
  datatype := call.info.datatype
  comm := call.info.comm.toComm
  algorithm := call.algorithm
  compressors := call.compressors.toPreparedCompressorSet

section

variable {κ : Type} (config : RouteConfig κ)

def floatingDatatypeSupported : DataType → Bool
  | .float16 | .float32 => true
  | .bfloat16 => config.bfloat16Supported
  | _ => false

def compressorDatatypeSupported (datatype : DataType) (compressor : κ) : Bool :=
  floatingDatatypeSupported config datatype ||
    (datatype = .int8 || datatype = .int32 || datatype = .int64) &&
      (config.plugins compressor).capabilities .bytewiseLossless

def shapeSupported (info : Info) : Bool :=
  if info.count = 0 then false
  else
    match info.operation with
    | .sendRecv =>
      match info.func with
      | .send => info.sendbuff ≠ 0
      | .recv => info.recvbuff ≠ 0
      | .other => false
    | .collective _ =>
      if info.sendbuff = 0 || info.recvbuff = 0 then false
      else !(cocclGetOperationDescriptor info.operation).countDivisibleByRanks ||
        info.count % info.comm.nRanks = 0

/-- The bytes compared with the threshold. -/
def totalBytes (info : Info) : Option ℕ :=
  let typeBytes := ncclTypeSize info.datatype
  if typeBytes ≤ 0 ∨ sizeMax / typeBytes.toNat < info.count then none
  else
    let value := info.count * typeBytes.toNat
    if (cocclGetOperationDescriptor info.operation).scaleBytesByRanks then
      if sizeMax / info.comm.nRanks < value then none else some (value * info.comm.nRanks)
    else some value

def tunableReduction (operation : CallOperation) : Bool :=
  operation = .collective .reduceScatter || operation = .collective .allReduce

/-- A message to a higher rank is forward, at its sender and at its receiver. -/
def sendRecvForward (info : Info) : Bool :=
  if info.func = .send then info.comm.rank < info.peer else info.peer < info.comm.rank

def trainingRole (comm : Comm) : TrainingRole :=
  if !config.trainingAssistEnabled then .unknown
  else (config.query comm.handle).getD .unknown

def preparedVariant (role : TrainingRole) (info : Info) : PolicyVariant :=
  if info.operation = .sendRecv ∧ role = .pipelineParallel then
    if sendRecvForward info then .forward else .backward
  else .default

/-- One scope's compressor, and the threshold it leaves. -/
def resolveScope (role : TrainingRole) (info : Info) (scope : CompressionScope) : Option κ :=
  config.policies role ⟨info.operation, preparedVariant role info, scope⟩

/-- What the loop over the scopes fills in. The threshold is that of the last scope that has a
compressor. -/
def resolvedCompressors (role : TrainingRole) (info : Info) : RoutedCompressorSet κ :=
  let resolve := resolveScope config role info
  { default := resolve .default
    intra := resolve .intra
    inter := resolve .inter
    datatypeSupported := fun scope =>
      (resolve scope).any (compressorDatatypeSupported config info.datatype)
    thresholdBytes :=
      (((resolve .inter).or ((resolve .intra).or (resolve .default))).map
        config.thresholdBytes).getD 0 }

def resolvePreparedCompressors (role : TrainingRole) (info : Info) :
    Result (RoutedCompressorSet κ) :=
  let compressors := resolvedCompressors config role info
  if compressors.anyEnabled then .ok compressors else .error .invalidUsage

theorem resolvedCompressors_get (role : TrainingRole) (info : Info) (scope : CompressionScope) :
    (resolvedCompressors config role info).get scope = resolveScope config role info scope := by
  cases scope <;> rfl

def callSupported (info : Info) : Bool :=
  if info.comm.nRanks ≤ 1 then false
  else if (cocclGetOperationDescriptor info.operation).reduction ∧ info.op ≠ .sum then false
  else shapeSupported info

/-- Of the buffers of a collective only matters whether one is missing. -/
theorem callSupported_congr {a b : Info} {operation : Operation}
    (ha : a.operation = .collective operation) (hb : b.operation = .collective operation)
    (hcount : a.count = b.count) (hop : a.op = b.op) (hnRanks : a.comm.nRanks = b.comm.nRanks)
    (hmissing : (a.sendbuff = 0 || a.recvbuff = 0) = (b.sendbuff = 0 || b.recvbuff = 0)) :
    callSupported a = callSupported b := by
  unfold callSupported shapeSupported
  rw [ha, hb, hcount, hop, hnRanks]
  simp only [hmissing]

/-- A supported AllReduce can be partitioned by ranks. -/
theorem callSupported_dvd {info : Info} (hinfo : info.operation = .collective .allReduce)
    (h : callSupported info = true) : info.count % info.comm.nRanks = 0 := by
  unfold callSupported shapeSupported at h
  rw [hinfo] at h
  split_ifs at h
  simpa [cocclGetOperationDescriptor] using h

/-! ## Scopes of an algorithm -/

def flatScope (info : Info) : CompressionScope :=
  match info.operation with
  | .sendRecv => if info.comm.rankToNode info.peer = info.comm.node then .intra else .inter
  | .collective _ => if info.comm.nNodes = 1 then .intra else .default

/-- The scopes an algorithm compresses in. -/
def algorithmScopes (info : Info) : AlgorithmKind → List CompressionScope
  | .reduceScatterTwoShot => [.intra, .inter]
  | .allReduceTripleShot => [.default, .intra, .inter]
  | _ => [flatScope info]

def cocclPreparedAlgorithmHasCompression (prepared : RoutedCall κ) (algorithm : AlgorithmKind) :
    Bool :=
  (algorithmScopes prepared.info algorithm).any fun scope =>
    (prepared.compressors.get scope).isSome

def cocclPreparedAlgorithmSupported (prepared : RoutedCall κ) (algorithm : AlgorithmKind) : Bool :=
  cocclPreparedAlgorithmHasCompression prepared algorithm &&
    (algorithmScopes prepared.info algorithm).all fun scope =>
      (prepared.compressors.get scope).isNone || prepared.compressors.supports scope

/-! ## The two entries -/

/-- Where a call goes: to native NCCL, or to the executor of the operation. -/
inductive Route (κ : Type) where
  | native
  | execute (prepared : RoutedCall κ)

variable (select : RoutedCall κ → Result AlgorithmKind)

/-- The call with no algorithm chosen yet. -/
def preparedCall (info : Info) (compressors : RoutedCompressorSet κ) : RoutedCall κ :=
  { info := info
    trainingRole := trainingRole config info.comm.toComm
    algorithm := .none
    compressors := compressors }

/-- The implicit route. Whatever does not qualify stays native; calls made while another one is
executed (`callerGuardActive`) are never looked at. -/
def cocclEnqueueCheck (callerGuardActive : Bool) (info : Info) : Route κ :=
  let role := trainingRole config info.comm.toComm
  if !config.compressionEnabled || callerGuardActive || !callSupported info then .native
  else
    match totalBytes info with
    | none => .native
    | some bytes =>
      if config.trainingAssistEnabled && role = .unknown then .native
      else
        match resolvePreparedCompressors config role info with
        | .error _ => .native
        | .ok compressors =>
          let prepared := preparedCall config info compressors
          if bytes ≤ compressors.thresholdBytes then .native
          else if tunableReduction info.operation then
            match select prepared with
            | .error _ => .native
            | .ok algorithm => .execute { prepared with algorithm := algorithm }
          else if cocclPreparedAlgorithmSupported prepared .none then .execute prepared
          else .native

/-- The explicit route. It has no threshold; an algorithm whose compressors do not take the datatype
is replayed natively. -/
def cocclEnqueueExplicitCall (info : Info) (algorithm : AlgorithmKind) : Result (Route κ) :=
  let role := trainingRole config info.comm.toComm
  if !config.compressionEnabled || !callSupported info ||
      config.trainingAssistEnabled && role = .unknown then .error .invalidUsage
  else do
    let compressors ← resolvePreparedCompressors config role info
    let prepared := preparedCall config info compressors
    let algorithm ←
      if algorithm = .none && tunableReduction info.operation then select prepared
      else pure algorithm
    if !cocclPreparedAlgorithmHasCompression prepared algorithm then .error .invalidUsage
    else if !cocclPreparedAlgorithmSupported prepared algorithm then .ok .native
    else .ok (.execute { prepared with algorithm := algorithm })

/-! ## Explicit calls that are not tuned -/

variable {config select} {info : Info} {algorithm : AlgorithmKind}

/-- What an explicit call must meet to be accepted. -/
structure ExplicitCallAccepted (config : RouteConfig κ) (info : Info) (algorithm : AlgorithmKind) :
    Prop where
  enabled : config.compressionEnabled = true
  supported : callSupported info = true
  role : config.trainingAssistEnabled = true → trainingRole config info.comm.toComm ≠ .unknown
  compressor : ∃ scope ∈ algorithmScopes info algorithm,
    (resolveScope config (trainingRole config info.comm.toComm) info scope).isSome = true

/-- The compressors of an accepted call's scopes take its datatype. -/
def ExplicitCallCompressible (config : RouteConfig κ) (info : Info) (algorithm : AlgorithmKind) :
    Prop :=
  ∀ scope ∈ algorithmScopes info algorithm,
    ∀ compressor ∈ resolveScope config (trainingRole config info.comm.toComm) info scope,
      compressorDatatypeSupported config info.datatype compressor = true

/-- The call an accepted one is executed as. -/
def explicitCall (config : RouteConfig κ) (info : Info) (algorithm : AlgorithmKind) :
    RoutedCall κ :=
  { preparedCall config info
      (resolvedCompressors config (trainingRole config info.comm.toComm) info) with
    algorithm := algorithm }

theorem explicitCall_hasCompression : cocclPreparedAlgorithmHasCompression
      (explicitCall config info algorithm) algorithm = true ↔
    ∃ scope ∈ algorithmScopes info algorithm,
      (resolveScope config (trainingRole config info.comm.toComm) info scope).isSome = true := by
  simp only [cocclPreparedAlgorithmHasCompression, explicitCall, preparedCall, List.any_eq_true,
    resolvedCompressors_get]

theorem explicitCall_supported : cocclPreparedAlgorithmSupported
      (explicitCall config info algorithm) algorithm = true ↔
    cocclPreparedAlgorithmHasCompression (explicitCall config info algorithm) algorithm = true ∧
      ExplicitCallCompressible config info algorithm := by
  rw [cocclPreparedAlgorithmSupported, Bool.and_eq_true, List.all_eq_true]
  refine and_congr_right fun _ => forall₂_congr fun scope _ => ?_
  -- a scope without a compressor asks for nothing
  simp only [explicitCall, preparedCall, RoutedCompressorSet.supports, resolvedCompressors_get]
  cases h : resolveScope config (trainingRole config info.comm.toComm) info scope with
  | none => simp
  | some compressor => simp [resolvedCompressors, h]

/-- An explicit call that names its algorithm is rejected, replayed natively or executed, whatever
the selector. -/
theorem cocclEnqueueExplicitCall_eq (halgorithm : algorithm ≠ .none) :
    cocclEnqueueExplicitCall config select info algorithm = open Classical in
      if ¬ExplicitCallAccepted config info algorithm then .error .invalidUsage
      else if ¬ExplicitCallCompressible config info algorithm then .ok .native
      else .ok (.execute (explicitCall config info algorithm)) := by
  classical
  unfold cocclEnqueueExplicitCall
  by_cases hreject : (!config.compressionEnabled || !callSupported info ||
      config.trainingAssistEnabled && trainingRole config info.comm.toComm = .unknown) = true
  · rw [if_pos hreject, if_pos]
    intro h
    simp only [h.enabled, h.supported, Bool.not_true, Bool.false_or, Bool.and_eq_true,
      decide_eq_true_eq] at hreject
    exact h.role hreject.1 hreject.2
  · rw [if_neg hreject]
    simp only [Bool.or_eq_true, Bool.not_eq_true', not_or, Bool.and_eq_true, decide_eq_true_eq,
      not_and, Bool.not_eq_false] at hreject
    obtain ⟨⟨henabled, hsupported⟩, hrole⟩ := hreject
    have haccepted : ExplicitCallAccepted config info algorithm ↔
        cocclPreparedAlgorithmHasCompression (explicitCall config info algorithm) algorithm =
          true :=
      ⟨fun h => explicitCall_hasCompression.mpr h.compressor,
        fun h => ⟨henabled, hsupported, hrole, explicitCall_hasCompression.mp h⟩⟩
    by_cases hany : (resolvedCompressors config (trainingRole config info.comm.toComm)
        info).anyEnabled = true
    · have hresolve : resolvePreparedCompressors config (trainingRole config info.comm.toComm)
          info = .ok (resolvedCompressors config (trainingRole config info.comm.toComm) info) :=
        if_pos hany
      rw [hresolve]
      have hnone : (decide (algorithm = .none) && tunableReduction info.operation) = false := by
        simp [halgorithm]
      simp only [hnone, Bool.false_eq_true, if_false, pure_bind]
      change (if !cocclPreparedAlgorithmHasCompression (explicitCall config info algorithm)
          algorithm then Except.error NcclError.invalidUsage
        else if !cocclPreparedAlgorithmSupported (explicitCall config info algorithm) algorithm
          then Except.ok Route.native
        else Except.ok (Route.execute (explicitCall config info algorithm))) = _
      by_cases h : cocclPreparedAlgorithmHasCompression (explicitCall config info algorithm)
          algorithm = true
      · by_cases h' : ExplicitCallCompressible config info algorithm
        · simp [h, h', haccepted, explicitCall_supported.mpr ⟨h, h'⟩]
        · have hsupported : cocclPreparedAlgorithmSupported
              (explicitCall config info algorithm) algorithm = false :=
            Bool.eq_false_iff.mpr fun hs => h' (explicitCall_supported.mp hs).2
          simp [h, h', haccepted, hsupported]
      · simp [h, haccepted]
    · have hresolve : resolvePreparedCompressors config (trainingRole config info.comm.toComm)
          info = .error .invalidUsage := if_neg hany
      rw [hresolve, if_pos]
      · rfl
      · rintro ⟨-, -, -, scope, -, hscope⟩
        exact hany ((RoutedCompressorSet.anyEnabled_iff _).mpr ⟨scope, by
          rw [resolvedCompressors_get]
          exact hscope⟩)

end

/-! ## Messages -/

/-- A message, with the communicator as each of its ends sees it. -/
structure Message where
  sender : PlacedComm
  receiver : PlacedComm
  nRanks_eq : receiver.nRanks = sender.nRanks
  rankToNode_eq : receiver.rankToNode = sender.rankToNode
  sendbuff : ℕ
  recvbuff : ℕ
  sendbuff_ne : sendbuff ≠ 0
  recvbuff_ne : recvbuff ≠ 0
  count : ℕ
  datatype : DataType

def Message.send (m : Message) (stream : ℕ) : Info :=
  ⟨m.sendbuff, 0, m.count, m.datatype, .sum, m.receiver.rank, .send, .sendRecv, m.sender, stream⟩

def Message.recv (m : Message) (stream : ℕ) : Info :=
  ⟨0, m.recvbuff, m.count, m.datatype, .sum, m.sender.rank, .recv, .sendRecv, m.receiver, stream⟩

section

variable {κ : Type} (config : RouteConfig κ) (select select' : RoutedCall κ → Result AlgorithmKind)
  (callerGuardActive : Bool)

/-- The compressors a call is executed with, and the scope of a flat one. -/
def Route.compression : Route κ → Option (RoutedCompressorSet κ × CompressionScope)
  | .native => none
  | .execute prepared => some (prepared.compressors, flatScope prepared.info)

/-- The route of a send or a receive in closed form. -/
theorem cocclEnqueueCheck_sendRecv {info : Info} (hinfo : info.operation = .sendRecv) :
    let role := trainingRole config info.comm.toComm
    let compressors := resolvedCompressors config role info
    (cocclEnqueueCheck config select callerGuardActive info).compression =
      if config.compressionEnabled ∧ callerGuardActive = false ∧ callSupported info ∧
          (config.trainingAssistEnabled → role ≠ .unknown) ∧
          (totalBytes info).any (fun bytes => compressors.thresholdBytes < bytes) ∧
          compressors.supports (flatScope info) then
        some (compressors, flatScope info)
      else none := by
  have htunable : tunableReduction info.operation = false := by
    rw [hinfo]
    rfl
  simp only [cocclEnqueueCheck, resolvePreparedCompressors, htunable]
  generalize resolvedCompressors config (trainingRole config info.comm.toComm) info = compressors
  have hsupported : cocclPreparedAlgorithmSupported (preparedCall config info compressors) .none =
      compressors.supports (flatScope info) := by
    simp only [cocclPreparedAlgorithmSupported, cocclPreparedAlgorithmHasCompression,
      algorithmScopes, preparedCall, List.any_cons, List.any_nil, List.all_cons, List.all_nil,
      RoutedCompressorSet.supports]
    cases compressors.get (flatScope info) <;> simp
  have hany : compressors.supports (flatScope info) = true → compressors.anyEnabled = true :=
    fun h => compressors.anyEnabled_iff.mpr ⟨flatScope info, (Bool.and_eq_true_iff.mp h).1⟩
  cases totalBytes info <;> cases henabled : compressors.anyEnabled <;>
    grind [Route.compression, preparedCall]

/-- **Both ends of a message route it alike**, if the assist answers the same to both: natively, or
through one compressor. -/
theorem cocclEnqueueCheck_message (role : Option TrainingRole) (m : Message) (stream stream' : ℕ) :
    (cocclEnqueueCheck { config with query := fun _ => role } select callerGuardActive
        (m.send stream)).compression =
      (cocclEnqueueCheck { config with query := fun _ => role } select' callerGuardActive
        (m.recv stream')).compression := by
  have hscope : flatScope (m.recv stream') = flatScope (m.send stream) := by
    simp [flatScope, Message.send, Message.recv, PlacedComm.node, m.rankToNode_eq, eq_comm]
  have hsupported : callSupported (m.recv stream') = callSupported (m.send stream) := by
    simp [callSupported, shapeSupported, Message.send, Message.recv, m.nRanks_eq, m.sendbuff_ne,
      m.recvbuff_ne, cocclGetOperationDescriptor]
  -- the bytes, the direction and so the compressors are computed from the same values
  rw [cocclEnqueueCheck_sendRecv _ _ _ rfl, cocclEnqueueCheck_sendRecv _ _ _ rfl, hscope,
    hsupported]
  rfl

end

end Coccl
