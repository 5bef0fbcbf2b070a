import Coccl.Training.Classify
import Coccl.Training.Detect
import Coccl.Foundations.Transitions

/-!
# The training assist

Communicators are registered, their calls observed, and their roles committed: at once where the
configured sizes tell, else for all together when iterations are detected in the trace or it is
full. A committed role is answered when the communicator has made enough calls.
-/

namespace Coccl

def maxTrainingEvents : ℕ := 65536

def minimumObservedBytes : ℕ := 2 ^ 20

/-! ## State -/

/-- `cocclTrainingAssistCommState`; the 64-bit `observedCalls` is taken as unbounded. -/
structure AssistComm where
  descriptor : TraceComm
  classification : Classification
  observedCalls : ℕ
  routingActivationCall : ℕ
  deriving DecidableEq

/-- The registry, by the communicators' handles, and the trace; the 64-bit `nextCommId` is taken as
unbounded. -/
structure AssistState where
  comms : List (ℕ × AssistComm)
  events : List TraceEvent
  nextCommId : ℕ
  deriving DecidableEq

namespace AssistState

def initial : AssistState := ⟨[], [], 1⟩

def find (s : AssistState) (handle : ℕ) : Option AssistComm :=
  (s.comms.find? fun entry => entry.1 = handle).map (·.2)

/-- The entry of one communicator, changed. -/
def setComm (s : AssistState) (handle : ℕ) (comm : AssistComm) : AssistState :=
  { s with comms := s.comms.map fun entry => if entry.1 = handle then (handle, comm) else entry }

def allCommsCommitted (s : AssistState) : Bool :=
  s.comms.all fun entry => entry.2.classification.committed

def releaseTrace (s : AssistState) : AssistState := { s with events := [] }

def releaseIfCommitted (s : AssistState) : AssistState :=
  if s.allCommsCommitted then s.releaseTrace else s

end AssistState

/-! ## Commits -/

/-- What a trace commit does to one communicator. -/
def AssistComm.commit (results : List (ℕ × Classification)) (targetIterations : ℤ)
    (comm : AssistComm) : AssistComm :=
  if comm.classification.committed then comm
  else
    let classification := (results.lookup comm.descriptor.communicatorId).getD comm.classification
    { comm with
      classification := { classification with committed := true }
      routingActivationCall :=
        if classification.role ≠ .unknown then
          sizeMul (sizeMul 2 targetIterations.toNat) (max 1 classification.callsPerIteration)
        else comm.routingActivationCall }

section

variable [Doubles] (config : TrainingConfig)

/-- `commitTraceLocked`. -/
def AssistState.commitTrace (s : AssistState) (iterations : List IterationRange) : AssistState :=
  let results := cocclTrainingClassifyTrace (s.comms.map fun entry => entry.2.descriptor) s.events
    iterations config.observationIterations config
  AssistState.releaseIfCommitted { s with
    comms := s.comms.map fun entry =>
      (entry.1, entry.2.commit results config.observationIterations) }

/-- The iterations for which the trace is committed, if it is. -/
def committedIterations (events : List TraceEvent) : Option (List IterationRange) :=
  let targetIterations := config.observationIterations
  let detected :=
    if targetIterations.toNat * minimumCycleEvents ≤ events.length then
      cocclTrainingDetectIterations events targetIterations
    else none
  match detected with
  | some iterations => some iterations
  | none =>
    if maxTrainingEvents ≤ events.length then
      some ((cocclTrainingDetectIterations events (min 3 targetIterations)).getD
        [⟨0, events.length⟩])
    else none

/-! ## Calls -/

/-- `args->func`; an AllToAll has none. -/
def observedFunc (info : Info) : NcclFunc :=
  match info.operation with
  | .sendRecv =>
    match info.func with
    | .send => .send
    | .recv => .recv
    | .other => .numFuncs
  | .collective .allGather => .allGather
  | .collective .reduceScatter => .reduceScatter
  | .collective .allReduce => .allReduce
  | .collective .allToAll => .numFuncs

def callTopologyRole (info : Info) : TrainingRole :=
  cocclTrainingTopologyRole info.comm.nRanks (observedFunc info) config

namespace AssistState

variable (enabled : Bool)

/-- `cocclTrainingAssistRegister`. -/
def register (s : AssistState) (comm : PlacedComm) : AssistState :=
  if !enabled || (s.find comm.handle).isSome then s
  else
    let descriptor : TraceComm := ⟨s.nextCommId, comm.nRanks, comm.nNodes⟩
    { s with
      comms := s.comms.orderedInsert (fun a b => a.1 ≤ b.1)
        (comm.handle, ⟨descriptor, unclassified, 0, 0⟩)
      nextCommId := s.nextCommId + 1 }

/-- `cocclTrainingAssistUnregister`. -/
def unregister (s : AssistState) (handle : ℕ) : AssistState :=
  let s := { s with comms := s.comms.filter fun entry => entry.1 ≠ handle }
  if s.comms.isEmpty then s.releaseTrace else s

/-- A commit by the configured sizes. -/
def commitTopology (s : AssistState) (handle : ℕ) (comm : AssistComm) (role : TrainingRole) :
    AssistState :=
  (s.setComm handle { comm with
    classification := { comm.classification with
      role := role
      candidateRole := role
      confidence := 1
      committed := true } }).releaseIfCommitted

/-- A call that is put in the trace. -/
def appendEvent (s : AssistState) (event : TraceEvent) : AssistState :=
  let s := { s with events := s.events ++ [event] }
  match committedIterations config s.events with
  | some iterations => s.commitTrace config iterations
  | none => s

/-- `cocclTrainingAssistObserve`. -/
def observe (s : AssistState) (info : Info) (timestampNs : ℕ) : AssistState :=
  let topologyRole := callTopologyRole config info
  let logicalBytes := if topologyRole = .unknown then totalBytes info else some 0
  if !enabled || !(observedFunc info).isObservedOperation then s
  else
    match logicalBytes with
    | none => s
    | some bytes =>
      if topologyRole = .unknown ∧ bytes < minimumObservedBytes then s
      else
        match s.find info.comm.handle with
        | none => s
        | some comm =>
          if topologyRole = .unknown then
            let comm := { comm with observedCalls := comm.observedCalls + 1 }
            let s := s.setComm info.comm.handle comm
            if comm.classification.committed then s
            else s.appendEvent config ⟨comm.descriptor.communicatorId, observedFunc info, bytes,
              info.peer, timestampNs⟩
          else if comm.classification.committed then s
          else s.commitTopology info.comm.handle comm topologyRole

/-- `cocclTrainingAssistQuery`; `none` is its `false`. -/
def query (s : AssistState) (handle : ℕ) : Option Classification :=
  if !enabled then none
  else
    (s.find handle).bind fun comm =>
      if comm.classification.committed ∧
          (comm.routingActivationCall = 0 ∨ comm.routingActivationCall ≤ comm.observedCalls) then
        some comm.classification
      else none

end AssistState

/-! ## Runs -/

inductive AssistAction where
  | register (comm : PlacedComm)
  | unregister (handle : ℕ)
  | observe (info : Info) (timestampNs : ℕ)

variable (enabled : Bool)

def AssistState.after (s : AssistState) : AssistAction → AssistState
  | .register comm => s.register enabled comm
  | .unregister handle => s.unregister handle
  | .observe info timestampNs => s.observe config enabled info timestampNs

def AssistState.step (s : AssistState) (action : AssistAction) : Option AssistState :=
  some (s.after config enabled action)

end

end Coccl
