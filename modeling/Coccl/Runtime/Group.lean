import Coccl.Foundations.Calls
import Coccl.Runtime.Route

/-!
# Groups

The thread-local state behind `ncclGroupStart` and `ncclGroupEnd`, with the queue of calls held back
until the outermost group ends. There the whole queue is either replayed natively, before the native
launch, or executed compressed, after it. Both re-enter the public interface, so it is defined over
itself (`api`), to a depth of nesting; the queue that is swapped out and the guard keep the inner
calls from queueing anything. What native NCCL does is chosen from outside (`GroupEnv`), one answer
for each `tick`.
-/

namespace Coccl

open Calls

/-! ## State -/

/-- What happens, in order. -/
inductive GroupEvent (κ : Type) where
  /-- A call was put in the queue. -/
  | queued (call : RoutedCall κ)
  /-- A native call was accepted. -/
  | task (info : Info)
  /-- The tasks of a group were launched. -/
  | launched (tasks : List Info)
  /-- `ncclGroupEnd` was called and saw this queue. -/
  | groupEnded (seen : List (RoutedCall κ))
  /-- The executor of a call was run. -/
  | executed (call : RoutedCall κ)
  /-- `cocclExecuteSendRecvBatch` was run. -/
  | batchExecuted (calls : List (RoutedCall κ))

/-- The variables of a thread. `nativeTasks` stands for the work native NCCL has pending:
`ncclGroupCommHead` and the two other lists. -/
structure GroupState (κ : Type) where
  groupDepth : ℕ
  groupError : Option NcclError
  nativeTasks : List Info
  pendingCalls : List (RoutedCall κ)
  callerGuardActive : Bool
  tick : ℕ
  log : List (GroupEvent κ)

/-- What `ncclEnqueueCheck` meets: an error in its checks, and what a communicator that is not
blocking reports in place of the result. -/
structure NativeReply where
  failure : Option {error : NcclError // error ≠ .inProgress}
  asyncResult : Option (Result Unit)

/-- A step of an executor that matters to groups. `other` is any other work that may fail. -/
inductive BatchStep where
  | exchange (infos : List Info)
  | other

/-- The executors of collectives call native collectives too. -/
inductive ExecutorStep where
  | native (info : Info)
  | batch (step : BatchStep)

/-- The outside of a thread. `reply true` answers the sends and receives of `ncclAllToAll`, `reply
false` all other native calls. -/
structure GroupEnv (κ : Type) where
  config : ℕ → RouteConfig κ
  select : ℕ → RoutedCall κ → Result AlgorithmKind
  reply : Bool → ℕ → NativeReply
  launch : ℕ → Result Unit
  other : ℕ → Result Unit
  executor : RoutedCall κ → ℕ → List ExecutorStep
  batch : List (RoutedCall κ) → ℕ → List BatchStep

/-- `NCCLCHECK` lets `ncclInProgress` pass. -/
def checkFails : Result Unit → Bool
  | .ok () => false
  | .error error => error ≠ .inProgress

/-- The comparison with `ncclSuccess`. -/
def notSuccess : Result Unit → Bool
  | .ok () => false
  | .error _ => true

abbrev GroupCall (κ : Type) := Call (GroupState κ) (Result Unit)

namespace GroupState

variable {κ : Type}

/-- The next answer from outside. -/
def next (s : GroupState κ) : GroupState κ := { s with tick := s.tick + 1 }

def record (s : GroupState κ) (event : GroupEvent κ) : GroupState κ :=
  { s with log := s.log ++ [event] }

def withGuard (s : GroupState κ) (guard : Bool) : GroupState κ :=
  { s with callerGuardActive := guard }

/-- `ncclGroupStart`. -/
def groupStart (s : GroupState κ) : GroupState κ := { s with groupDepth := s.groupDepth + 1 }

/-- `groupCleanup`. -/
def groupCleanup (s : GroupState κ) : GroupState κ :=
  { s with groupError := none, nativeTasks := [] }

/-- `cocclGroupEnqueue`. -/
def cocclGroupEnqueue (s : GroupState κ) (call : RoutedCall κ) : GroupState κ :=
  { s with pendingCalls := s.pendingCalls ++ [call] }.record (.queued call)

/-- `cocclGroupAbort`. -/
def cocclGroupAbort (s : GroupState κ) : GroupState κ := { s with pendingCalls := [] }

/-- `ncclGroupErrCheck`; the depth is positive where it is called. -/
def groupErrCheck (s : GroupState κ) (result : Result Unit) : GroupState κ :=
  match result with
  | .ok () => s
  | .error error => if error = .inProgress then s else { s with groupError := some error }

end GroupState

/-- The call `cocclGroupEnqueueNative` queues: without compressors. -/
def nativePending {κ : Type} (info : Info) : RoutedCall κ where
  info := info
  trainingRole := .unknown
  algorithm := .none
  compressors := ⟨⟨none, none, none⟩, fun _ => false, 0⟩

/-! ## Native NCCL -/

section

variable {κ : Type} (env : GroupEnv κ)

/-- `ncclGroupEndInternal`. A launch that is not blocking keeps the thread's lists until the job is
complete. -/
def ncclGroupEndInternal (s : GroupState κ) : Result Unit × GroupState κ :=
  if s.groupDepth = 0 then (.error .invalidUsage, s)
  else
    let s := { s with groupDepth := s.groupDepth - 1 }
    if 0 < s.groupDepth then (.ok (), s)
    else
      match s.groupError with
      | some error => (.error error, s.groupCleanup)
      | none =>
        if s.nativeTasks.isEmpty then (.ok (), s)
        else
          let launched := s.next.record (.launched s.nativeTasks)
          match env.launch s.tick with
          | .ok () => (.ok (), launched.groupCleanup)
          | .error .inProgress => (.error .inProgress, launched)
          | .error error => (.error error, s.next.groupCleanup)

/-- A collective of nothing is dropped, and one of a single rank is launched at once. -/
def taskAppend (info : Info) (s : GroupState κ) : GroupState κ :=
  if info.operation ≠ .sendRecv ∧ info.count = 0 then s
  else if info.operation ≠ .sendRecv ∧ info.comm.nRanks = 1 then s.record (.launched [info])
  else { s with nativeTasks := s.nativeTasks ++ [info] }.record (.task info)

/-- `ncclEnqueueCheck` up to the end of its group: the checks and the new task. `inner` marks the
calls of `ncclAllToAll`. -/
def appendTask (inner : Bool) (info : Info) (s : GroupState κ) : Result Unit × GroupState κ :=
  let started := s.groupStart.next
  match (env.reply inner s.tick).failure with
  | none => (.ok (), taskAppend info started)
  | some error => (.error error, started.groupErrCheck (.error error))

def ncclEnqueueCheck (inner : Bool) (info : Info) (s : GroupState κ) : Result Unit × GroupState κ :=
  let appended := appendTask env inner info s
  let ended := ncclGroupEndInternal env appended.2
  (if checkFails ended.1 then ended.1
    else (env.reply inner s.tick).asyncResult.getD appended.1, ended.2)

end

/-! ## The public interface, over itself -/

/-- The calls that re-enter. -/
inductive ApiCall where
  | publicCall (info : Info) (inner : Bool)
  | groupEnd

section

variable {κ : Type} (env : GroupEnv κ) (api : ApiCall → GroupCall κ)

/-- `cocclReplayNativeCall`: the public call, under the guard. -/
def cocclReplayNativeCall (info : Info) (inner : Bool) : GroupCall κ := fun s =>
  match api (.publicCall info inner) (s.withGuard true) with
  | none => none
  | some (result, s') => some (result, s'.withGuard s.callerGuardActive)

/-- A call of the point-to-point interface inside `ncclAllToAll`. -/
def peerCall (info : Info) (func : CallFunc) (peer : ℕ) : Info :=
  let offset := peer * info.count * (ncclTypeSize info.datatype).toNat
  { info with
    sendbuff := if func = .send then info.sendbuff + offset else 0
    recvbuff := if func = .send then 0 else info.recvbuff + offset
    peer := peer
    func := func
    operation := .sendRecv }

/-- The receive and the send for every rank. -/
def peerCalls (info : Info) : List Info :=
  (List.range info.comm.nRanks).flatMap fun peer =>
    [peerCall info .recv peer, peerCall info .send peer]

/-- `ncclAllToAll` where it is not enqueued. A failing send or receive returns at once. -/
def allToAllNative (info : Info) : GroupCall κ := fun s =>
  match sequence checkFails (.ok ())
      ((peerCalls info).map fun call => cocclReplayNativeCall api call true) s.groupStart with
  | none => none
  | some (result, s) =>
    if checkFails result then some (result, s)
    else
      match api .groupEnd s with
      | none => none
      | some (ended, s) => some (if checkFails ended then ended else .ok (), s)

/-- The native part of a public call. -/
def nativeCall (info : Info) (inner : Bool) : GroupCall κ := fun s =>
  match info.operation with
  | .collective .allToAll => allToAllNative api info s
  | .collective _ =>
    let checked := ncclEnqueueCheck env inner info s
    some (if checkFails checked.1 then checked.1 else .ok (), checked.2)
  | .sendRecv => some (ncclEnqueueCheck env inner info s)

/-- `cocclCommitFrameExchange`: a group of replayed calls. The group is ended whatever fails. -/
def exchangeGroup (infos : List Info) : GroupCall κ := fun s =>
  match sequence notSuccess (.ok ())
      (infos.map fun info => cocclReplayNativeCall api info false) s.groupStart with
  | none => none
  | some (result, s) =>
    match api .groupEnd s with
    | none => none
    | some (ended, s) => some (if notSuccess result then result else ended, s)

def batchStep : BatchStep → GroupCall κ
  | .exchange infos => exchangeGroup api infos
  | .other => fun s => some (env.other s.tick, s.next)

def executorStep : ExecutorStep → GroupCall κ
  | .native info => api (.publicCall info false)
  | .batch step => batchStep env api step

/-- `cocclExecuteSendRecvBatch`. -/
def cocclExecuteSendRecvBatch (calls : List (RoutedCall κ)) : GroupCall κ := fun s =>
  sequence checkFails (.ok ()) ((env.batch calls s.tick).map (batchStep env api))
    (s.record (.batchExecuted calls))

/-- The executor of an operation. -/
def runExecutor (call : RoutedCall κ) : GroupCall κ := fun s =>
  match call.info.operation with
  | .sendRecv =>
    sequence checkFails (.ok ()) ((env.batch [call] s.tick).map (batchStep env api)) s
  | .collective _ =>
    sequence checkFails (.ok ()) ((env.executor call s.tick).map (executorStep env api)) s

/-- `cocclExecutePreparedCall`: the executor, under the guard. -/
def cocclExecutePreparedCall (call : RoutedCall κ) : GroupCall κ := fun s =>
  if call.compressors.anyEnabled then
    match runExecutor env api call ((s.record (.executed call)).withGuard true) with
    | none => none
    | some (result, s') => some (result, s'.withGuard s.callerGuardActive)
  else some (.error .invalidArgument, s)

/-- `cocclEnqueuePreparedCall`. -/
def cocclEnqueuePreparedCall (call : RoutedCall κ) : GroupCall κ := fun s =>
  if 0 < s.groupDepth then some (.ok (), s.cocclGroupEnqueue call)
  else cocclExecutePreparedCall env api call s

/-- A public call: routed by `cocclEnqueueCheck`, native if that does not enqueue it. -/
def publicCall (info : Info) (inner : Bool) : GroupCall κ := fun s =>
  let config := env.config s.tick
  if !config.compressionEnabled || s.callerGuardActive then nativeCall env api info inner s
  else
    match cocclEnqueueCheck config (env.select s.tick) s.callerGuardActive info with
    | .execute call =>
      match cocclEnqueuePreparedCall env api call s with
      | none => none
      | some (result, s) => some (if checkFails result then result else .ok (), s)
    | .native =>
      if 0 < s.groupDepth ∧ info.operation = .sendRecv then
        some (.ok (), s.cocclGroupEnqueue (nativePending info))
      else nativeCall env api info inner s

/-! ## Ending a group -/

/-- Whether the queue is replayed natively. -/
def replayNative (nativeWork : Bool) (calls : List (RoutedCall κ)) : Bool :=
  nativeWork || calls.any (fun call => !call.compressors.anyEnabled) ||
    calls.any (fun call => call.info.operation = .sendRecv) &&
      calls.any (fun call => call.info.operation ≠ .sendRecv)

def cocclGroupPrepareEnd (nativeWork : Bool) : GroupCall κ := fun s =>
  if replayNative nativeWork s.pendingCalls then
    sequence notSuccess (.ok ())
      (s.pendingCalls.map fun call => cocclReplayNativeCall api call.info false)
      { s with pendingCalls := [] }
  else some (.ok (), s)

def cocclGroupDrain : GroupCall κ := fun s =>
  match s.pendingCalls with
  | [] => some (.ok (), s)
  | first :: rest =>
    let detached := { s with pendingCalls := [] }
    if first.info.operation = .sendRecv then
      cocclExecuteSendRecvBatch env api (first :: rest) detached
    else
      sequence notSuccess (.ok ())
        ((first :: rest).map (cocclExecutePreparedCall env api)) detached

/-- The end of `ncclGroupEnd`. -/
def groupEndExit (result : Result Unit) (s : GroupState κ) : Result Unit × GroupState κ :=
  (result, if notSuccess result then s.cocclGroupAbort else s)

/-- The native end of a group, and what is left of the queue after it. -/
def groupEndNative (outermost : Bool) : GroupCall κ := fun s =>
  let ended := ncclGroupEndInternal env s
  if notSuccess ended.1 = false ∧ outermost ∧ !ended.2.pendingCalls.isEmpty then
    (cocclGroupDrain env api ended.2).map fun drained => groupEndExit drained.1 drained.2
  else some (groupEndExit ended.1 ended.2)

/-- `ncclGroupError` takes the first error. -/
def firstError (groupError : Option NcclError) (prepared : Result Unit) : Option NcclError :=
  match groupError, prepared with
  | none, .error error => some error
  | groupError, _ => groupError

def ncclGroupEnd : GroupCall κ := fun s =>
  let outermost := s.groupDepth = 1
  let entered := s.record (.groupEnded s.pendingCalls)
  if outermost ∧ !s.pendingCalls.isEmpty then
    match cocclGroupPrepareEnd api (!s.nativeTasks.isEmpty) entered with
    | none => none
    | some (prepared, s') =>
      groupEndNative env api outermost
        { s' with groupError := firstError s'.groupError prepared }
  else groupEndNative env api outermost entered

end

/-- The interface, to a depth of nested calls. -/
def api {κ : Type} (env : GroupEnv κ) : ℕ → ApiCall → GroupCall κ
  | 0, _ => fun _ => none
  | n + 1, .publicCall info inner => publicCall env (api env n) info inner
  | n + 1, .groupEnd => ncclGroupEnd env (api env n)

/-! ## A thread -/

/-- What the program does. `explicitCall` asks for compression by name, `directCall` is a
point-to-point call that does, and `jobComplete` is the end of a launch that is not blocking. -/
inductive GroupAction where
  | groupStart
  | groupEnd
  | publicCall (info : Info)
  | explicitCall (info : Info) (algorithm : AlgorithmKind)
  | directCall (info : Info)
  | jobComplete

section

variable {κ : Type} (env : GroupEnv κ)

def cocclEnqueueExplicit (n : ℕ) (info : Info) (algorithm : AlgorithmKind) : GroupCall κ := fun s =>
  match cocclEnqueueExplicitCall (env.config s.tick) (env.select s.tick) info algorithm with
  | .error error => some (.error error, s)
  | .ok .native => cocclReplayNativeCall (api env n) info false s
  | .ok (.execute call) => cocclEnqueuePreparedCall env (api env n) call s

def submitDirect (n : ℕ) (info : Info) : GroupCall κ := fun s =>
  if info.count = 0 then
    if 0 < s.groupDepth then some (.ok (), s.cocclGroupEnqueue (nativePending info))
    else cocclReplayNativeCall (api env n) info false s
  else cocclEnqueueExplicit env n info .none s

/-- One call of the program, with `n` levels of nested calls below it. -/
def GroupAction.call (n : ℕ) : GroupAction → GroupCall κ
  | .groupStart => fun s => some (.ok (), s.groupStart)
  | .groupEnd => api env (n + 1) .groupEnd
  | .publicCall info => api env (n + 1) (.publicCall info false)
  | .explicitCall info algorithm => cocclEnqueueExplicit env n info algorithm
  | .directCall info => submitDirect env n info
  | .jobComplete => fun s => some (.ok (), s.groupCleanup)

/-- A thread, with the groups its program has open. -/
structure GroupThread (κ : Type) where
  state : GroupState κ
  nesting : ℕ

def GroupAction.nesting (nesting : ℕ) : GroupAction → ℕ
  | .groupStart => nesting + 1
  | .groupEnd => nesting - 1
  | _ => nesting

def GroupThread.step (n : ℕ) (thread : GroupThread κ) (action : GroupAction) :
    Option (GroupThread κ) :=
  (action.call env n thread.state).map fun outcome => ⟨outcome.2, action.nesting thread.nesting⟩

/-- A thread before its first call. -/
def GroupThread.initial : GroupThread κ := ⟨⟨0, none, [], [], false, 0, []⟩, 0⟩

end

end Coccl
