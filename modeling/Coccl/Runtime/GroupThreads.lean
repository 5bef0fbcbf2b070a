import Coccl.Foundations.Transitions
import Coccl.Runtime.GroupOnce

/-!
# Grouped calls run once

In every state a thread reaches, the depth that the runtime counts is the nesting of the program's
groups, no queue is left outside a group, and what is queued is what the program's calls have queued
since the group was opened.
-/

namespace Coccl

open Calls Transitions GroupThread GroupState

variable {κ : Type}

/-! ## What one call of the program does -/

def GroupEvent.queuedCall? : GroupEvent κ → Option (RoutedCall κ)
  | .queued call => some call
  | _ => none

/-- The calls that were queued, in order. -/
def queuedCalls (events : List (GroupEvent κ)) : List (RoutedCall κ) :=
  events.filterMap GroupEvent.queuedCall?

theorem queuedCalls_unqueued {queue : List (RoutedCall κ)} {events : List (GroupEvent κ)}
    (h : ∀ e ∈ events, e.Unqueued queue) : queuedCalls events = [] := by
  refine List.filterMap_eq_nil_iff.mpr fun e he => ?_
  have hunqueued := h e he
  cases e <;> first | rfl | exact hunqueued.elim

/-- A call inside the program's groups: what it queues is recorded, and nothing is queued outside a
group. -/
structure Adds (s s' : GroupState κ) : Prop where
  depth : s'.groupDepth = s.groupDepth
  guard : s'.callerGuardActive = s.callerGuardActive
  queue : ∃ events, s'.log = s.log ++ events ∧
    s'.pendingCalls = s.pendingCalls ++ queuedCalls events
  closed : s.groupDepth = 0 → s'.pendingCalls = s.pendingCalls

variable {s s' : GroupState κ}

theorem Keeps.adds (h : Keeps s s') : Adds s s' := by
  obtain ⟨events, hlog, hunqueued⟩ := h.log
  refine ⟨h.depth, h.guard, ⟨events, hlog, ?_⟩, fun _ => h.pending⟩
  rw [queuedCalls_unqueued hunqueued, List.append_nil, h.pending]

variable {s : GroupState κ}

theorem cocclGroupEnqueue_adds (call : RoutedCall κ) (h : 0 < s.groupDepth) :
    Adds s (s.cocclGroupEnqueue call) :=
  ⟨rfl, rfl, ⟨[.queued call], rfl, rfl⟩, fun hzero => absurd hzero (by omega)⟩

section

variable {env : GroupEnv κ} {n : ℕ}

theorem nativeCall_adds (hinner : env.InnerSucceeds) (info : Info) (inner : Bool)
    (hs : s.Sheltered) :
    ∃ r s', nativeCall env (api env (n + 2)) info inner s = some (r, s') ∧ Adds s s' := by
  obtain ⟨r, s', hcall, hdone⟩ := @nativeCall_done κ env (n + 1) hinner info inner s hs
  exact ⟨r, s', hcall, hdone.1.keeps.adds⟩

theorem replay_adds (hinner : env.InnerSucceeds) (info : Info) (inner : Bool) (hs : s.Sheltered) :
    ∃ r s', cocclReplayNativeCall (api env (n + 2)) info inner s = some (r, s') ∧ Adds s s' := by
  obtain ⟨r, s', hcall, hdone⟩ := @replay_done κ env n hinner info inner s hs
  exact ⟨r, s', hcall, hdone.1.keeps.adds⟩

theorem enqueuePrepared_adds (hinner : env.InnerSucceeds) (call : RoutedCall κ) {s : GroupState κ}
    (hs : s.Sheltered) :
    ∃ r s', cocclEnqueuePreparedCall env (api env (n + 2)) call s = some (r, s') ∧ Adds s s' := by
  unfold cocclEnqueuePreparedCall
  split
  · next hdepth => exact ⟨_, _, rfl, cocclGroupEnqueue_adds call hdepth⟩
  · obtain ⟨r, s', hcall, hkeeps⟩ := @execute_keeps κ env n hinner call s hs
    exact ⟨r, s', hcall, hkeeps.adds⟩

theorem publicCall_adds (hinner : env.InnerSucceeds) (info : Info) (inner : Bool) {s : GroupState κ}
    (hs : s.Sheltered) :
    ∃ r s', publicCall env (api env (n + 2)) info inner s = some (r, s') ∧ Adds s s' := by
  unfold publicCall
  simp only
  split
  · exact nativeCall_adds hinner info inner hs
  · split
    · next call _ =>
      obtain ⟨r, s', hcall, hadds⟩ := @enqueuePrepared_adds κ env n hinner call s hs
      exact ⟨_, s', by rw [hcall], hadds⟩
    · split
      · next hopen => exact ⟨_, _, rfl, cocclGroupEnqueue_adds _ hopen.1⟩
      · exact nativeCall_adds hinner info inner hs

theorem cocclEnqueueExplicit_adds (hinner : env.InnerSucceeds) (info : Info)
    (algorithm : AlgorithmKind) (hs : s.Sheltered) :
    ∃ r s', cocclEnqueueExplicit env (n + 2) info algorithm s = some (r, s') ∧ Adds s s' := by
  unfold cocclEnqueueExplicit
  split
  · exact ⟨_, s, rfl, Keeps.adds (.refl s)⟩
  · exact replay_adds hinner info false hs
  · exact enqueuePrepared_adds hinner _ hs

theorem submitDirect_adds (hinner : env.InnerSucceeds) (info : Info) (hs : s.Sheltered) :
    ∃ r s', submitDirect env (n + 2) info s = some (r, s') ∧ Adds s s' := by
  unfold submitDirect
  split
  · split
    · next hdepth => exact ⟨_, _, rfl, cocclGroupEnqueue_adds _ hdepth⟩
    · exact replay_adds hinner info false hs
  · exact cocclEnqueueExplicit_adds hinner info .none hs

/-- The end of a group that is not open. -/
theorem ncclGroupEnd_unopened (inherited : ApiCall → GroupCall κ) (hdepth : s.groupDepth = 0) :
    ncclGroupEnd env inherited s = some (.error .invalidUsage,
      (s.record (.groupEnded s.pendingCalls)).cocclGroupAbort) := by
  simp [ncclGroupEnd, groupEndNative, ncclGroupEndInternal, groupEndExit, notSuccess,
    record, hdepth]

/-- What one call of the program does, the end of its outermost group apart. -/
structure ActionDone (action : GroupAction) (s s' : GroupState κ) : Prop where
  depth : s'.groupDepth = action.nesting s.groupDepth
  guard : s'.callerGuardActive = s.callerGuardActive
  queue : ∃ events, s'.log = s.log ++ events ∧
    s'.pendingCalls = s.pendingCalls ++ queuedCalls events

variable {action : GroupAction}

theorem Adds.actionDone (h : Adds s s') (haction : action.nesting s.groupDepth = s.groupDepth) :
    ActionDone action s s' :=
  ⟨h.depth.trans haction.symm, h.guard, h.queue⟩

/-- A group that ends without a look at the queue. -/
theorem Closes.actionDone (h : Closes s s') : ActionDone .groupEnd s s' := by
  obtain ⟨events, hlog, hinner⟩ := h.log
  refine ⟨?_, h.guard, events, hlog, ?_⟩
  · have := h.depth
    simp only [GroupAction.nesting]
    omega
  · rw [queuedCalls_unqueued fun e he => (hinner e he).unqueued, List.append_nil, h.pending]

/-- A call returns, and what it does then. -/
def ActionReturns (env : GroupEnv κ) (n : ℕ) (action : GroupAction) (s : GroupState κ) : Prop :=
  ∃ r s', action.call env n s = some (r, s') ∧ (s'.groupDepth = 0 → s'.pendingCalls = []) ∧
    (¬ (action = .groupEnd ∧ s.groupDepth = 1) → ActionDone action s s') ∧
    (action = .groupEnd ∧ s.groupDepth = 1 → OutermostEnd s r s')

/-- A call that neither opens nor ends a group. -/
theorem actionReturns_of_adds (hs : s.groupDepth = 0 → s.pendingCalls = [])
    (hend : action ≠ .groupEnd) (haction : action.nesting s.groupDepth = s.groupDepth)
    (h : ∃ r s', action.call env n s = some (r, s') ∧ Adds s s') :
    ActionReturns env n action s := by
  obtain ⟨r, s', hcall, hadds⟩ := h
  refine ⟨r, s', hcall, fun hzero => ?_, fun _ => hadds.actionDone haction,
    fun h => absurd h.1 hend⟩
  have hdepth : s.groupDepth = 0 := hadds.depth ▸ hzero
  exact (hadds.closed hdepth).trans (hs hdepth)

/-- **Every call of the program returns**, and leaves no queue outside a group. -/
theorem action_returns (hinner : env.InnerSucceeds) (action : GroupAction) {s : GroupState κ}
    (hs : s.groupDepth = 0 → s.pendingCalls = []) : ActionReturns env (n + 2) action s := by
  have hshelter : s.Sheltered := by
    by_cases hdepth : s.groupDepth = 0
    · exact .inl (hs hdepth)
    · exact .inr (by omega)
  cases action with
  | groupStart =>
    exact ⟨.ok (), s.groupStart, rfl, fun h => absurd h (Nat.succ_ne_zero _),
      fun _ => ⟨rfl, rfl, [], by simp [groupStart, queuedCalls]⟩, fun h => nomatch h.1⟩
  | publicCall info =>
    exact actionReturns_of_adds hs (by simp) rfl (publicCall_adds hinner info false hshelter)
  | explicitCall info algorithm =>
    exact actionReturns_of_adds hs (by simp) rfl
      (cocclEnqueueExplicit_adds hinner info algorithm hshelter)
  | directCall info =>
    exact actionReturns_of_adds hs (by simp) rfl (submitDirect_adds hinner info hshelter)
  | jobComplete =>
    exact actionReturns_of_adds hs (by simp) rfl ⟨.ok (), s.groupCleanup, rfl, rfl, rfl,
      ⟨[], by simp [groupCleanup, queuedCalls]⟩, fun _ => rfl⟩
  | groupEnd =>
    rcases lt_trichotomy s.groupDepth 1 with hdepth | hdepth | hdepth
    · have hzero : s.groupDepth = 0 := by omega
      refine ⟨_, _, ncclGroupEnd_unopened _ hzero, fun _ => rfl, fun _ => ⟨?_, rfl,
        [.groupEnded s.pendingCalls], rfl, ?_⟩, fun h => by omega⟩
      · simp [GroupAction.nesting, cocclGroupAbort, record, hzero]
      · rw [hs hzero]
        rfl
    · obtain ⟨r, s', hcall, hend⟩ := @ncclGroupEnd_outermost κ env n hinner s hdepth
      exact ⟨r, s', hcall, fun _ => hend.queue, fun h => absurd ⟨rfl, hdepth⟩ h, fun _ => hend⟩
    · obtain ⟨r, s', hcall, hcloses, -⟩ := @ncclGroupEnd_closes κ env (api env (n + 2)) s (by omega)
        (.inr hdepth)
      exact ⟨r, s', hcall, fun hzero => by have := hcloses.depth; omega,
        fun _ => hcloses.actionDone, fun h => by omega⟩

end

/-! ## Every state of a thread -/

/-- Between two calls of the program. -/
structure GroupThread.Settled (thread : GroupThread κ) : Prop where
  depth : thread.state.groupDepth = thread.nesting
  guard : thread.state.callerGuardActive = false
  queue : thread.nesting = 0 → thread.state.pendingCalls = []

section

variable {env : GroupEnv κ} {n : ℕ}

theorem GroupThread.Settled.step (hinner : env.InnerSucceeds) {thread thread' : GroupThread κ}
    (h : thread.Settled) (hstep : GroupThread.step env (n + 2) thread action = some thread') :
    thread'.Settled := by
  obtain ⟨r, s', hcall, hqueue, hdone, hend⟩ := @action_returns κ env n hinner action thread.state
    (h.depth ▸ h.queue)
  rw [GroupThread.step, hcall] at hstep
  obtain rfl := Option.some.inj hstep
  by_cases houtermost : action = .groupEnd ∧ thread.state.groupDepth = 1
  · have hended := hend houtermost
    have hdepth : s'.groupDepth = action.nesting thread.nesting := by
      rw [hended.depth, houtermost.1, ← h.depth, houtermost.2]
      rfl
    exact ⟨hdepth, hended.guard.trans h.guard, fun _ => hended.queue⟩
  · have hacted := hdone houtermost
    have hdepth : s'.groupDepth = action.nesting thread.nesting := h.depth ▸ hacted.depth
    exact ⟨hdepth, hacted.guard.trans h.guard, fun hzero => hqueue (hdepth.trans hzero)⟩

/-- **Grouped calls run exactly once.** In every state a thread reaches, every call of its program
returns. Nothing is queued outside a group, the guard is down, and all calls but the outermost end
only add to the queue what they record as queued. The outermost end executes the queue once and in
order if it succeeds, and empties it in any case. -/
theorem reachable_groupedOnce (hinner : env.InnerSucceeds) {thread : GroupThread κ}
    (h : Reachable (GroupThread.step env (n + 2)) (fun _ _ => True) initial thread) :
    thread.state.callerGuardActive = false ∧
      (thread.nesting = 0 → thread.state.pendingCalls = []) ∧
      ∀ action : GroupAction, ∃ r s', action.call env (n + 2) thread.state = some (r, s') ∧
        (action = .groupEnd ∧ thread.nesting = 1 → OutermostEnd thread.state r s') ∧
        (¬ (action = .groupEnd ∧ thread.nesting = 1) → ActionDone action thread.state s') := by
  have hsettled : thread.Settled :=
    h.invariant ⟨rfl, rfl, fun _ => rfl⟩ fun _ _ _ hs _ hstep => hs.step hinner hstep
  refine ⟨hsettled.guard, hsettled.queue, fun action => ?_⟩
  obtain ⟨r, s', hcall, -, hdone, hend⟩ := @action_returns κ env n hinner action thread.state
    (hsettled.depth ▸ hsettled.queue)
  rw [hsettled.depth] at hdone hend
  exact ⟨r, s', hcall, hend, hdone⟩

end

/-! ## Two ranks -/

/-- Rank 0 of two on one node. -/
def groupComm : PlacedComm where
  handle := 0
  rank := 0
  nRanks := 2
  localRanks := 2
  nNodes := 1
  rank_lt := Nat.two_pos
  localRanks_pos := Nat.two_pos
  rankToNode := fun _ => 0

/-- A compressor for everything; `inner` is the failure of the calls inside `ncclAllToAll`. -/
def pairEnv (inner : Option {error : NcclError // error ≠ .inProgress}) : GroupEnv Unit where
  config := fun _ =>
    { compressionEnabled := true
      trainingAssistEnabled := false
      query := fun _ => none
      policies := fun _ _ => some ()
      thresholdBytes := fun _ => 0
      plugins := fun _ => ⟨fun _ => true, none⟩
      bfloat16Supported := true }
  select := fun _ _ => .ok .none
  reply := fun inside _ => ⟨if inside then inner else none, none⟩
  launch := fun _ => .ok ()
  other := fun _ => .ok ()
  executor := fun _ _ => []
  batch := fun _ _ => []

/-- A group with an AllGather of doubles, which stays native, and an AllToAll of floats. -/
def mixedGroup : List GroupAction :=
  [.groupStart, .publicCall (collectiveInfo 4096 8192 4 .float64 .sum .allGather groupComm 0),
    .publicCall (collectiveInfo 4096 8192 4 .float32 .sum .allToAll groupComm 0)]

/-- The AllToAll as it is queued. -/
def queuedAllToAll : RoutedCall Unit where
  info := collectiveInfo 4096 8192 4 .float32 .sum .allToAll groupComm 0
  trainingRole := .unknown
  algorithm := .none
  compressors := ⟨⟨some (), some (), some ()⟩, fun _ => true, 0⟩

/-- The thread before the end of the group. -/
def mixedThread : GroupThread Unit where
  state :=
    { groupDepth := 1
      groupError := none
      nativeTasks := [collectiveInfo 4096 8192 4 .float64 .sum .allGather groupComm 0]
      pendingCalls := [queuedAllToAll]
      callerGuardActive := false
      tick := 1
      log := [.task (collectiveInfo 4096 8192 4 .float64 .sum .allGather groupComm 0),
        .queued queuedAllToAll] }
  nesting := 1

theorem mixedGroup_run (inner : Option {error : NcclError // error ≠ .inProgress}) :
    run (GroupThread.step (pairEnv inner) 2) initial mixedGroup = some mixedThread :=
  rfl

theorem mixedThread_reachable (inner : Option {error : NcclError // error ≠ .inProgress}) :
    Reachable (GroupThread.step (pairEnv inner) 2) (fun _ _ => True) initial mixedThread :=
  reachable_of_run (fun _ _ _ => trivial) (mixedGroup_run inner)

theorem pairEnv_innerSucceeds : (pairEnv none).InnerSucceeds := fun _ => rfl

/-- The group ends, and the AllToAll was replayed. -/
theorem mixedGroup_once : ∃ r s', GroupAction.call (pairEnv none) 2 .groupEnd mixedThread.state =
    some (r, s') ∧ OutermostEnd mixedThread.state r s' := by
  obtain ⟨-, -, hactions⟩ :=
    reachable_groupedOnce (n := 0) pairEnv_innerSucceeds (mixedThread_reachable none)
  obtain ⟨r, s', hcall, hend, -⟩ := hactions .groupEnd
  exact ⟨r, s', hcall, hend ⟨rfl, rfl⟩⟩

/-- A receive inside the replayed AllToAll fails. -/
def failingEnv : GroupEnv Unit := pairEnv (some ⟨.systemError, by decide⟩)

/-- The thread after the end of the group. -/
def lostState : GroupState Unit :=
  { mixedThread.state with
    groupError := some .systemError
    pendingCalls := []
    tick := 2
    log := mixedThread.state.log ++ [.groupEnded [queuedAllToAll]] }

/-- The group ends with success, and the AllToAll has not run: `ncclAllToAll` left its group open,
so that the native end was not the outermost one and did not see the error. -/
theorem mixedGroup_lost :
    Reachable (GroupThread.step failingEnv 2) (fun _ _ => True) initial mixedThread ∧
      mixedThread.nesting = 1 ∧
      GroupAction.call failingEnv 2 .groupEnd mixedThread.state = some (.ok (), lostState) ∧
      ¬ OutermostEnd mixedThread.state (.ok ()) lostState := by
  refine ⟨mixedThread_reachable _, rfl, rfl, fun h => ?_⟩
  obtain ⟨events, hlog, hreplayed | ⟨hnative, -⟩⟩ := h.once rfl (List.cons_ne_nil _ _)
  · obtain rfl : events = [] := (List.cons.inj (List.append_cancel_left hlog)).2.symm
    cases hreplayed
  · cases hnative

end Coccl
