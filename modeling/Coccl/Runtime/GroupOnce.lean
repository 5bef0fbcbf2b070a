import Coccl.Runtime.GroupInner

/-!
# The end of the outermost group

A queue leaves its thread in one of two ways: replayed natively, in order, before the launch
(`ReplayedOnce`), or executed compressed after the native end (`ExecutedOnce`), which happens only
if there was no native work and the queue is of one kind.
-/

namespace Coccl

open Calls List GroupState GroupEvent

variable {κ : Type}

/-! ## Executing what was queued -/

/-- An event that queues nothing, and if it is the end of a group, of one that sees this queue. -/
def GroupEvent.Unqueued (queue : List (RoutedCall κ)) : GroupEvent κ → Prop
  | .queued _ => False
  | .groupEnded seen => seen = queue
  | _ => True

variable {queue : List (RoutedCall κ)}

theorem GroupEvent.Inner.unqueued {e : GroupEvent κ} (h : e.Inner queue) : e.Unqueued queue := by
  cases e <;> first | exact h | trivial

/-- An event was recorded, and then what inner calls record. -/
abbrev Ran (event : GroupEvent κ) (s s' : GroupState κ) : Prop :=
  Kept GroupEvent.Inner (s.record event) s'

/-- Anything was recorded that queues nothing. -/
abbrev Keeps (s s' : GroupState κ) : Prop := Kept GroupEvent.Unqueued s s'

variable {s s' : GroupState κ}

theorem Quietly.keeps (h : Quietly s s') : Keeps s s' := by
  obtain ⟨events, hlog, hinner⟩ := h.log
  exact ⟨h.depth, h.pending, h.guard, events, hlog, fun e he => (hinner e he).unqueued⟩

theorem Ran.keeps {event : GroupEvent κ} (h : Ran event s s')
    (hevent : event.Unqueued s.pendingCalls) : Keeps s s' := by
  obtain ⟨events, hlog, hinner⟩ := h.log
  exact ⟨h.depth, h.pending, h.guard, event :: events, hlog.trans (append_assoc ..),
    forall_mem_cons.mpr ⟨hevent, fun e he => (hinner e he).unqueued⟩⟩

section

variable {env : GroupEnv κ} {n : ℕ}

theorem batch_ran (hinner : env.InnerSucceeds) (calls : List (RoutedCall κ)) {s : GroupState κ}
    (hs : s.Sheltered) :
    ∃ r s', cocclExecuteSendRecvBatch env (api env (n + 2)) calls s = some (r, s') ∧
      Ran (.batchExecuted calls) s s' := by
  obtain ⟨r, s', hsteps, hquiet⟩ := @batchSteps_quiet κ env n hinner (env.batch calls s.tick)
    (s.record (.batchExecuted calls)) hs
  exact ⟨r, s', hsteps, hquiet.toKept⟩

theorem execute_ran (hinner : env.InnerSucceeds) {call : RoutedCall κ}
    (hcall : call.compressors.anyEnabled = true) {s : GroupState κ} (hs : s.Sheltered) :
    ∃ r s', cocclExecutePreparedCall env (api env (n + 2)) call s = some (r, s') ∧
      Ran (.executed call) s s' := by
  have hrun : ∃ r t, runExecutor env (api env (n + 2)) call
      ((s.record (.executed call)).withGuard true) = some (r, t) ∧
      Quietly ((s.record (.executed call)).withGuard true) t := by
    unfold runExecutor
    cases call.info.operation with
    | sendRecv => exact batchSteps_quiet hinner _ hs
    | collective operation => exact executorSteps_quiet hinner _ hs rfl
  obtain ⟨r, t, hsteps, hquiet⟩ := hrun
  refine ⟨r, t.withGuard s.callerGuardActive, ?_, hquiet.depth, hquiet.pending, rfl, hquiet.log⟩
  simp only [cocclExecutePreparedCall, hcall, if_true, hsteps]

/-- An executor may also reject its call. -/
theorem execute_keeps (hinner : env.InnerSucceeds) (call : RoutedCall κ) {s : GroupState κ}
    (hs : s.Sheltered) :
    ∃ r s', cocclExecutePreparedCall env (api env (n + 2)) call s = some (r, s') ∧ Keeps s s' := by
  by_cases hcall : call.compressors.anyEnabled = true
  · obtain ⟨r, s', hrun, hran⟩ := @execute_ran κ env n hinner call hcall s hs
    exact ⟨r, s', hrun, Ran.keeps hran trivial⟩
  · exact ⟨_, s, if_neg hcall, .refl s⟩

end

/-! ## The two ways a queue is emptied -/

def GroupEvent.executedCall? : GroupEvent κ → Option (RoutedCall κ)
  | .executed call => some call
  | _ => none

def GroupEvent.batch? : GroupEvent κ → Option (List (RoutedCall κ))
  | .batchExecuted calls => some calls
  | _ => none

/-- The calls whose executors were run, in order. -/
def executedCalls (events : List (GroupEvent κ)) : List (RoutedCall κ) :=
  events.filterMap executedCall?

/-- The batches that were run, in order. -/
def batches (events : List (GroupEvent κ)) : List (List (RoutedCall κ)) :=
  events.filterMap batch?

theorem executedCalls_append (events events' : List (GroupEvent κ)) :
    executedCalls (events ++ events') = executedCalls events ++ executedCalls events' :=
  filterMap_append

theorem batches_append (events events' : List (GroupEvent κ)) :
    batches (events ++ events') = batches events ++ batches events' := filterMap_append

variable (call : RoutedCall κ)

theorem executedCalls_executed : executedCalls [.executed call] = [call] := rfl

theorem batches_executed : batches [.executed call] = [] := rfl

variable (calls : List (RoutedCall κ))

theorem executedCalls_batch : executedCalls [.batchExecuted calls] = [] := rfl

theorem batches_batch : batches [.batchExecuted calls] = [calls] := rfl

variable {events : List (GroupEvent κ)}

theorem executedCalls_inner (h : ∀ e ∈ events, e.Inner queue) : executedCalls events = [] := by
  refine filterMap_eq_nil_iff.mpr fun e he => ?_
  have hinner := h e he
  cases e <;> first | rfl | exact hinner.elim

theorem batches_inner (h : ∀ e ∈ events, e.Inner queue) : batches events = [] := by
  refine filterMap_eq_nil_iff.mpr fun e he => ?_
  have hinner := h e he
  cases e <;> first | rfl | exact hinner.elim

/-- A queue that was executed compressed: as one batch of point-to-point calls, or collective by
collective. -/
def ExecutedOnce (queue : List (RoutedCall κ)) (events : List (GroupEvent κ)) : Prop :=
  (∀ call ∈ queue, call.compressors.anyEnabled = true) ∧
    ((∀ call ∈ queue, call.info.operation = .sendRecv) ∧ batches events = [queue] ∧
        executedCalls events = [] ∨
      (∀ call ∈ queue, call.info.operation ≠ .sendRecv) ∧ executedCalls events = queue ∧
        batches events = [])

/-- The launch of a group's tasks, if it has any. -/
def launchOf (tasks : List Info) : List (GroupEvent κ) :=
  if tasks.isEmpty then [] else [.launched tasks]

/-- A queue that was replayed natively, before the launch. -/
def ReplayedOnce (native : List Info) (queue : List (RoutedCall κ))
    (events : List (GroupEvent κ)) : Prop :=
  events = (queue.flatMap fun call => nativeTrace call.info) ++
    launchOf (native ++ queue.flatMap fun call => nativeTasksOf call.info)

section

variable {env : GroupEnv κ} {n : ℕ}

/-- Executors that were run one after the other. -/
theorem through_executed (h : Through (fun call => Ran (.executed call)) queue s s') :
    ∃ events, s'.log = s.log ++ events ∧ executedCalls events = queue ∧ batches events = [] := by
  induction h with
  | nil s => exact ⟨[], by simp, rfl, rfl⟩
  | @cons call queue s t u hran _ ih =>
    obtain ⟨events, hlog, hinner⟩ := hran.log
    obtain ⟨events', hlog', hexecuted, hbatches⟩ := ih
    refine ⟨[.executed call] ++ events ++ events', ?_, ?_, ?_⟩
    · rw [hlog', hlog, record, append_assoc, append_assoc, append_assoc]
    · rw [executedCalls_append, executedCalls_append, executedCalls_executed,
        executedCalls_inner hinner, hexecuted]
      rfl
    · rw [batches_append, batches_append, batches_executed, batches_inner hinner, hbatches]
      rfl

/-- The queue after the native end of a group that had nothing to launch. -/
theorem cocclGroupDrain_keeps (hinner : env.InnerSucceeds) (s : GroupState κ) :
    ∃ r s', cocclGroupDrain env (api env (n + 2)) s = some (r, s') ∧
      Keeps { s with pendingCalls := [] } s' := by
  have hshelter : ({ s with pendingCalls := [] } : GroupState κ).Sheltered := .inl rfl
  unfold cocclGroupDrain
  cases hqueue : s.pendingCalls with
  | nil =>
    refine ⟨_, s, rfl, ?_⟩
    conv => arg 2; rw [show s = { s with pendingCalls := [] } by rw [← hqueue]]
    exact .refl _
  | cons first rest =>
    simp only
    split
    · obtain ⟨r, s', hrun, hran⟩ := @batch_ran κ env n hinner (first :: rest) _ hshelter
      exact ⟨r, s', hrun, Ran.keeps hran trivial⟩
    · obtain ⟨r, s', hrun, -, hkeeps⟩ := @sequence_spec _ _ notSuccess (.ok ())
        (Sheltered (κ := κ)) Keeps Kept.refl (fun _ _ _ => Kept.trans)
        ((first :: rest).map (cocclExecutePreparedCall env (api env (n + 2))))
        (by
          intro call hcall t ht
          obtain ⟨prepared, -, rfl⟩ := mem_map.mp hcall
          obtain ⟨r, t', hrun, hkeeps⟩ := @execute_keeps κ env n hinner prepared t ht
          exact ⟨r, t', hrun, hkeeps.sheltered ht, hkeeps⟩)
        _ hshelter
      exact ⟨r, s', hrun, hkeeps⟩

/-- A queue that need not be replayed is of one kind, and compressed. -/
theorem replayNative_eq_false {nativeWork : Bool} (h : replayNative nativeWork queue = false) :
    nativeWork = false ∧ (∀ call ∈ queue, call.compressors.anyEnabled = true) ∧
      ((∀ call ∈ queue, call.info.operation = .sendRecv) ∨
        ∀ call ∈ queue, call.info.operation ≠ .sendRecv) := by
  simp only [replayNative, Bool.or_eq_false_iff, Bool.and_eq_false_iff, any_eq_false,
    decide_eq_true_eq, Bool.not_eq_true', Bool.not_eq_false, Decidable.not_not] at h
  exact ⟨h.1.1, h.1.2, h.2.symm⟩

theorem cocclGroupDrain_once (hinner : env.InnerSucceeds) {nativeWork : Bool}
    (hne : s.pendingCalls ≠ []) (hkind : replayNative nativeWork s.pendingCalls = false)
    (h : cocclGroupDrain env (api env (n + 2)) s = some (.ok (), s')) :
    ∃ events, s'.log = s.log ++ events ∧ ExecutedOnce s.pendingCalls events := by
  obtain ⟨-, henabled, hone⟩ := replayNative_eq_false hkind
  have hshelter : ({ s with pendingCalls := [] } : GroupState κ).Sheltered := .inl rfl
  unfold cocclGroupDrain at h
  cases hqueue : s.pendingCalls with
  | nil => exact absurd hqueue hne
  | cons first rest =>
    rw [hqueue] at h hone henabled
    have hfirst : first ∈ first :: rest := mem_cons_self
    simp only at h
    split at h
    · next hsend =>
      obtain ⟨r, t, hrun, hran⟩ := @batch_ran κ env n hinner (first :: rest) _ hshelter
      obtain ⟨rfl, rfl⟩ := Prod.mk.inj (Option.some.inj (hrun.symm.trans h))
      obtain ⟨events, hlog, hinner⟩ := hran.log
      rw [record, append_assoc] at hlog
      refine ⟨_, hlog, henabled, .inl ⟨hone.resolve_right fun h => h first hfirst hsend, ?_, ?_⟩⟩
      · rw [batches_append, batches_batch, batches_inner hinner, append_nil]
      · rw [executedCalls_append, executedCalls_batch, executedCalls_inner hinner, append_nil]
    · next hsend =>
      have hthrough := @sequence_through _ _ _ notSuccess (.ok ()) (Sheltered (κ := κ))
        (fun call => Ran (.executed call)) (cocclExecutePreparedCall env (api env (n + 2)))
        (first :: rest)
        (by
          intro call hcall t r t' ht hrun _
          obtain ⟨r', u, hrun', hran⟩ := @execute_ran κ env n hinner call (henabled call hcall) t ht
          obtain ⟨rfl, rfl⟩ := Prod.mk.inj (Option.some.inj (hrun'.symm.trans hrun))
          exact ⟨(Ran.keeps hran trivial).sheltered ht, hran⟩)
        _ _ _ hshelter h rfl
      obtain ⟨events, hlog, hexecuted, hbatches⟩ := through_executed hthrough
      exact ⟨events, hlog, henabled,
        .inr ⟨hone.resolve_left fun h => hsend (h first hfirst), hexecuted, hbatches⟩⟩

/-- Native calls that were replayed one after the other, where the group has no error. -/
theorem through_replayed (h : Through (fun call : RoutedCall κ => NativeDone call.info) queue s s')
    (hdepth : 0 < s.groupDepth) (hempty : s.pendingCalls = []) (hnone : s'.groupError = none) :
    s.groupError = none ∧
      s'.nativeTasks = s.nativeTasks ++ queue.flatMap (fun call => nativeTasksOf call.info) ∧
      s'.log = s.log ++ queue.flatMap fun call => nativeTrace call.info := by
  induction h with
  | nil s => exact ⟨hnone, by simp, by simp⟩
  | cons hdone _ ih =>
    obtain ⟨hquiet, htasks⟩ := hdone
    obtain ⟨herror, hnative, hlog⟩ :=
      ih (hquiet.depth ▸ hdepth) (hquiet.pending.trans hempty) hnone
    obtain ⟨hnative', hlog'⟩ := htasks hdepth hempty herror
    refine ⟨hquiet.error hdepth herror, ?_, ?_⟩
    · rw [hnative, hnative', flatMap_cons, append_assoc]
    · rw [hlog, hlog', flatMap_cons, append_assoc]

theorem replayQueue_spec (hinner : env.InnerSucceeds) (queue : List (RoutedCall κ))
    {s : GroupState κ} (hdepth : 0 < s.groupDepth) (hempty : s.pendingCalls = []) :
    ∃ r s', sequence notSuccess (.ok ())
        (queue.map fun call => cocclReplayNativeCall (api env (n + 2)) call.info false) s =
        some (r, s') ∧ Quietly s s' ∧
      (r = .ok () → s'.groupError = none →
        s'.nativeTasks = s.nativeTasks ++ queue.flatMap (fun call => nativeTasksOf call.info) ∧
        s'.log = s.log ++ queue.flatMap fun call => nativeTrace call.info) := by
  have hshelter : s.Sheltered := .inr hdepth
  obtain ⟨r, s', hrun, -, hquiet⟩ := @sequence_spec _ _ notSuccess (.ok ())
    (Sheltered (κ := κ)) Quietly Quietly.refl (fun _ _ _ => Quietly.trans)
    (queue.map fun call => cocclReplayNativeCall (api env (n + 2)) call.info false)
    (by
      intro call hcall t ht
      obtain ⟨prepared, -, rfl⟩ := mem_map.mp hcall
      obtain ⟨r, t', hrun, hdone⟩ := @replay_done κ env n hinner prepared.info false t ht
      exact ⟨r, t', hrun, hdone.1.sheltered ht, hdone.1⟩)
    s hshelter
  refine ⟨r, s', hrun, hquiet, ?_⟩
  rintro rfl hnone
  have hthrough := @sequence_through _ _ _ notSuccess (.ok ()) (Sheltered (κ := κ))
    (fun call : RoutedCall κ => NativeDone call.info)
    (fun call => cocclReplayNativeCall (api env (n + 2)) call.info false) queue
    (by
      intro call _ t r t' ht hcall _
      obtain ⟨r', u, hcall', hdone⟩ := @replay_done κ env n hinner call.info false t ht
      obtain ⟨rfl, rfl⟩ := Prod.mk.inj (Option.some.inj (hcall'.symm.trans hcall))
      exact ⟨hdone.1.sheltered ht, hdone⟩)
    s s' (.ok ()) hshelter hrun rfl
  exact (through_replayed hthrough hdepth hempty hnone).2

end

/-! ## The end of the outermost group -/

/-- What the end of the outermost group has to do. -/
structure OutermostEnd (s : GroupState κ) (r : Result Unit) (s' : GroupState κ) : Prop where
  /-- On success the queue was executed exactly once and in order, in one of the two ways. -/
  once : r = .ok () → s.pendingCalls ≠ [] → ∃ events,
    s'.log = s.log ++ .groupEnded s.pendingCalls :: events ∧
      (ReplayedOnce s.nativeTasks s.pendingCalls events ∨
        s.nativeTasks = [] ∧ ExecutedOnce s.pendingCalls events)
  /-- Whatever is returned, nothing is left. -/
  queue : s'.pendingCalls = []
  /-- Nothing is queued on the way, and no inner group sees the queue. -/
  nested : ∃ events, s'.log = s.log ++ .groupEnded s.pendingCalls :: events ∧
    ∀ e ∈ events, e.Unqueued []
  guard : s'.callerGuardActive = s.callerGuardActive
  depth : s'.groupDepth = 0

section

variable {env : GroupEnv κ} {n : ℕ} {s : GroupState κ}

/-- The outermost group ends well only if it has no error, and then its tasks are launched. -/
theorem ncclGroupEndInternal_ok (hdepth : s.groupDepth = 1)
    (h : (ncclGroupEndInternal env s).1 = .ok ()) :
    s.groupError = none ∧ (ncclGroupEndInternal env s).2.log = s.log ++ launchOf s.nativeTasks := by
  unfold ncclGroupEndInternal at h ⊢
  rw [if_neg (by omega)] at h ⊢
  simp only [hdepth, lt_irrefl, if_false] at h ⊢
  cases herror : s.groupError with
  | some error =>
    rw [herror] at h
    cases h
  | none =>
    simp only [herror] at h ⊢
    cases hempty : s.nativeTasks.isEmpty with
    | true => simp [launchOf, hempty]
    | false =>
      simp only [hempty, launchOf, Bool.false_eq_true, if_false] at h ⊢
      cases hlaunch : env.launch s.tick with
      | ok _ => exact ⟨trivial, rfl⟩
      | error error =>
        rw [hlaunch] at h
        cases error <;> cases h

/-- The exit leaves no queue behind, if there was none or something failed. -/
theorem groupEndExit_queue {r : Result Unit} (h : s.pendingCalls = [] ∨ r ≠ .ok ()) :
    (groupEndExit r s).2.pendingCalls = [] := by
  unfold groupEndExit
  simp only
  split
  · rfl
  · next hgo =>
    rcases h with h | h
    · exact h
    · cases r with
      | ok value => exact absurd rfl h
      | error error => exact absurd rfl hgo

variable (r : Result Unit)

theorem groupEndExit_log (s : GroupState κ) : (groupEndExit r s).2.log = s.log := by
  unfold groupEndExit
  simp only
  split <;> rfl

theorem groupEndExit_guard (s : GroupState κ) :
    (groupEndExit r s).2.callerGuardActive = s.callerGuardActive := by
  unfold groupEndExit
  simp only
  split <;> rfl

theorem groupEndExit_depth (s : GroupState κ) : (groupEndExit r s).2.groupDepth = s.groupDepth := by
  unfold groupEndExit
  simp only
  split <;> rfl

/-- What the native end of the outermost group leaves, whatever it returns. -/
structure NativeEnd (s s' : GroupState κ) : Prop where
  queue : s'.pendingCalls = []
  guard : s'.callerGuardActive = s.callerGuardActive
  depth : s'.groupDepth = 0
  log : ∃ events, s'.log = s.log ++ events ∧ ∀ e ∈ events, e.Unqueued []

/-- The native end where nothing is executed after it. -/
theorem groupEndNative_exit (inherited : ApiCall → GroupCall κ) {s : GroupState κ}
    (hdepth : s.groupDepth = 1)
    (h : s.pendingCalls = [] ∨ (ncclGroupEndInternal env s).1 ≠ .ok ()) :
    ∃ s', groupEndNative env inherited true s = some ((ncclGroupEndInternal env s).1, s') ∧
      NativeEnd s s' ∧ s'.log = (ncclGroupEndInternal env s).2.log := by
  have hcloses := @ncclGroupEndInternal_closes κ env s (by omega)
  obtain ⟨events, hlog, hlaunched⟩ := ncclGroupEndInternal_log env s
  have hpending : (ncclGroupEndInternal env s).2.pendingCalls = s.pendingCalls := hcloses.pending
  refine ⟨(groupEndExit (ncclGroupEndInternal env s).1 (ncclGroupEndInternal env s).2).2,
    if_neg ?_, ⟨?_, ?_, ?_, events, ?_, ?_⟩, groupEndExit_log _ _⟩
  · rintro ⟨hgo, -, hne⟩
    rcases h with h | h
    · simp [hpending, h] at hne
    · cases hended : (ncclGroupEndInternal env s).1 with
      | ok value => exact h hended
      | error error =>
        rw [hended] at hgo
        cases hgo
  · exact groupEndExit_queue (h.imp_left hpending.trans)
  · rw [groupEndExit_guard, hcloses.guard]
  · have := hcloses.depth
    rw [groupEndExit_depth]
    omega
  · rw [groupEndExit_log, hlog]
  · intro e he
    rw [hlaunched e he]
    trivial

/-- The native end of the outermost group before its queue is executed. -/
theorem groupEndNative_drain (hinner : env.InnerSucceeds) {s : GroupState κ}
    (hdepth : s.groupDepth = 1) (hne : s.pendingCalls ≠ []) (hnative : s.nativeTasks = [])
    (hkind : replayNative false s.pendingCalls = false) :
    ∃ r s', groupEndNative env (api env (n + 2)) true s = some (r, s') ∧ NativeEnd s s' ∧
      (r = .ok () → ∃ events, s'.log = s.log ++ events ∧ ExecutedOnce s.pendingCalls events) := by
  by_cases hended : (ncclGroupEndInternal env s).1 = .ok ()
  · have hcloses := @ncclGroupEndInternal_closes κ env s (by omega)
    have hpending : (ncclGroupEndInternal env s).2.pendingCalls = s.pendingCalls :=
      hcloses.pending
    have hlog : (ncclGroupEndInternal env s).2.log = s.log := by
      rw [(ncclGroupEndInternal_ok hdepth hended).2, hnative]
      exact append_nil _
    obtain ⟨r, t, hdrain, hkeeps⟩ :=
      @cocclGroupDrain_keeps κ env n hinner (ncclGroupEndInternal env s).2
    obtain ⟨events, htlog, hunqueued⟩ := hkeeps.log
    have hcall : groupEndNative env (api env (n + 2)) true s = some (groupEndExit r t) := by
      have hgo : notSuccess (ncclGroupEndInternal env s).1 = false ∧ true = true ∧
          (!(ncclGroupEndInternal env s).2.pendingCalls.isEmpty) = true :=
        ⟨by rw [hended]; rfl, rfl, by simpa [hpending] using hne⟩
      refine (if_pos hgo).trans ?_
      rw [hdrain]
      rfl
    refine ⟨r, (groupEndExit r t).2, hcall,
      ⟨groupEndExit_queue (.inl hkeeps.pending), ?_, ?_, events, ?_, hunqueued⟩, fun hok => ?_⟩
    · rw [groupEndExit_guard, hkeeps.guard, hcloses.guard]
    · have hclosed := hcloses.depth
      have hdrained : t.groupDepth = (ncclGroupEndInternal env s).2.groupDepth := hkeeps.depth
      rw [groupEndExit_depth]
      omega
    · rw [groupEndExit_log, htlog, hlog]
    · obtain rfl : r = .ok () := hok
      obtain ⟨events, hevents, honce⟩ :=
        cocclGroupDrain_once hinner (hpending ▸ hne) (hpending ▸ hkind) hdrain
      exact ⟨events, by rw [groupEndExit_log, hevents, hlog], hpending ▸ honce⟩
  · obtain ⟨s', hcall, hend, -⟩ :=
      @groupEndNative_exit κ env (api env (n + 2)) s hdepth (.inr hended)
    exact ⟨_, s', hcall, hend, fun h => absurd h hended⟩

/-- What is left of the group before it is recorded that it ends. -/
theorem NativeEnd.outermost {r : Result Unit}
    (h : NativeEnd (s.record (.groupEnded s.pendingCalls)) s')
    (honce : r = .ok () → s.pendingCalls ≠ [] → ∃ events,
      s'.log = s.log ++ .groupEnded s.pendingCalls :: events ∧
        (ReplayedOnce s.nativeTasks s.pendingCalls events ∨
          s.nativeTasks = [] ∧ ExecutedOnce s.pendingCalls events)) : OutermostEnd s r s' := by
  obtain ⟨events, hlog, hunqueued⟩ := h.log
  refine ⟨honce, h.queue, ⟨events, ?_, hunqueued⟩, h.guard, h.depth⟩
  rw [hlog, record, append_assoc]
  rfl

variable {prepared : Result Unit}

/-- No error in the group: there was none before, and the replay has succeeded. -/
theorem firstError_eq_none {groupError : Option NcclError}
    (h : firstError groupError prepared = none) : groupError = none ∧ prepared = .ok () := by
  cases groupError with
  | some error => cases prepared <;> cases h
  | none =>
    cases prepared with
    | ok value => exact ⟨rfl, rfl⟩
    | error error => cases h

/-- The outermost group with calls queued: the queue is prepared before the native end. -/
theorem ncclGroupEnd_queued {inherited : ApiCall → GroupCall κ} {s t : GroupState κ}
    (hdepth : s.groupDepth = 1) (hne : s.pendingCalls ≠ []) (h : cocclGroupPrepareEnd inherited
      (!s.nativeTasks.isEmpty) (s.record (.groupEnded s.pendingCalls)) = some (prepared, t)) :
    ncclGroupEnd env inherited s = groupEndNative env inherited true
      { t with groupError := firstError t.groupError prepared } := by
  unfold ncclGroupEnd
  simp only [hdepth, isEmpty_eq_false_iff.mpr hne, if_true, Bool.not_false, and_self,
    decide_true, h]

/-- The outermost group where the queue is replayed. -/
theorem ncclGroupEnd_replays (hinner : env.InnerSucceeds) (hdepth : s.groupDepth = 1)
    (hne : s.pendingCalls ≠ [])
    (hkind : replayNative (!s.nativeTasks.isEmpty) s.pendingCalls = true) :
    ∃ r s', ncclGroupEnd env (api env (n + 2)) s = some (r, s') ∧ OutermostEnd s r s' := by
  let entered := s.record (.groupEnded s.pendingCalls)
  let detached : GroupState κ := { entered with pendingCalls := [] }
  obtain ⟨prepared, t, hreplay, hquiet, htasks⟩ := @replayQueue_spec κ env n hinner s.pendingCalls
    detached (by show 0 < s.groupDepth; omega) rfl
  let u : GroupState κ := { t with groupError := firstError t.groupError prepared }
  have hudepth : u.groupDepth = 1 := hquiet.depth.trans hdepth
  have hupending : u.pendingCalls = [] := hquiet.pending
  obtain ⟨s', hcall, hend, hlog⟩ :=
    @groupEndNative_exit κ env (api env (n + 2)) u hudepth (.inl hupending)
  refine ⟨(ncclGroupEndInternal env u).1, s', ?_, NativeEnd.outermost ?_ fun hok _ => ?_⟩
  · exact (ncclGroupEnd_queued hdepth hne ((if_pos hkind).trans hreplay)).trans hcall
  · obtain ⟨events, hevents, hunqueued⟩ := hend.log
    obtain ⟨replayed, hreplayed, hinner⟩ := hquiet.log
    refine ⟨hend.queue, hend.guard.trans hquiet.guard, hend.depth, replayed ++ events, ?_, ?_⟩
    · rw [hevents, ← append_assoc]
      exact congrArg (· ++ events) hreplayed
    · exact forall_mem_append.mpr ⟨fun e he => (hinner e he).unqueued, hunqueued⟩
  · obtain ⟨hnone, hlaunched⟩ := ncclGroupEndInternal_ok hudepth hok
    obtain ⟨hclean, rfl⟩ := firstError_eq_none hnone
    obtain ⟨hnative, hreplayed⟩ := htasks rfl hclean
    refine ⟨_, ?_, .inl rfl⟩
    rw [hlog, hlaunched]
    show t.log ++ launchOf t.nativeTasks = _
    rw [hreplayed, hnative]
    simp [detached, entered, record]

/-- The outermost group where the queue is executed after it. -/
theorem ncclGroupEnd_executes (hinner : env.InnerSucceeds) (hdepth : s.groupDepth = 1)
    (hne : s.pendingCalls ≠ [])
    (hkind : replayNative (!s.nativeTasks.isEmpty) s.pendingCalls = false) :
    ∃ r s', ncclGroupEnd env (api env (n + 2)) s = some (r, s') ∧ OutermostEnd s r s' := by
  have hnative : s.nativeTasks = [] := by simpa using (replayNative_eq_false hkind).1
  let entered := s.record (.groupEnded s.pendingCalls)
  let u : GroupState κ := { entered with groupError := firstError entered.groupError (.ok ()) }
  obtain ⟨r, s', hcall, hend, honce⟩ := @groupEndNative_drain κ env n hinner u hdepth hne hnative
    (by rw [hnative] at hkind; exact hkind)
  refine ⟨r, s', ?_, NativeEnd.outermost ⟨hend.queue, hend.guard, hend.depth, hend.log⟩
    fun hok _ => ?_⟩
  · exact (ncclGroupEnd_queued hdepth hne (if_neg (ne_true_of_eq_false hkind))).trans hcall
  · obtain ⟨events, hevents, hexecuted⟩ := honce hok
    refine ⟨events, ?_, .inr ⟨hnative, hexecuted⟩⟩
    rw [hevents]
    simp [u, entered, record]

/-- **The end of the outermost group.** -/
theorem ncclGroupEnd_outermost (hinner : env.InnerSucceeds) {s : GroupState κ}
    (hdepth : s.groupDepth = 1) :
    ∃ r s', ncclGroupEnd env (api env (n + 2)) s = some (r, s') ∧ OutermostEnd s r s' := by
  by_cases hne : s.pendingCalls = []
  · obtain ⟨s', hcall, hend, -⟩ := @groupEndNative_exit κ env (api env (n + 2))
      (s.record (.groupEnded s.pendingCalls)) hdepth (.inl hne)
    refine ⟨(ncclGroupEndInternal env (s.record (.groupEnded s.pendingCalls))).1, s', ?_,
      hend.outermost fun _ h => absurd hne h⟩
    unfold ncclGroupEnd
    simp only [hdepth, hne, isEmpty_nil, Bool.not_true, Bool.false_eq_true, and_false,
      if_false, decide_true] at hcall ⊢
    exact hcall
  · cases hkind : replayNative (!s.nativeTasks.isEmpty) s.pendingCalls with
    | true => exact ncclGroupEnd_replays hinner hdepth hne hkind
    | false => exact ncclGroupEnd_executes hinner hdepth hne hkind

end

end Coccl
