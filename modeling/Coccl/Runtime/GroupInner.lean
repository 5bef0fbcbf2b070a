import Coccl.Runtime.Group

/-!
# Calls below the outermost group

What the calls below the outermost `ncclGroupEnd` can do to a thread (`Quietly`): they leave the
queue, the guard and the depth of groups as they were, as long as no send or receive inside
`ncclAllToAll` returns an error (`InnerSucceeds`).
-/

namespace Coccl

open Calls List GroupState

variable {κ : Type}

/-! ## What inner calls do -/

/-- What `ncclEnqueueCheck` returns in an open group. -/
def NativeReply.result (reply : NativeReply) : Result Unit :=
  reply.asyncResult.getD
    (match reply.failure with
    | none => .ok ()
    | some error => .error error)

/-- No send or receive inside `ncclAllToAll` returns an error. -/
def GroupEnv.InnerSucceeds (env : GroupEnv κ) : Prop :=
  ∀ t, checkFails (env.reply true t).result = false

/-- An event of an inner call, beside a queue that stays as it is. -/
def GroupEvent.Inner (queue : List (RoutedCall κ)) : GroupEvent κ → Prop
  | .task _ | .launched _ => True
  | .groupEnded seen => seen = queue
  | .queued _ | .executed _ | .batchExecuted _ => False

/-- The depth, the queue and the guard are as before, and what is recorded may stand beside the
queue. -/
structure Kept (allowed : List (RoutedCall κ) → GroupEvent κ → Prop) (s s' : GroupState κ) :
    Prop where
  depth : s'.groupDepth = s.groupDepth
  pending : s'.pendingCalls = s.pendingCalls
  guard : s'.callerGuardActive = s.callerGuardActive
  log : ∃ events, s'.log = s.log ++ events ∧ ∀ e ∈ events, allowed s.pendingCalls e

section

variable {allowed : List (RoutedCall κ) → GroupEvent κ → Prop} {s t u : GroupState κ}

theorem Kept.refl (s : GroupState κ) : Kept allowed s s := ⟨rfl, rfl, rfl, [], by simp, by simp⟩

theorem Kept.trans (h : Kept allowed s t) (h' : Kept allowed t u) : Kept allowed s u := by
  obtain ⟨events, hlog, hinner⟩ := h.log
  obtain ⟨events', hlog', hinner'⟩ := h'.log
  refine ⟨h'.depth.trans h.depth, h'.pending.trans h.pending, h'.guard.trans h.guard,
    events ++ events', ?_, ?_⟩
  · rw [hlog', hlog, append_assoc]
  · rw [h.pending] at hinner'
    exact forall_mem_append.mpr ⟨hinner, hinner'⟩

/-- A state in which inner calls may run: nothing is queued, or a group is open. -/
def GroupState.Sheltered (s : GroupState κ) : Prop := s.pendingCalls = [] ∨ 0 < s.groupDepth

theorem Kept.sheltered (h : Kept allowed s t) (hs : s.Sheltered) : t.Sheltered := by
  rcases hs with hs | hs
  · exact .inl (h.pending.trans hs)
  · exact .inr (h.depth ▸ hs)

end

/-- An inner call, which does not lose an error of the open group. -/
structure Quietly (s s' : GroupState κ) : Prop extends Kept GroupEvent.Inner s s' where
  error : 0 < s.groupDepth → s'.groupError = none → s.groupError = none

theorem Quietly.refl (s : GroupState κ) : Quietly s s := ⟨.refl s, fun _ h => h⟩

theorem Quietly.trans {s t u : GroupState κ} (h : Quietly s t) (h' : Quietly t u) : Quietly s u :=
  ⟨h.toKept.trans h'.toKept,
    fun hpos hnone => h.error hpos (h'.error (h.depth.symm ▸ hpos) hnone)⟩

theorem next_quiet (s : GroupState κ) : Quietly s s.next :=
  ⟨⟨rfl, rfl, rfl, [], by simp [GroupState.next], by simp⟩, fun _ h => h⟩

/-- The same with a group closed: the depth is one less. -/
structure Closes (s s' : GroupState κ) : Prop where
  depth : s'.groupDepth + 1 = s.groupDepth
  pending : s'.pendingCalls = s.pendingCalls
  guard : s'.callerGuardActive = s.callerGuardActive
  error : 0 < s'.groupDepth → s'.groupError = s.groupError
  log : ∃ events, s'.log = s.log ++ events ∧ ∀ e ∈ events, e.Inner s.pendingCalls

/-- A group that was opened, used quietly and closed. -/
theorem Quietly.group {s t u : GroupState κ} (h : Quietly s.groupStart t) (h' : Closes t u) :
    Quietly s u := by
  obtain ⟨events, hlog, hinner⟩ := h.log
  obtain ⟨events', hlog', hinner'⟩ := h'.log
  have hdepth : u.groupDepth = s.groupDepth := by
    have hopen := h.depth
    have hclose := h'.depth
    simp only [groupStart] at hopen
    omega
  refine ⟨⟨hdepth, h'.pending.trans h.pending, h'.guard.trans h.guard, events ++ events', ?_, ?_⟩,
    fun hpos hnone => h.error (Nat.succ_pos _) (h'.error (hdepth ▸ hpos) ▸ hnone)⟩
  · rw [hlog', hlog, append_assoc]
    rfl
  · rw [h.pending] at hinner'
    exact forall_mem_append.mpr ⟨hinner, hinner'⟩

/-! ## Native calls -/

section

variable (env : GroupEnv κ) {s : GroupState κ}

/-- An inner group ends without a launch. -/
theorem ncclGroupEndInternal_inner (h : 1 < s.groupDepth) :
    ncclGroupEndInternal env s = (.ok (), { s with groupDepth := s.groupDepth - 1 }) := by
  rw [ncclGroupEndInternal, if_neg (by omega)]
  exact if_pos (by show 0 < s.groupDepth - 1; omega)

/-- The native end of a group records at most its launch. -/
theorem ncclGroupEndInternal_log (s : GroupState κ) :
    ∃ events, (ncclGroupEndInternal env s).2.log = s.log ++ events ∧
      ∀ e ∈ events, e = .launched s.nativeTasks := by
  unfold ncclGroupEndInternal
  simp only
  repeat' split
  all_goals first
    | exact ⟨[.launched s.nativeTasks], rfl, by simp⟩
    | exact ⟨[], by simp [groupCleanup, GroupState.next]⟩

theorem ncclGroupEndInternal_closes {s : GroupState κ} (h : 0 < s.groupDepth) :
    Closes s (ncclGroupEndInternal env s).2 := by
  obtain ⟨events, hlog, hlaunched⟩ := ncclGroupEndInternal_log env s
  have hfields : (ncclGroupEndInternal env s).2.groupDepth + 1 = s.groupDepth ∧
      (ncclGroupEndInternal env s).2.pendingCalls = s.pendingCalls ∧
      (ncclGroupEndInternal env s).2.callerGuardActive = s.callerGuardActive ∧
      (0 < (ncclGroupEndInternal env s).2.groupDepth →
        (ncclGroupEndInternal env s).2.groupError = s.groupError) := by
    have hdepth : s.groupDepth - 1 + 1 = s.groupDepth := by omega
    unfold ncclGroupEndInternal
    rw [if_neg (by omega)]
    simp only
    split
    · exact ⟨hdepth, rfl, rfl, fun _ => rfl⟩
    · next hlast =>
      have hlast' : ¬ 0 < s.groupDepth - 1 := hlast
      repeat' split
      all_goals exact ⟨hdepth, rfl, rfl, fun hpos => absurd hpos hlast'⟩
  obtain ⟨hdepth, hpending, hguard, herror⟩ := hfields
  exact ⟨hdepth, hpending, hguard, herror, events, hlog, fun e he => by
    rw [hlaunched e he]
    exact trivial⟩

/-- The task of a native call, or its error. -/
theorem groupErrCheck_quiet (s : GroupState κ) (result : Result Unit) :
    Quietly s (s.groupErrCheck result) := by
  unfold groupErrCheck
  split
  · exact .refl s
  · split
    · exact .refl s
    · exact ⟨⟨rfl, rfl, rfl, [], by simp, by simp⟩, nofun⟩

/-- The tasks a call of `ncclEnqueueCheck` leaves pending. -/
def taskOf (info : Info) : List Info :=
  if info.operation ≠ .sendRecv ∧ (info.count = 0 ∨ info.comm.nRanks = 1) then [] else [info]

/-- What it leaves in the log. -/
def taskTrace (info : Info) : List (GroupEvent κ) :=
  if info.operation ≠ .sendRecv ∧ info.count = 0 then []
  else if info.operation ≠ .sendRecv ∧ info.comm.nRanks = 1 then [.launched [info]]
  else [.task info]

theorem taskAppend_eq (info : Info) (s : GroupState κ) : taskAppend info s = { s with
      nativeTasks := s.nativeTasks ++ taskOf info, log := s.log ++ taskTrace info } := by
  unfold taskAppend taskOf taskTrace
  by_cases hop : info.operation = .sendRecv
  · simp [hop, record]
  · by_cases hcount : info.count = 0
    · simp [hop, hcount]
    · by_cases hone : info.comm.nRanks = 1 <;> simp [hop, hcount, hone, record]

theorem taskTrace_inner (info : Info) (queue : List (RoutedCall κ)) :
    ∀ e ∈ taskTrace info, e.Inner queue := by
  unfold taskTrace
  split_ifs <;> simp [GroupEvent.Inner]

variable {info : Info}

theorem taskOf_sendRecv (h : info.operation = .sendRecv) : taskOf info = [info] := by
  simp [taskOf, h]

theorem taskTrace_sendRecv (h : info.operation = .sendRecv) :
    (taskTrace info : List (GroupEvent κ)) = [.task info] := by
  simp [taskTrace, h]

variable (inner : Bool)

theorem appendTask_quiet (info : Info) (s : GroupState κ) :
    Quietly s.groupStart (appendTask env inner info s).2 := by
  unfold appendTask
  simp only
  split
  · rw [taskAppend_eq]
    exact ⟨⟨rfl, rfl, rfl, taskTrace info, rfl, taskTrace_inner info _⟩, fun _ h => h⟩
  · next error _ =>
    exact (next_quiet s.groupStart).trans (groupErrCheck_quiet s.groupStart.next (.error error.1))

theorem appendTask_depth (info : Info) (s : GroupState κ) :
    (appendTask env inner info s).2.groupDepth = s.groupDepth + 1 :=
  (appendTask_quiet env inner info s).depth

theorem ncclEnqueueCheck_quiet (info : Info) (s : GroupState κ) :
    Quietly s (ncclEnqueueCheck env inner info s).2 :=
  (appendTask_quiet env inner info s).group
    (ncclGroupEndInternal_closes env (by rw [appendTask_depth]; omega))

/-- In an open group there is nothing to launch. -/
theorem ncclEnqueueCheck_open {inner : Bool} (hdepth : 0 < s.groupDepth) :
    ncclEnqueueCheck env inner info s =
      ((env.reply inner s.tick).asyncResult.getD (appendTask env inner info s).1,
        { (appendTask env inner info s).2 with groupDepth := s.groupDepth }) := by
  have hopen : 1 < (appendTask env inner info s).2.groupDepth := by
    rw [appendTask_depth]
    omega
  simp only [ncclEnqueueCheck, ncclGroupEndInternal_inner env hopen, appendTask_depth]
  rfl

/-- In an open group a native call adds its task, or the group has an error. -/
theorem ncclEnqueueCheck_task {inner : Bool} (hdepth : 0 < s.groupDepth)
    (hnone : (ncclEnqueueCheck env inner info s).2.groupError = none) :
    (ncclEnqueueCheck env inner info s).2.nativeTasks = s.nativeTasks ++ taskOf info ∧
      (ncclEnqueueCheck env inner info s).2.log = s.log ++ taskTrace info := by
  rw [ncclEnqueueCheck_open env hdepth] at hnone ⊢
  unfold appendTask at hnone ⊢
  cases hfailure : (env.reply inner s.tick).failure with
  | none =>
    simp only [taskAppend_eq]
    exact ⟨rfl, rfl⟩
  | some error =>
    rw [hfailure] at hnone
    simp [groupErrCheck, error.2] at hnone

/-- In an open group a native call returns what it is answered. -/
theorem ncclEnqueueCheck_result (info : Info) (hdepth : 0 < s.groupDepth) :
    (ncclEnqueueCheck env inner info s).1 = (env.reply inner s.tick).result := by
  rw [ncclEnqueueCheck_open env hdepth, NativeReply.result, appendTask]
  cases (env.reply inner s.tick).failure <;> rfl

/-- It takes one answer from outside. -/
theorem ncclEnqueueCheck_tick (info : Info) (hdepth : 0 < s.groupDepth) :
    (ncclEnqueueCheck env inner info s).2.tick = s.tick + 1 := by
  rw [ncclEnqueueCheck_open env hdepth]
  simp only [appendTask]
  split
  · rw [taskAppend_eq]
    rfl
  · simp only [groupErrCheck]
    split <;> rfl

end

/-! ## The interface below the outermost level -/

section

variable {env : GroupEnv κ} {n : ℕ} (inherited : ApiCall → GroupCall κ)

/-- Under the guard every public call is native. -/
theorem publicCall_guarded (info : Info) (inner : Bool) (hguard : s.callerGuardActive = true) :
    publicCall env inherited info inner s = nativeCall env inherited info inner s := by
  simp [publicCall, hguard]

/-- A replayed point-to-point call. -/
theorem replay_sendRecv (hinfo : info.operation = .sendRecv) (inner : Bool) (s : GroupState κ) :
    cocclReplayNativeCall (api env (n + 1)) info inner s =
      some ((ncclEnqueueCheck env inner info (s.withGuard true)).1,
        (ncclEnqueueCheck env inner info (s.withGuard true)).2.withGuard s.callerGuardActive) := by
  unfold cocclReplayNativeCall
  rw [api, publicCall_guarded _ _ _ (by rfl), nativeCall, hinfo]

/-- The guard is set back to what it was. -/
theorem Quietly.withGuard {s t : GroupState κ} (h : Quietly (s.withGuard true) t) :
    Quietly s (t.withGuard s.callerGuardActive) :=
  ⟨⟨h.depth, h.pending, rfl, h.log⟩, h.error⟩

/-- The exit of `ncclGroupEnd` changes the queue only. -/
theorem groupEndExit_closes {s s' : GroupState κ} {r : Result Unit} (h : Closes s s')
    (hqueue : s.pendingCalls = [] ∨ r = .ok ()) : Closes s (groupEndExit r s').2 := by
  unfold groupEndExit
  simp only
  split
  · next hfails =>
    rcases hqueue with hempty | rfl
    · exact ⟨h.depth, hempty.symm, h.guard, h.error, h.log⟩
    · cases hfails
  · exact h

/-- A group that is not the outermost one, or that finds nothing queued. -/
theorem ncclGroupEnd_closes {s : GroupState κ} (hdepth : 0 < s.groupDepth)
    (h : s.pendingCalls = [] ∨ 1 < s.groupDepth) :
    ∃ r s', ncclGroupEnd env inherited s = some (r, s') ∧ Closes s s' ∧
      (1 < s.groupDepth → r = .ok () ∧ s'.nativeTasks = s.nativeTasks ∧
        s'.log = s.log ++ [.groupEnded s.pendingCalls]) := by
  have hskip : ¬ (s.groupDepth = 1 ∧ (!s.pendingCalls.isEmpty) = true) := by
    rintro ⟨hone, hne⟩
    rcases h with h | h
    · simp [h] at hne
    · omega
  let entered := s.record (.groupEnded s.pendingCalls)
  have hcloses : Closes entered (ncclGroupEndInternal env entered).2 :=
    ncclGroupEndInternal_closes env hdepth
  have hopen : 1 < s.groupDepth → ncclGroupEndInternal env entered =
      (.ok (), { entered with groupDepth := s.groupDepth - 1 }) :=
    fun hone => ncclGroupEndInternal_inner env hone
  have hend : ncclGroupEnd env inherited s = some (groupEndExit
      (ncclGroupEndInternal env entered).1 (ncclGroupEndInternal env entered).2) := by
    unfold ncclGroupEnd groupEndNative
    rw [if_neg hskip]
    refine if_neg ?_
    rintro ⟨-, hone, hne⟩
    rw [hcloses.pending] at hne
    exact hskip ⟨by simpa using hone, hne⟩
  refine ⟨_, _, hend, ?_, fun hone => ?_⟩
  · have hexit := @groupEndExit_closes κ _ _ (ncclGroupEndInternal env entered).1 hcloses
      (h.imp_right fun hone => by rw [hopen hone])
    obtain ⟨events, hlog, hinner⟩ := hexit.log
    refine ⟨hexit.depth, hexit.pending, hexit.guard, hexit.error,
      .groupEnded s.pendingCalls :: events, ?_, ?_⟩
    · exact hlog.trans (by simp [entered, record])
    · exact forall_mem_cons.mpr ⟨rfl, hinner⟩
  · rw [hopen hone]
    exact ⟨rfl, rfl, rfl⟩

/-- The loop of `ncclAllToAll` gets through exactly if none of its calls fails, and then all calls
are made. -/
theorem peerCalls_sequence {infos : List Info}
    (hinfos : ∀ info ∈ infos, info.operation = .sendRecv) {s : GroupState κ}
    (hdepth : 0 < s.groupDepth) :
    ∃ r s', sequence checkFails (.ok ())
        (infos.map fun call => cocclReplayNativeCall (api env (n + 1)) call true) s =
        some (r, s') ∧ Quietly s s' ∧
      (checkFails r = false ↔
        ∀ i < infos.length, checkFails (env.reply true (s.tick + i)).result = false) ∧
      (checkFails r = false → s'.groupError = none →
        s'.nativeTasks = s.nativeTasks ++ infos ∧ s'.log = s.log ++ infos.map .task) := by
  induction infos generalizing s with
  | nil => exact ⟨.ok (), s, rfl, .refl s, by simp [checkFails], by simp⟩
  | cons info infos ih =>
    have hguarded : 0 < (s.withGuard true).groupDepth := hdepth
    have hquiet : Quietly s ((ncclEnqueueCheck env true info (s.withGuard true)).2.withGuard
        s.callerGuardActive) := (ncclEnqueueCheck_quiet env true info _).withGuard
    have hresult : (ncclEnqueueCheck env true info (s.withGuard true)).1 =
        (env.reply true s.tick).result := ncclEnqueueCheck_result env true info hguarded
    have htick : (ncclEnqueueCheck env true info (s.withGuard true)).2.tick = s.tick + 1 :=
      ncclEnqueueCheck_tick env true info hguarded
    obtain ⟨r, s', hrest, hquiet', hiff, htasks⟩ :=
      ih (fun i hi => hinfos i (mem_cons_of_mem _ hi)) (hquiet.depth ▸ hdepth)
    rw [map_cons, Calls.sequence, replay_sendRecv (hinfos info mem_cons_self)]
    simp only [hresult]
    by_cases hfails : checkFails (env.reply true s.tick).result = true
    · refine ⟨_, _, if_pos hfails, hquiet, ⟨fun hok => ?_, fun h => ?_⟩, fun hok => ?_⟩
      · rw [hok] at hfails
        cases hfails
      · have hzero := h 0 (Nat.succ_pos _)
        rw [add_zero, hfails] at hzero
        cases hzero
      · rw [hok] at hfails
        cases hfails
    · refine ⟨r, s', (if_neg hfails).trans hrest, hquiet.trans hquiet', hiff.trans ?_,
        fun hok hnone => ?_⟩
      · -- the answers of the remaining calls are one tick later
        show (∀ i < infos.length, checkFails (env.reply true
          ((ncclEnqueueCheck env true info (s.withGuard true)).2.tick + i)).result = false) ↔ _
        rw [htick]
        constructor
        · intro h i hi
          cases i with
          | zero => simpa using hfails
          | succ i =>
            rw [show s.tick + (i + 1) = s.tick + 1 + i by omega]
            exact h i (Nat.lt_of_succ_lt_succ hi)
        · intro h i hi
          rw [show s.tick + 1 + i = s.tick + (i + 1) by omega]
          exact h (i + 1) (Nat.succ_lt_succ hi)
      · obtain ⟨hnative, hlog⟩ := htasks hok hnone
        obtain ⟨hnative', hlog'⟩ := ncclEnqueueCheck_task env hguarded
          (hquiet'.error (hquiet.depth ▸ hdepth) hnone)
        rw [hnative, hlog]
        simp only [withGuard] at hnative' hlog' ⊢
        rw [hnative', hlog', taskOf_sendRecv (hinfos info mem_cons_self),
          taskTrace_sendRecv (hinfos info mem_cons_self)]
        simp

theorem peerCalls_sendRecv (info : Info) : ∀ call ∈ peerCalls info, call.operation = .sendRecv := by
  intro call hcall
  simp only [peerCalls, mem_flatMap, mem_cons, not_mem_nil, or_false] at hcall
  obtain ⟨peer, -, rfl | rfl⟩ := hcall <;> rfl

/-- The tasks of a native call. -/
def nativeTasksOf (info : Info) : List Info :=
  match info.operation with
  | .collective .allToAll => peerCalls info
  | _ => taskOf info

/-- What a native call leaves in the log of an open group. -/
def nativeTrace (info : Info) : List (GroupEvent κ) :=
  match info.operation with
  | .collective .allToAll => (peerCalls info).map .task ++ [.groupEnded []]
  | _ => taskTrace info

/-- What a native call does below the outermost level. -/
def NativeDone (info : Info) (s s' : GroupState κ) : Prop :=
  Quietly s s' ∧ (0 < s.groupDepth → s.pendingCalls = [] → s'.groupError = none →
    s'.nativeTasks = s.nativeTasks ++ nativeTasksOf info ∧ s'.log = s.log ++ nativeTrace info)

theorem allToAllNative_done (hinner : env.InnerSucceeds) {info : Info}
    (hinfo : info.operation = .collective .allToAll) {s : GroupState κ} (hs : s.Sheltered) :
    ∃ r s', allToAllNative (api env (n + 1)) info s = some (r, s') ∧ NativeDone info s s' := by
  obtain ⟨sent, t, hloop, hquiet, hiff, htasks⟩ := @peerCalls_sequence κ env n _
    (peerCalls_sendRecv info) s.groupStart (Nat.succ_pos _)
  have hsent := hiff.mpr fun _ _ => hinner _
  have hdepth : t.groupDepth = s.groupDepth + 1 := hquiet.depth
  have hpending : t.pendingCalls = s.pendingCalls := hquiet.pending
  obtain ⟨r, s', hend, hcloses, hopen⟩ := @ncclGroupEnd_closes κ env (api env n) t
    (by omega) (hs.imp (fun h => hpending.trans h) fun h => by omega)
  refine ⟨if checkFails r then r else .ok (), s', ?_, hquiet.group hcloses, ?_⟩
  · simp only [allToAllNative, hloop, hsent, api, hend]
    rfl
  · intro hpos hempty hnone
    obtain ⟨-, hnative, hlog⟩ := hopen (by omega)
    have hdepth' := hcloses.depth
    have herror : t.groupError = none := (hcloses.error (by omega)) ▸ hnone
    obtain ⟨hnative', hlog'⟩ := htasks hsent herror
    simp only [nativeTasksOf, nativeTrace, hinfo]
    rw [hnative, hnative', hlog, hlog', hpending, hempty, append_assoc]
    exact ⟨rfl, rfl⟩

/-- **A native call below the outermost level.** -/
theorem nativeCall_done (hinner : env.InnerSucceeds) (info : Info) (inner : Bool) {s : GroupState κ}
    (hs : s.Sheltered) :
    ∃ r s', nativeCall env (api env (n + 1)) info inner s = some (r, s') ∧
      NativeDone info s s' := by
  have hother : ∀ r, nativeTasksOf info = taskOf info → (nativeTrace info : List (GroupEvent κ)) =
      taskTrace info → nativeCall env (api env (n + 1)) info inner s =
        some (r, (ncclEnqueueCheck env inner info s).2) →
      ∃ r s', nativeCall env (api env (n + 1)) info inner s = some (r, s') ∧
        NativeDone info s s' := by
    intro r htasks htrace hcall
    refine ⟨_, _, hcall, ncclEnqueueCheck_quiet env inner info s, fun hpos _ hnone => ?_⟩
    rw [htasks, htrace]
    exact ncclEnqueueCheck_task env hpos hnone
  cases hinfo : info.operation with
  | sendRecv =>
    exact hother _ (by simp [nativeTasksOf, hinfo]) (by simp [nativeTrace, hinfo])
      (by simp only [nativeCall, hinfo]; rfl)
  | collective operation =>
    cases operation with
    | allToAll =>
      obtain ⟨r, s', hcall, hdone⟩ := @allToAllNative_done κ env n hinner info hinfo s hs
      exact ⟨r, s', by simp only [nativeCall, hinfo, hcall], hdone⟩
    | allGather | reduceScatter | allReduce =>
      exact hother _ (by simp [nativeTasksOf, hinfo]) (by simp [nativeTrace, hinfo])
        (by simp only [nativeCall, hinfo]; rfl)

/-- **A replayed call below the outermost level.** -/
theorem replay_done (hinner : env.InnerSucceeds) (info : Info) (inner : Bool) {s : GroupState κ}
    (hs : s.Sheltered) :
    ∃ r s', cocclReplayNativeCall (api env (n + 2)) info inner s = some (r, s') ∧
      NativeDone info s s' := by
  have hguarded : (s.withGuard true).Sheltered := hs
  obtain ⟨r, s', hcall, hquiet, htasks⟩ := @nativeCall_done κ env n hinner info inner _ hguarded
  refine ⟨r, s'.withGuard s.callerGuardActive, ?_, hquiet.withGuard, htasks⟩
  simp only [cocclReplayNativeCall, api, publicCall_guarded _ _ _ (show
    (s.withGuard true).callerGuardActive = true from rfl), hcall]

/-- A group that an executor opens. -/
theorem exchangeGroup_quiet (hinner : env.InnerSucceeds) (infos : List Info) (hs : s.Sheltered) :
    ∃ r s', exchangeGroup (api env (n + 2)) infos s = some (r, s') ∧ Quietly s s' := by
  obtain ⟨r, t, hloop, -, hquiet⟩ := @sequence_spec _ _ notSuccess (.ok ())
    (Sheltered (κ := κ)) Quietly Quietly.refl (fun _ _ _ => Quietly.trans)
    (infos.map fun info => cocclReplayNativeCall (api env (n + 2)) info false)
    (by
      intro call hcall t ht
      obtain ⟨info, -, rfl⟩ := mem_map.mp hcall
      obtain ⟨r, t', hreplay, hdone⟩ := @replay_done κ env n hinner info false t ht
      exact ⟨r, t', hreplay, hdone.1.sheltered ht, hdone.1⟩)
    s.groupStart (.inr (Nat.succ_pos _))
  have hdepth : t.groupDepth = s.groupDepth + 1 := hquiet.depth
  obtain ⟨ended, s', hend, hcloses, -⟩ := @ncclGroupEnd_closes κ env (api env (n + 1)) t
    (by omega) (hs.imp (fun h => hquiet.pending.trans h) fun h => by omega)
  refine ⟨if notSuccess r then r else ended, s', ?_, hquiet.group hcloses⟩
  simp only [exchangeGroup, hloop, api, hend]

theorem batchStep_quiet (hinner : env.InnerSucceeds) (step : BatchStep) {s : GroupState κ}
    (hs : s.Sheltered) :
    ∃ r s', batchStep env (api env (n + 2)) step s = some (r, s') ∧ Quietly s s' := by
  cases step with
  | exchange infos => exact exchangeGroup_quiet hinner infos hs
  | other => exact ⟨_, _, rfl, next_quiet s⟩

theorem executorStep_quiet (hinner : env.InnerSucceeds) (step : ExecutorStep) {s : GroupState κ}
    (hs : s.Sheltered) (hguard : s.callerGuardActive = true) :
    ∃ r s', executorStep env (api env (n + 2)) step s = some (r, s') ∧ Quietly s s' := by
  cases step with
  | native info =>
    obtain ⟨r, s', hcall, hdone⟩ := @nativeCall_done κ env n hinner info false s hs
    refine ⟨r, s', ?_, hdone.1⟩
    simp only [executorStep, api, publicCall_guarded _ _ _ hguard, hcall]
  | batch step => exact batchStep_quiet hinner step hs

theorem batchSteps_quiet (hinner : env.InnerSucceeds) (steps : List BatchStep) {s : GroupState κ}
    (hs : s.Sheltered) :
    ∃ r s', sequence checkFails (.ok ()) (steps.map (batchStep env (api env (n + 2)))) s =
      some (r, s') ∧ Quietly s s' := by
  obtain ⟨r, s', hsteps, -, hquiet⟩ := @sequence_spec _ _ checkFails (.ok ())
    (Sheltered (κ := κ)) Quietly Quietly.refl (fun _ _ _ => Quietly.trans)
    (steps.map (batchStep env (api env (n + 2))))
    (by
      intro call hcall t ht
      obtain ⟨step, -, rfl⟩ := mem_map.mp hcall
      obtain ⟨r, t', hstep, hquiet⟩ := @batchStep_quiet κ env n hinner step t ht
      exact ⟨r, t', hstep, hquiet.sheltered ht, hquiet⟩)
    s hs
  exact ⟨r, s', hsteps, hquiet⟩

theorem executorSteps_quiet (hinner : env.InnerSucceeds) (steps : List ExecutorStep)
    (hs : s.Sheltered) (hguard : s.callerGuardActive = true) :
    ∃ r s', sequence checkFails (.ok ()) (steps.map (executorStep env (api env (n + 2)))) s =
      some (r, s') ∧ Quietly s s' := by
  obtain ⟨r, s', hsteps, -, hquiet⟩ := @sequence_spec _ _ checkFails (.ok ())
    (fun t : GroupState κ => t.Sheltered ∧ t.callerGuardActive = true) Quietly Quietly.refl
    (fun _ _ _ => Quietly.trans) (steps.map (executorStep env (api env (n + 2))))
    (by
      rintro call hcall t ⟨ht, hguard⟩
      obtain ⟨step, -, rfl⟩ := mem_map.mp hcall
      obtain ⟨r, t', hstep, hquiet⟩ := @executorStep_quiet κ env n hinner step t ht hguard
      exact ⟨r, t', hstep, ⟨hquiet.sheltered ht, hquiet.guard.trans hguard⟩, hquiet⟩)
    s ⟨hs, hguard⟩
  exact ⟨r, s', hsteps, hquiet⟩

end

end Coccl
