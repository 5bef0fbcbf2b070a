import Coccl.Training.Assist

/-!
# Runs of the training assist

What one call of the assist can do is said once (`AssistStep`). What is committed stays until the
communicator is unregistered, what is answered stays answered, and the trace is bounded (`Stays`).
The trace holds events of registered communicators only, and none when all are committed
(`UsefulTrace`), in `Careful` runs.
-/

namespace Coccl

open Transitions List AssistState

namespace AssistState

variable {s : AssistState}

/-! ## The registry -/

variable {handle : ℕ} {comm : AssistComm}

theorem find_eq_some (h : s.find handle = some comm) : (handle, comm) ∈ s.comms := by
  obtain ⟨entry, hentry, rfl⟩ := Option.map_eq_some_iff.mp h
  have hkey := find?_some hentry
  rw [decide_eq_true_eq] at hkey
  rw [← hkey]
  exact mem_of_find?_eq_some hentry

/-- The registry after one that changes entries and keeps their handles. -/
theorem find_map {f : ℕ → AssistComm → AssistComm} (handle : ℕ) :
    find { s with comms := s.comms.map fun entry => (entry.1, f entry.1 entry.2) } handle =
      (s.find handle).map (f handle) := by
  unfold find
  rw [find?_map, Option.map_map, Option.map_map]
  refine Option.map_congr fun entry hentry => ?_
  have hkey := find?_some (Option.mem_def.mp hentry)
  simp only [Function.comp_apply, decide_eq_true_eq] at hkey ⊢
  rw [hkey]

theorem setComm_eq (handle : ℕ) (comm : AssistComm) : s.setComm handle comm =
    { s with comms := s.comms.map fun entry =>
      (entry.1, if entry.1 = handle then comm else entry.2) } := by
  unfold setComm
  congr 1
  refine map_congr_left fun entry _ => ?_
  split
  · next h => rw [h]
  · rfl

theorem find_setComm (handle : ℕ) (comm : AssistComm) (other : ℕ) :
    (s.setComm handle comm).find other =
      if other = handle then (s.find handle).map fun _ => comm else s.find other := by
  rw [setComm_eq, @find_map s (fun key old => if key = handle then comm else old)]
  by_cases h : other = handle
  · rw [if_pos h, h]
    simp
  · rw [if_neg h]
    simp [h]

theorem unregister_comms (s : AssistState) (handle : ℕ) :
    (s.unregister handle).comms = s.comms.filter fun entry => entry.1 ≠ handle := by
  unfold unregister
  simp only
  split
  · rfl
  · rfl

theorem find_unregister (handle other : ℕ) : (s.unregister handle).find other =
    if other = handle then none else s.find other := by
  rw [find, unregister_comms, find?_filter]
  by_cases h : other = handle
  · rw [if_pos h, find?_eq_none.mpr, Option.map_none]
    rintro entry -
    simp only [h, decide_eq_true_eq]
    tauto
  · rw [if_neg h, find]
    congr 2
    funext entry
    by_cases hkey : entry.1 = other <;> simp [hkey, h]

variable {entry : ℕ × AssistComm}

/-- A new entry does not hide others. -/
theorem find?_orderedInsert {entries : List (ℕ × AssistComm)} (h : entry.1 ≠ handle) :
    (entries.orderedInsert (fun a b => a.1 ≤ b.1) entry).find? (fun e => e.1 = handle) =
      entries.find? fun e => e.1 = handle := by
  induction entries with
  | nil => simp [h]
  | cons head tail ih =>
    rw [orderedInsert_cons]
    split
    · rw [find?_cons_of_neg (by simpa using h)]
    · by_cases hhead : head.1 = handle
      · rw [find?_cons_of_pos (by simpa using hhead), find?_cons_of_pos (by simpa using hhead)]
      · rw [find?_cons_of_neg (by simpa using hhead), find?_cons_of_neg (by simpa using hhead), ih]

theorem find_releaseIfCommitted (handle : ℕ) :
    s.releaseIfCommitted.find handle = s.find handle := by
  unfold releaseIfCommitted
  split <;> rfl

/-! ## Trace commits -/

variable {config : TrainingConfig}

theorem commit_committed (results : List (ℕ × Classification)) (targetIterations : ℤ)
    (comm : AssistComm) :
    (comm.commit results targetIterations).classification.committed = true := by
  unfold AssistComm.commit
  split
  · next h => exact h
  · rfl

theorem commit_of_committed {results : List (ℕ × Classification)} {targetIterations : ℤ}
    (h : comm.classification.committed = true) :
    comm.commit results targetIterations = comm := if_pos h

variable (config) in
/-- The state after a trace commit with these results. -/
def committed (s : AssistState) (results : List (ℕ × Classification)) : AssistState :=
  { s with
    comms := s.comms.map fun entry =>
      (entry.1, entry.2.commit results config.observationIterations)
    events := [] }

theorem allCommsCommitted_committed (s : AssistState) (results : List (ℕ × Classification)) :
    (s.committed config results).allCommsCommitted = true := by
  rw [allCommsCommitted, all_eq_true]
  intro entry hentry
  obtain ⟨old, -, rfl⟩ := mem_map.mp hentry
  exact commit_committed _ _ _

/-! ## One call -/

variable (config)

/-- The event of a call. -/
def observedEvent (comm : AssistComm) (info : Info) (bytes timestampNs : ℕ) : TraceEvent :=
  ⟨comm.descriptor.communicatorId, observedFunc info, bytes, info.peer, timestampNs⟩

/-- The entry of a new communicator. -/
def newEntry (s : AssistState) (comm : PlacedComm) : ℕ × AssistComm :=
  (comm.handle, ⟨⟨s.nextCommId, comm.nRanks, comm.nNodes⟩, unclassified, 0, 0⟩)

/-- A call of a registered communicator is counted. -/
def counted (s : AssistState) (info : Info) (comm : AssistComm) : AssistState :=
  s.setComm info.comm.handle { comm with observedCalls := comm.observedCalls + 1 }

/-- What one call does. -/
inductive AssistStep (s : AssistState) : AssistAction → AssistState → Prop where
  | ignored (action : AssistAction) (h : ∀ handle, action ≠ .unregister handle) :
      AssistStep s action s
  | registered (comm : PlacedComm) (hnew : s.find comm.handle = none) :
      AssistStep s (.register comm)
        { s with
          comms := s.comms.orderedInsert (fun a b => a.1 ≤ b.1) (s.newEntry comm)
          nextCommId := s.nextCommId + 1 }
  | unregistered (handle : ℕ) : AssistStep s (.unregister handle) (s.unregister handle)
  | counted (info : Info) (timestampNs : ℕ) (comm : AssistComm)
      (hfind : s.find info.comm.handle = some comm)
      (hcommitted : comm.classification.committed = true) :
      AssistStep s (.observe info timestampNs) (s.counted info comm)
  | topology (info : Info) (timestampNs : ℕ) (comm : AssistComm)
      (hfind : s.find info.comm.handle = some comm)
      (hcommitted : comm.classification.committed = false)
      (hrole : callTopologyRole config info ≠ .unknown) :
      AssistStep s (.observe info timestampNs)
        (s.commitTopology info.comm.handle comm (callTopologyRole config info))
  | appended (info : Info) (timestampNs : ℕ) (comm : AssistComm) (bytes : ℕ)
      (hfind : s.find info.comm.handle = some comm)
      (hcommitted : comm.classification.committed = false)
      (hlt : s.events.length + 1 < maxTrainingEvents) :
      AssistStep s (.observe info timestampNs)
        { s.counted info comm with
          events := s.events ++ [observedEvent comm info bytes timestampNs] }
  | traced (info : Info) (timestampNs : ℕ) (comm : AssistComm) (bytes : ℕ)
      (results : List (ℕ × Classification)) (hfind : s.find info.comm.handle = some comm)
      (hcommitted : comm.classification.committed = false)
      (hrole : callTopologyRole config info = .unknown) (hbytes : totalBytes info = some bytes)
      (hcompletes : (committedIterations config
        (s.events ++ [observedEvent comm info bytes timestampNs])).isSome = true) :
      AssistStep s (.observe info timestampNs) ((s.counted info comm).committed config results)

section

variable [Doubles]

theorem commitTrace_eq (s : AssistState) (iterations : List IterationRange) :
    ∃ results, s.commitTrace config iterations = s.committed config results :=
  ⟨_, if_pos (@allCommsCommitted_committed config s _)⟩

/-- An appended event is there, or the trace was committed. -/
theorem appendEvent_cases (s : AssistState) (event : TraceEvent) :
    s.appendEvent config event = { s with events := s.events ++ [event] } ∧
        s.events.length + 1 < maxTrainingEvents ∨
      (committedIterations config (s.events ++ [event])).isSome = true ∧
        ∃ results, s.appendEvent config event = s.committed config results := by
  unfold appendEvent
  simp only
  split
  · next iterations hsome =>
    exact .inr ⟨hsome ▸ rfl, commitTrace_eq config { s with events := s.events ++ [event] }
      iterations⟩
  · next hnone =>
    refine .inl ⟨rfl, ?_⟩
    by_contra hfull
    unfold committedIterations at hnone
    simp only at hnone
    split at hnone
    · cases hnone
    · rw [if_pos (by rw [length_append]; exact not_lt.mp hfull)] at hnone
      cases hnone

theorem after_step (enabled : Bool) (s : AssistState) (action : AssistAction) :
    AssistStep config s action (s.after config enabled action) := by
  cases action with
  | register comm =>
    show AssistStep config s _ (s.register enabled comm)
    unfold register
    split
    · exact .ignored _ (by simp)
    · next h =>
      refine .registered comm ?_
      simp only [Bool.or_eq_true, Bool.not_eq_true', not_or, Bool.not_eq_true] at h
      exact Option.not_isSome_iff_eq_none.mp (by simp [h.2])
  | unregister handle => exact .unregistered handle
  | observe info timestampNs =>
    have hignored : AssistStep config s (.observe info timestampNs) s := .ignored _ (by simp)
    show AssistStep config s _ (s.observe config enabled info timestampNs)
    unfold observe
    simp only
    split
    · exact hignored
    split
    · exact hignored
    next bytes hbytes =>
    split
    · exact hignored
    split
    · exact hignored
    next comm hfind =>
    split
    · next hrole =>
      split
      · next hcommitted => exact .counted info timestampNs comm hfind hcommitted
      · next hcommitted =>
        have hcommitted : comm.classification.committed = false := by simpa using hcommitted
        rw [if_pos hrole] at hbytes
        rcases appendEvent_cases config (s.counted info comm)
          (observedEvent comm info bytes timestampNs) with
          ⟨heq, hlt⟩ | ⟨hcompletes, results, heq⟩
        · exact heq ▸ .appended info timestampNs comm bytes hfind hcommitted hlt
        · exact heq ▸ .traced info timestampNs comm bytes results hfind hcommitted hrole hbytes
            hcompletes
    · next hrole =>
      split
      · exact hignored
      · next hcommitted =>
        exact .topology info timestampNs comm hfind (by simpa using hcommitted) hrole

end

variable {config}

/-! ## What is committed stays -/

/-- A committed communicator later: only its calls were counted. -/
structure Stays (comm comm' : AssistComm) : Prop where
  classification : comm'.classification = comm.classification
  activation : comm'.routingActivationCall = comm.routingActivationCall
  calls : comm.observedCalls ≤ comm'.observedCalls

theorem Stays.refl (comm : AssistComm) : Stays comm comm := ⟨rfl, rfl, le_rfl⟩

theorem Stays.trans {comm comm' comm'' : AssistComm} (h : Stays comm comm')
    (h' : Stays comm' comm'') : Stays comm comm'' :=
  ⟨h'.classification.trans h.classification, h'.activation.trans h.activation,
    h.calls.trans h'.calls⟩

variable {action : AssistAction} {s s' : AssistState}

/-- A committed communicator is not the one that is changed. -/
theorem find_setComm_of_committed (hfind : s.find handle = some comm)
    (hcommitted : comm.classification.committed = true) {other : ℕ} {new : AssistComm}
    (hnew : s.find other = some new) (huncommitted : new.classification.committed = false)
    (new' : AssistComm) : (s.setComm other new').find handle = some comm := by
  rw [find_setComm, if_neg, hfind]
  rintro rfl
  obtain rfl := Option.some.inj (hfind.symm.trans hnew)
  rw [hcommitted] at huncommitted
  cases huncommitted

theorem AssistStep.stays (hstep : AssistStep config s action s') (hfind : s.find handle = some comm)
    (hcommitted : comm.classification.committed = true) (haction : action ≠ .unregister handle) :
    ∃ comm', s'.find handle = some comm' ∧ Stays comm comm' := by
  cases hstep with
  | ignored => exact ⟨comm, hfind, .refl comm⟩
  | registered new hnew =>
    have hne : new.handle ≠ handle := by
      rintro rfl
      rw [hfind] at hnew
      cases hnew
    refine ⟨comm, ?_, .refl comm⟩
    rw [find, find?_orderedInsert hne]
    exact hfind
  | unregistered other =>
    have hne : handle ≠ other := fun h => haction (by rw [h])
    exact ⟨comm, by rw [find_unregister, if_neg hne, hfind], .refl comm⟩
  | counted info timestampNs counted hcounted _ =>
    rw [AssistState.counted, find_setComm]
    split
    · next heq =>
      rw [heq] at hfind
      rw [hfind] at hcounted ⊢
      obtain rfl := Option.some.inj hcounted
      exact ⟨_, rfl, rfl, rfl, Nat.le_succ _⟩
    · exact ⟨comm, hfind, .refl comm⟩
  | topology info timestampNs new hnew huncommitted _ =>
    have hset := find_setComm_of_committed hfind hcommitted hnew huncommitted
    exact ⟨comm, by rw [commitTopology, find_releaseIfCommitted, hset], .refl comm⟩
  | appended info timestampNs new bytes hnew huncommitted _ =>
    exact ⟨comm, find_setComm_of_committed hfind hcommitted hnew huncommitted _, .refl comm⟩
  | traced info timestampNs new bytes results hnew huncommitted =>
    refine ⟨comm, (find_map (f := fun _ comm =>
      comm.commit results config.observationIterations) handle).trans ?_, .refl comm⟩
    rw [AssistState.counted, find_setComm_of_committed hfind hcommitted hnew huncommitted,
      Option.map_some, commit_of_committed hcommitted]

/-! ## The trace -/

theorem AssistStep.events_lt (hstep : AssistStep config s action s')
    (h : s.events.length < maxTrainingEvents) : s'.events.length < maxTrainingEvents := by
  have hempty : ([] : List TraceEvent).length < maxTrainingEvents := by decide
  cases hstep with
  | ignored | registered => exact h
  | unregistered handle =>
    unfold unregister
    simp only
    split
    · exact hempty
    · exact h
  | counted => exact h
  | topology info timestampNs comm _ _ _ =>
    unfold commitTopology releaseIfCommitted
    split
    · exact hempty
    · exact h
  | appended info timestampNs comm bytes _ _ hlt =>
    show (s.events ++ [observedEvent comm info bytes timestampNs]).length < maxTrainingEvents
    rw [length_append]
    exact hlt
  | traced => exact hempty

/-! ## Runs -/

variable {enabled : Bool} {classification : Classification}

theorem query_eq_some :
    s.query enabled handle = some classification ↔
      enabled = true ∧ ∃ comm, s.find handle = some comm ∧ comm.classification.committed = true ∧
        (comm.routingActivationCall = 0 ∨ comm.routingActivationCall ≤ comm.observedCalls) ∧
        comm.classification = classification := by
  unfold query
  cases enabled with
  | false => simp
  | true => simp [Option.bind_eq_some_iff, and_assoc]

section

variable [Doubles]

theorem run_cons (s : AssistState) (action : AssistAction) (actions : List AssistAction) :
    run (step config enabled) s (action :: actions) =
      run (step config enabled) (s.after config enabled action) actions := by
  simp [run, step]

variable {actions : List AssistAction}

/-- The same along a run. -/
theorem run_stays (hactions : ∀ action ∈ actions, action ≠ .unregister handle) {s t : AssistState}
    (hrun : run (step config enabled) s actions = some t) (hfind : s.find handle = some comm)
    (hcommitted : comm.classification.committed = true) :
    ∃ comm', t.find handle = some comm' ∧ Stays comm comm' := by
  induction actions generalizing s comm with
  | nil =>
    obtain rfl := Option.some.inj hrun
    exact ⟨comm, hfind, .refl comm⟩
  | cons action actions ih =>
    obtain ⟨haction, hrest⟩ := forall_mem_cons.mp hactions
    rw [run_cons] at hrun
    obtain ⟨comm', hfind', hstays⟩ :=
      (after_step config enabled s action).stays hfind hcommitted haction
    obtain ⟨comm'', hfind'', hstays'⟩ :=
      ih hrest hrun hfind' (hstays.classification ▸ hcommitted)
    exact ⟨comm'', hfind'', hstays.trans hstays'⟩

/-- An answer stays. -/
theorem run_query (hactions : ∀ action ∈ actions, action ≠ .unregister handle) {s t : AssistState}
    (hrun : run (step config enabled) s actions = some t)
    (h : s.query enabled handle = some classification) :
    t.query enabled handle = some classification := by
  obtain ⟨henabled, comm, hfind, hcommitted, hready, rfl⟩ := query_eq_some.mp h
  obtain ⟨comm', hfind', hstays⟩ := run_stays hactions hrun hfind hcommitted
  refine query_eq_some.mpr ⟨henabled, comm', hfind', hstays.classification ▸ hcommitted, ?_,
    hstays.classification⟩
  rw [hstays.activation]
  exact hready.imp_right fun hle => hle.trans hstays.calls

/-- **A committed role is final.** In every state the assist reaches the trace is bounded, a trace
commit commits every communicator, and along every run that does not unregister a communicator its
committed role and activation call stay as they are, and an answer about it stays. -/
theorem reachable_committedFinal {s : AssistState}
    (h : Reachable (step config enabled) (fun _ _ => True) initial s) :
    s.events.length < maxTrainingEvents ∧
      (∀ events iterations,
        (commitTrace config { s with events := events } iterations).allCommsCommitted = true) ∧
      ∀ handle actions t, (∀ action ∈ actions, action ≠ .unregister handle) →
        run (step config enabled) s actions = some t →
        (∀ comm, s.find handle = some comm → comm.classification.committed = true →
          ∃ comm', t.find handle = some comm' ∧ comm'.classification = comm.classification ∧
            comm'.routingActivationCall = comm.routingActivationCall) ∧
        ∀ classification, s.query enabled handle = some classification →
          t.query enabled handle = some classification := by
  refine ⟨?_, fun events iterations => ?_, fun handle actions t hactions
    hrun => ⟨fun comm hfind hcommitted => ?_, fun classification hquery =>
      run_query hactions hrun hquery⟩⟩
  · refine h.invariant (I := fun s => s.events.length < maxTrainingEvents) (by decide)
      fun s action t hs _ hstep => ?_
    obtain rfl := Option.some.inj hstep
    exact (after_step config enabled s action).events_lt hs
  · obtain ⟨results, heq⟩ := commitTrace_eq config { s with events := events } iterations
    rw [heq, allCommsCommitted_committed]
  · obtain ⟨comm', hfind', hstays⟩ := run_stays hactions hrun hfind hcommitted
    exact ⟨comm', hfind', hstays.classification, hstays.activation⟩

end

/-! ## Communicators of eight ranks -/

/-- Rank 0 of eight on one node. -/
def eightRanks (handle : ℕ) : PlacedComm where
  handle := handle
  rank := 0
  nRanks := 8
  localRanks := 8
  nNodes := 1
  rank_lt := by decide
  localRanks_pos := by decide
  rankToNode := fun _ => 0

/-- No parallel size is configured that could tell a role. -/
def unsized : TrainingConfig := ⟨5, 1, 1, 1, .sdp, false⟩

/-- An AllReduce of a mebibyte. -/
def largeAllReduce (handle : ℕ) : Info :=
  collectiveInfo 4096 4096 262144 .float32 .sum .allReduce (eightRanks handle) 0

/-- The first call of a communicator of the data-parallel size tells its role. -/
def sizedState : AssistState where
  comms := [(1, ⟨⟨1, 8, 1⟩, { unclassified with
    role := .dataParallel, candidateRole := .dataParallel, confidence := 1, committed := true },
    0, 0⟩)]
  events := []
  nextCommId := 2

section

attribute [local instance] exactDoubles

/-- It is answered from then on. -/
theorem sizedState_final :
    sizedState.events.length < maxTrainingEvents ∧ ∀ actions t,
      (∀ action ∈ actions, action ≠ .unregister 1) →
      run (step { unsized with dataParallelSize := 8 } true) sizedState actions =
        some t → (t.query true 1).map (·.role) = some .dataParallel := by
  have hreached : Reachable (step { unsized with dataParallelSize := 8 } true)
      (fun _ _ => True) initial sizedState :=
    @reachable_of_run _ _ _ _ _ [.register (eightRanks 1), .observe (largeAllReduce 1) 0]
      (fun _ _ _ => trivial) _ (by decide +kernel)
  obtain ⟨hbound, -, hfinal⟩ := reachable_committedFinal hreached
  refine ⟨hbound, fun actions t hactions hrun => ?_⟩
  rw [(hfinal 1 actions t hactions hrun).2 _ rfl]
  rfl

end

/-! ## Useful events -/

/-- A communicator is registered once. -/
def Distinct (s : AssistState) : Prop := (s.comms.map Prod.fst).Nodup

theorem Distinct.find (h : s.Distinct) (hmem : (handle, comm) ∈ s.comms) :
    s.find handle = some comm := by
  obtain ⟨comm', hcomm'⟩ : ∃ comm', s.find handle = some comm' := by
    refine Option.isSome_iff_exists.mp ?_
    rw [AssistState.find, Option.isSome_map, find?_isSome]
    exact ⟨_, hmem, by simp⟩
  have hsame := inj_on_of_nodup_map h hmem (find_eq_some hcomm') rfl
  rw [hcomm', (Prod.mk.inj hsame).2]

theorem Distinct.eq_of_mem (h : s.Distinct) (hentry : entry ∈ s.comms)
    (hfind : s.find entry.1 = some comm) : entry.2 = comm :=
  Option.some.inj ((h.find hentry).symm.trans hfind)

theorem distinct_map (h : s.Distinct) (f : ℕ → AssistComm → AssistComm) (events : List TraceEvent) :
    Distinct { s with
      comms := s.comms.map fun entry => (entry.1, f entry.1 entry.2)
      events := events } := by
  rw [Distinct, map_map]
  exact h

theorem distinct_setComm (h : s.Distinct) (handle : ℕ) (comm : AssistComm) :
    (s.setComm handle comm).Distinct := by
  rw [setComm_eq]
  exact distinct_map h (fun key old => if key = handle then comm else old) s.events

theorem distinct_releaseIfCommitted (h : s.Distinct) : s.releaseIfCommitted.Distinct := by
  unfold releaseIfCommitted
  split
  · exact h
  · exact h

theorem AssistStep.distinct (hstep : AssistStep config s action s') (h : s.Distinct) :
    s'.Distinct := by
  cases hstep with
  | ignored => exact h
  | registered comm hnew =>
    have hperm := (perm_orderedInsert (fun a b : ℕ × AssistComm => a.1 ≤ b.1)
      (s.newEntry comm) s.comms).map Prod.fst
    refine hperm.nodup_iff.mpr (nodup_cons.mpr ⟨fun hmem => ?_, h⟩)
    obtain ⟨entry, hentry, hkey⟩ := mem_map.mp hmem
    have hfind : s.find entry.1 = some entry.2 := h.find hentry
    rw [show entry.1 = comm.handle from hkey, hnew] at hfind
    cases hfind
  | unregistered handle =>
    rw [Distinct, unregister_comms]
    exact h.sublist (filter_sublist.map _)
  | counted => exact distinct_setComm h _ _
  | topology => exact distinct_releaseIfCommitted (distinct_setComm h _ _)
  | appended => exact distinct_setComm h _ _
  | traced info timestampNs comm bytes results =>
    exact distinct_map (distinct_setComm h _ _)
      (fun _ comm => comm.commit results config.observationIterations) []

/-- Every event is of a registered communicator, and there are events only while one of them is not
committed. -/
structure UsefulTrace (s : AssistState) : Prop where
  registered : ∀ event ∈ s.events, ∃ entry ∈ s.comms,
    entry.2.descriptor.communicatorId = event.communicatorId
  needed : s.allCommsCommitted = true → s.events = []

/-- A communicator may be unregistered that is the only one. Of several, the events in the trace
have to be of others, one of which is not committed if there are events. -/
def Careful (s : AssistState) : AssistAction → Prop
  | .unregister handle => (∀ entry ∈ s.comms, entry.1 = handle) ∨
      (∀ event ∈ s.events, ∃ entry ∈ s.comms, entry.1 ≠ handle ∧
        entry.2.descriptor.communicatorId = event.communicatorId) ∧
      (s.events ≠ [] → ∃ entry ∈ s.comms, entry.1 ≠ handle ∧
        entry.2.classification.committed = false)
  | _ => True

theorem usefulTrace_of_empty (h : s.events = []) : UsefulTrace s := by
  refine ⟨fun event hevent => ?_, fun _ => h⟩
  rw [h] at hevent
  cases hevent

theorem allCommsCommitted_eq_false (hentry : entry ∈ s.comms)
    (h : entry.2.classification.committed = false) : s.allCommsCommitted ≠ true := by
  intro hall
  have := all_eq_true.mp hall entry hentry
  rw [h] at this
  cases this

/-- The identifiers of the registry after a communicator was changed. -/
theorem registered_setComm (hs : s.Distinct) {comm comm' : AssistComm}
    (hfind : s.find handle = some comm) (hdescriptor : comm'.descriptor = comm.descriptor) {id : ℕ}
    (h : ∃ entry ∈ s.comms, entry.2.descriptor.communicatorId = id) :
    ∃ entry ∈ (s.setComm handle comm').comms, entry.2.descriptor.communicatorId = id := by
  obtain ⟨entry, hentry, hid⟩ := h
  refine ⟨_, mem_map_of_mem hentry, ?_⟩
  split
  · next hkey =>
    rw [hs.eq_of_mem hentry (hkey ▸ hfind)] at hid
    exact (congrArg TraceComm.communicatorId hdescriptor).trans hid
  · exact hid

theorem mem_setComm (hfind : s.find handle = some comm) (comm' : AssistComm) :
    (handle, comm') ∈ (s.setComm handle comm').comms :=
  mem_map.mpr ⟨(handle, comm), find_eq_some hfind, if_pos rfl⟩

/-- An unregistration leaves a useful trace exactly if it is careful. -/
theorem usefulTrace_unregister (handle : ℕ) :
    UsefulTrace (s.unregister handle) ↔ s.Careful (.unregister handle) := by
  have hmem : ∀ {entry}, entry ∈ s.comms.filter (fun entry => entry.1 ≠ handle) ↔
      entry ∈ s.comms ∧ entry.1 ≠ handle := by simp
  unfold unregister Careful
  by_cases hlast : ∀ entry ∈ s.comms, entry.1 = handle
  · have hempty : (s.comms.filter fun entry => entry.1 ≠ handle).isEmpty = true := by
      simpa using hlast
    simp only [hempty, if_true]
    exact iff_of_true (usefulTrace_of_empty rfl) (.inl hlast)
  · have hsome : (s.comms.filter fun entry => entry.1 ≠ handle).isEmpty = false := by
      simpa using hlast
    simp only [hsome, Bool.false_eq_true, if_false, hlast, false_or]
    constructor
    · rintro ⟨hregistered, hneeded⟩
      refine ⟨fun event hevent => ?_, fun hne => ?_⟩
      · obtain ⟨entry, hentry, hid⟩ := hregistered event hevent
        exact ⟨entry, (hmem.mp hentry).1, (hmem.mp hentry).2, hid⟩
      · have hopen := mt hneeded hne
        simp only [allCommsCommitted, all_eq_true, not_forall, Bool.not_eq_true] at hopen
        obtain ⟨entry, hentry, huncommitted⟩ := hopen
        exact ⟨entry, (hmem.mp hentry).1, (hmem.mp hentry).2, huncommitted⟩
    · rintro ⟨hregistered, hneeded⟩
      refine ⟨fun event hevent => ?_, fun hall => ?_⟩
      · obtain ⟨entry, hentry, hne, hid⟩ := hregistered event hevent
        exact ⟨entry, hmem.mpr ⟨hentry, hne⟩, hid⟩
      · by_contra hevents
        obtain ⟨entry, hentry, hne, huncommitted⟩ := hneeded hevents
        exact allCommsCommitted_eq_false (hmem.mpr ⟨hentry, hne⟩) huncommitted hall

theorem AssistStep.useful (hstep : AssistStep config s action s') (hs : s.Distinct)
    (h : UsefulTrace s) (hcareful : s.Careful action) : UsefulTrace s' := by
  cases hstep with
  | ignored => exact h
  | registered comm hnew =>
    have hmem : ∀ entry, entry ∈ s.comms.orderedInsert (fun a b => a.1 ≤ b.1)
        (s.newEntry comm) ↔ entry = _ ∨ entry ∈ s.comms := fun entry => mem_orderedInsert _
    refine ⟨fun event hevent => ?_, fun hall => ?_⟩
    · obtain ⟨entry, hentry, hid⟩ := h.registered event hevent
      exact ⟨entry, (hmem entry).mpr (.inr hentry), hid⟩
    · exact absurd hall (allCommsCommitted_eq_false ((hmem _).mpr (.inl rfl)) rfl)
  | unregistered handle => exact (usefulTrace_unregister handle).mpr hcareful
  | counted info timestampNs comm hfind hcommitted =>
    refine ⟨fun event hevent => registered_setComm hs hfind (by rfl) (h.registered event hevent),
      fun hall => h.needed (all_eq_true.mpr fun entry hentry => ?_)⟩
    have hmapped := all_eq_true.mp hall _ (mem_map_of_mem hentry)
    split at hmapped
    · next hkey => rw [hs.eq_of_mem hentry (hkey ▸ hfind), hcommitted]
    · exact hmapped
  | topology info timestampNs comm hfind _ _ =>
    unfold commitTopology releaseIfCommitted
    split
    · exact usefulTrace_of_empty rfl
    · next hnot =>
      exact ⟨fun event hevent => registered_setComm hs hfind (by rfl) (h.registered event hevent),
        fun hall => absurd hall hnot⟩
  | appended info timestampNs comm bytes hfind huncommitted _ =>
    have hmem := mem_setComm hfind { comm with observedCalls := comm.observedCalls + 1 }
    refine ⟨fun e he => ?_, fun hall =>
      absurd hall (allCommsCommitted_eq_false hmem huncommitted)⟩
    rcases mem_append.mp he with he | he
    · exact registered_setComm hs hfind (by rfl) (h.registered e he)
    · exact ⟨_, hmem, by rw [mem_singleton.mp he]; rfl⟩
  | traced => exact usefulTrace_of_empty rfl

/-- **The trace holds useful events.** In every state reached by calls that unregister carefully,
events are of registered communicators, and there are none if all are committed; it stays so exactly
if the next unregistration is careful too. -/
theorem reachable_usefulTrace [Doubles] {s : AssistState}
    (h : Reachable (step config enabled) Careful initial s) :
    UsefulTrace s ∧
      ∀ handle, UsefulTrace (s.unregister handle) ↔ s.Careful (.unregister handle) := by
  have hboth : s.Distinct ∧ UsefulTrace s := by
    refine h.invariant (I := fun s => s.Distinct ∧ UsefulTrace s)
      ⟨nodup_nil, usefulTrace_of_empty rfl⟩ fun s action t hs hcareful hstep => ?_
    obtain rfl := Option.some.inj hstep
    have hdone := after_step config enabled s action
    exact ⟨hdone.distinct hs.1, hdone.useful hs.1 hs.2 hcareful⟩
  exact ⟨hboth.2, usefulTrace_unregister⟩

/-- Two communicators, one of which made a call. -/
def observedState : AssistState where
  comms := [(1, ⟨⟨1, 8, 1⟩, unclassified, 1, 0⟩), (2, ⟨⟨2, 8, 1⟩, unclassified, 0, 0⟩)]
  events := [⟨1, .allReduce, 1048576, 0, 0⟩]
  nextCommId := 3

section

attribute [local instance] exactDoubles

/-- The calls that lead there. -/
def observedOnce : List AssistAction :=
  [.register (eightRanks 1), .register (eightRanks 2), .observe (largeAllReduce 1) 0]

theorem run_observedOnce :
    run (step unsized true) initial observedOnce = some observedState := by
  decide +kernel

/-- The communicator without events in the trace may be unregistered, since the other one is not
committed. -/
theorem observedState_useful :
    (observedState.unregister 2).events ≠ [] ∧ UsefulTrace (observedState.unregister 2) := by
  have hbefore : Reachable (step unsized true) Careful initial observedState := by
    refine reachable_of_run (fun action haction s => ?_) run_observedOnce
    simp only [observedOnce, mem_cons, not_mem_nil, or_false] at haction
    rcases haction with rfl | rfl | rfl <;> exact trivial
  have hcareful : observedState.Careful (.unregister 2) := by
    refine .inr ⟨fun event hevent => ?_, fun _ => ⟨_, mem_cons_self, by decide, rfl⟩⟩
    rw [mem_singleton.mp hevent]
    exact ⟨_, mem_cons_self, by decide, rfl⟩
  exact ⟨by decide, (reachable_usefulTrace (hbefore.step hcareful rfl)).1⟩

/-- The other one's unregistration leaves its event in the trace. -/
theorem observedState_stale :
    run (step unsized true) initial (observedOnce ++ [.unregister 1]) =
        some (observedState.unregister 1) ∧ ¬ UsefulTrace (observedState.unregister 1) := by
  refine ⟨by rw [run_snoc, run_observedOnce]; rfl, fun h => ?_⟩
  obtain ⟨entry, hentry, hid⟩ := h.registered ⟨1, .allReduce, 1048576, 0, 0⟩ mem_cons_self
  have hentry' : entry ∈ [(2, (⟨⟨2, 8, 1⟩, unclassified, 0, 0⟩ : AssistComm))] := hentry
  rw [mem_singleton.mp hentry'] at hid
  exact absurd hid (by decide)

end

end AssistState

end Coccl
