import Coccl.Training.AssistRuns
import Coccl.Training.Evidence

/-!
# Communicators of a configured size

A communicator whose number of ranks is one of the data- and tensor-parallel sizes, and not the
other, should have that role. The assist gives it at the first collective call, unless a role was
committed before. The classifier gives data-parallel communicators their role, and tensor-parallel
ones of one node unless the loop over pairs takes their calls for a sparse tail (`KeepsSizedRole`).
-/

namespace Coccl

open Enumerations Transitions List AssistState

/-- The role that the configured sizes tell of a communicator. -/
def sizedRole (config : TrainingConfig) (nRanks : ℤ) : TrainingRole :=
  cocclTrainingTopologyRole nRanks .allReduce config

theorem topologyRole_of_collective {operation : NcclFunc} (h : operation.isCollective = true)
    (config : TrainingConfig) (nRanks : ℤ) :
    cocclTrainingTopologyRole nRanks operation config = sizedRole config nRanks := by
  cases operation <;> first | rfl | cases h

theorem sizedRole_cases (config : TrainingConfig) (nRanks : ℤ) :
    sizedRole config nRanks = .unknown ∨
      sizedRole config nRanks = .dataParallel ∧ nRanks = config.dataParallelSize ∧
        nRanks ≠ config.tensorParallelSize ∨
      sizedRole config nRanks = .tensorParallel ∧ nRanks = config.tensorParallelSize ∧
        nRanks ≠ config.dataParallelSize := by
  have heq : sizedRole config nRanks =
      if decide (nRanks = config.dataParallelSize) = decide (nRanks = config.tensorParallelSize)
        then .unknown
      else if nRanks = config.dataParallelSize then .dataParallel else .tensorParallel := rfl
  rw [heq]
  by_cases hdp : nRanks = config.dataParallelSize <;>
    by_cases htp : nRanks = config.tensorParallelSize
  · exact .inl (if_pos ((decide_eq_true hdp).trans (decide_eq_true htp).symm))
  · rw [decide_eq_true hdp, decide_eq_false htp, if_neg (by simp), if_pos hdp]
    exact .inr (.inl ⟨rfl, hdp, htp⟩)
  · rw [decide_eq_false hdp, decide_eq_true htp, if_neg (by simp), if_neg hdp]
    exact .inr (.inr ⟨rfl, htp, hdp⟩)
  · exact .inl (if_pos ((decide_eq_false hdp).trans (decide_eq_false htp).symm))

/-! ## The classifier -/

section

variable [Doubles] {communicators : List TraceComm} {events : List TraceEvent}
  {iterations : List IterationRange} {targetIterations : ℤ} {config : TrainingConfig}
  {comm : TraceComm}

/-- The communicator has collective calls in the trace. -/
def HasCollective (comm : TraceComm) (events : List TraceEvent) : Prop :=
  ∃ event ∈ events, event.communicatorId = comm.communicatorId ∧
    event.operation.isCollective = true

theorem statsTopologyRole_of_collective (h : HasCollective comm events) :
    statsTopologyRole config (buildCommStats comm events iterations) =
      sizedRole config comm.nRanks := by
  obtain ⟨event, hevent, hid, hcollective⟩ := h
  have hcall : (⟨event.operation, event.logicalBytes, event.peer⟩ : ObservedCall) ∈
      callsOf comm.communicatorId events :=
    mem_filterMap.mpr ⟨event, hevent, if_pos hid⟩
  have hp2p : (buildCommStats comm events iterations).p2pCalls ≠
      (buildCommStats comm events iterations).calls := by
    intro hall
    have hevery := countP_eq_length.mp hall _ hcall
    rw [NcclFunc.not_collective_of_p2p hevery] at hcollective
    cases hcollective
  have hsome : (buildCommStats comm events iterations).collectiveCalls ≠ 0 := by
    intro hnone
    have hmem : _ ∈ collectivesOf (callsOf comm.communicatorId events) :=
      mem_filter.mpr ⟨hcall, hcollective⟩
    rw [length_eq_zero_iff.mp hnone] at hmem
    cases hmem
  rw [statsTopologyRole, if_neg fun hall => hp2p hall.1, if_pos hsome]
  rfl

variable (communicators events iterations targetIterations config comm) in
/-- The first communicator that the calls of one are taken for the sparse tail of. -/
def firstTail : Option ℕ :=
  ((traceIds communicators).filter (eligible (statsById communicators events iterations)
    (relationOf events iterations targetIterations)
    (initialEvidence communicators events iterations targetIterations config)
    comm.communicatorId)).find?
      (tailOf (statsById communicators events iterations) comm.communicatorId)

variable (communicators events iterations targetIterations config comm) in
/-- The classifier does not override the role that the size tells: a tensor-parallel communicator is
on one node, and its order with the first communicator that it is a sparse tail of is less than one
by a margin, as the source computes it. -/
def KeepsSizedRole : Prop :=
  sizedRole config comm.nRanks = .tensorParallel → comm.nNodes ≤ 1 ∧
    ∀ other, firstTail communicators events iterations targetIterations config comm = some other →
      roleConflictMargin ≤ toDouble
        (1 - relationOf events iterations targetIterations comm.communicatorId other)

theorem decideRole_one_zero : decideRole 1 0 = (.dataParallel, .dataParallel, 1) := by
  simp [decideRole, roleEvidenceThreshold_pos, roleEvidenceThreshold_le_one]

theorem decideRole_zero_right_ne (dp : ℚ) : (decideRole dp 0).1 ≠ .tensorParallel := by
  unfold decideRole
  simp only
  split
  · simp
  · rw [if_neg fun h => absurd h.1 (not_le.mpr roleEvidenceThreshold_pos)]
    simp

/-- Too little data-parallel evidence is far from full evidence. -/
theorem margin_le_of_lt_threshold {dp : ℚ} (h : dp < roleEvidenceThreshold) :
    roleConflictMargin ≤ toDouble (1 - dp) := by
  have hexact := Doubles.toDouble_exact 5 3 (by norm_num) (by norm_num)
  have hthreshold : roleEvidenceThreshold ≤ toDouble (5 / 8) := Doubles.toDouble_mono (by norm_num)
  norm_num at hexact
  exact Doubles.toDouble_mono (by linarith)

/-- Full tensor-parallel evidence against data-parallel evidence. -/
theorem decideRole_one_right {dp : ℚ} (hdp : dp ≤ 1) :
    (decideRole dp 1).1 = .tensorParallel ↔ roleConflictMargin ≤ toDouble (1 - dp) := by
  have hnot : ¬ (roleEvidenceThreshold ≤ dp ∧
      (1 < roleEvidenceThreshold ∨ roleConflictMargin ≤ toDouble (dp - 1))) := by
    rintro ⟨-, h | h⟩
    · exact absurd h (not_lt.mpr roleEvidenceThreshold_le_one)
    · exact absurd (lt_of_margin_le h) (not_lt.mpr hdp)
  simp only [decideRole, if_neg hnot, roleEvidenceThreshold_le_one, true_and]
  by_cases h : dp < roleEvidenceThreshold ∨ roleConflictMargin ≤ toDouble (1 - dp)
  · rw [if_pos h]
    exact iff_of_true rfl (h.elim margin_le_of_lt_threshold id)
  · rw [if_neg h]
    exact iff_of_false (by simp) fun hmargin => h (.inr hmargin)

theorem role_classificationOf {stats : CommStats} {evidence : Evidence} (hpp : evidence.pp = 0) :
    (classificationOf stats evidence).role =
      (decideRole evidence.dp (if 1 < stats.descriptor.nNodes then 0 else evidence.tp)).1 := by
  unfold classificationOf
  simp only
  rw [if_neg (by rw [hpp]; exact not_le.mpr ppEvidenceThreshold_pos)]

variable (communicators events iterations targetIterations config comm) in
/-- The role that the classifier gives. -/
def classifiedRole : TrainingRole :=
  (classificationOf (statsById communicators events iterations comm.communicatorId)
    (finalEvidence communicators events iterations targetIterations config
      comm.communicatorId)).role

variable (hnodup : (communicators.map (·.communicatorId)).Nodup) (hcomm : comm ∈ communicators)
  (hcollective : HasCollective comm events)

include hnodup hcomm hcollective

theorem role_of_dataParallel (hrole : sizedRole config comm.nRanks = .dataParallel) :
    classifiedRole communicators events iterations targetIterations config comm =
      .dataParallel := by
  have hstart : initialEvidence communicators events iterations targetIterations config
      comm.communicatorId = { noEvidence with dp := 1 } := by
    rw [initialEvidence_eq hnodup hcomm, evidenceAlone,
      statsTopologyRole_of_collective hcollective, hrole]
  have hmem : comm.communicatorId ∈ traceIds communicators :=
    mem_traceIds.mpr (mem_map_of_mem hcomm)
  have hone := roleEvidenceThreshold_le_one
  have hafter := @afterRows_of_seeded _ (statsById communicators events iterations)
    (relationOf events iterations targetIterations) _ _ _ hmem
    (hstart ▸ hone : roleEvidenceThreshold ≤ (initialEvidence communicators events iterations
      targetIterations config comm.communicatorId).dp)
  rw [hstart] at hafter
  rw [classifiedRole, finalEvidence_eq,
    orderedEvidence_of_marked nodup_traceIds (.inr (hafter ▸ hone)), hafter,
    role_classificationOf rfl]
  simp only [noEvidence, ite_self, decideRole_one_zero]

/-- A communicator that its size tells to be tensor-parallel has the evidence of the first one it is
a sparse tail of against its own. -/
theorem role_of_tensorParallel (hrole : sizedRole config comm.nRanks = .tensorParallel) :
    classifiedRole communicators events iterations targetIterations config comm =
        .tensorParallel ↔
      KeepsSizedRole communicators events iterations targetIterations config comm := by
  have hstart : initialEvidence communicators events iterations targetIterations config
      comm.communicatorId = { noEvidence with tp := 1 } := by
    rw [initialEvidence_eq hnodup hcomm, evidenceAlone,
      statsTopologyRole_of_collective hcollective, hrole]
  have hmem : comm.communicatorId ∈ traceIds communicators :=
    mem_traceIds.mpr (mem_map_of_mem hcomm)
  set stats := statsById communicators events iterations with hstats
  set relation := relationOf events iterations targetIterations with hrelation
  set start := initialEvidence communicators events iterations targetIterations config with hs
  set final := finalEvidence communicators events iterations targetIterations config with hfinal
  rw [finalEvidence_eq] at hfinal
  have hpp : (final comm.communicatorId).pp = 0 := by
    rw [hfinal, pp_orderedEvidence nodup_traceIds, ← hs, hstart]
    rfl
  have hdp : (final comm.communicatorId).dp = ((firstTail communicators events iterations
      targetIterations config comm).map (relation comm.communicatorId)).getD 0 := by
    have hunseeded : ¬ roleEvidenceThreshold ≤ (start comm.communicatorId).dp := by
      rw [hstart]
      exact not_le.mpr roleEvidenceThreshold_pos
    have hactive : ¬ ppEvidenceThreshold ≤ (start comm.communicatorId).pp := by
      rw [hstart]
      exact not_le.mpr ppEvidenceThreshold_pos
    rw [hfinal, dp_orderedEvidence nodup_traceIds]
    simp only [afterRows, if_pos hmem, markedDp, partners, ← hs, if_neg hunseeded, if_neg hactive,
      head?_fromFirst]
    rw [hstart]
    rfl
  have htp : (final comm.communicatorId).tp = 1 := by
    have htp : (start comm.communicatorId).tp = 1 := by rw [hstart]
    rw [hfinal]
    refine le_antisymm (tp_orderedEvidence_le nodup_traceIds (maxFrom_le_iff.mpr
      ⟨htp.le, fun raise hraise => ?_⟩) (interiorOf_le_one _)
      (toDouble_mul_coverage_le_one roleEvidenceThreshold_le_one _ _))
      (htp.symm.le.trans ((le_maxFrom _ _).trans (le_tp_orderedEvidence nodup_traceIds)))
    obtain ⟨other, -, rfl⟩ := mem_map.mp hraise
    exact relationOf_le_one _ _ _ _ _
  have hnodes : (stats comm.communicatorId).descriptor.nNodes = comm.nNodes := by
    rw [hstats, statsById_eq hnodup hcomm]
    rfl
  refine Iff.trans ?_ ⟨fun h _ => h, fun h => h hrole⟩
  rw [classifiedRole, role_classificationOf hpp, hnodes, hdp, htp]
  by_cases hlocal : 1 < comm.nNodes
  · rw [if_pos hlocal]
    exact iff_of_false (decideRole_zero_right_ne _) fun h => absurd h.1 (not_le.mpr hlocal)
  · rw [if_neg hlocal]
    cases firstTail communicators events iterations targetIterations config comm with
    | none =>
      exact iff_of_true ((decideRole_one_right zero_le_one).mpr
          (margin_le_of_lt_threshold roleEvidenceThreshold_pos))
        ⟨not_lt.mp hlocal, fun other hother => by cases hother⟩
    | some first =>
      refine (decideRole_one_right (relationOf_le_one _ _ _ _ _)).trans
        ⟨fun h => ⟨not_lt.mp hlocal, fun other hother => ?_⟩, fun h => h.2 first rfl⟩
      obtain rfl := Option.some.inj hother
      exact h

/-- The classifier gives the role that the size tells exactly when it does not override it. -/
theorem classifyTrace_sized_iff (hsized : sizedRole config comm.nRanks ≠ .unknown) :
    ((cocclTrainingClassifyTrace communicators events iterations targetIterations config).lookup
        comm.communicatorId).map (·.role) = some (sizedRole config comm.nRanks) ↔
      KeepsSizedRole communicators events iterations targetIterations config comm := by
  have hmem : comm.communicatorId ∈ traceIds communicators :=
    mem_traceIds.mpr (mem_map_of_mem hcomm)
  rw [lookup_classifyTrace hmem, Option.map_some, Option.some_inj]
  change classifiedRole communicators events iterations targetIterations config comm = _ ↔ _
  rcases sizedRole_cases config comm.nRanks with hrole | ⟨hrole, -⟩ | ⟨hrole, -⟩
  · exact absurd hrole hsized
  · rw [hrole, role_of_dataParallel hnodup hcomm hcollective hrole]
    exact iff_of_true rfl fun htp => by rw [hrole] at htp; cases htp
  · rw [hrole, role_of_tensorParallel hnodup hcomm hcollective hrole]

end

/-! ## The assist -/

namespace AssistState

variable {config : TrainingConfig}

variable (config) in
/-- What is committed is the role that the size tells, if it tells one, and is answered at once. -/
structure Settled (comm : AssistComm) : Prop where
  fresh : comm.classification.committed = false → comm.routingActivationCall = 0
  role : comm.classification.committed = true →
    sizedRole config comm.descriptor.nRanks ≠ .unknown →
      comm.classification.role = sizedRole config comm.descriptor.nRanks ∧
        comm.routingActivationCall = 0

variable (config) in
/-- A call is of the communicator that is registered. It does not settle a communicator that its
size tells another role of: not as a send or receive, and not by completing the trace before that
communicator made a collective call. -/
def LeavesSized (s : AssistState) : AssistAction → Prop
  | .observe info timestampNs => ∀ comm, s.find info.comm.handle = some comm →
      comm.descriptor.nRanks = info.comm.nRanks ∧
      (comm.classification.committed = false →
        ((observedFunc info).isP2p = true → callTopologyRole config info ≠ .unknown →
          sizedRole config info.comm.nRanks = .unknown) ∧
        ∀ bytes, totalBytes info = some bytes → callTopologyRole config info = .unknown →
          (committedIterations config
            (s.events ++ [observedEvent comm info bytes timestampNs])).isSome = true →
          ∀ entry ∈ s.comms, entry.2.classification.committed = false →
            sizedRole config entry.2.descriptor.nRanks = .unknown)
  | _ => True

theorem observed_of_role {info : Info} (h : callTopologyRole config info ≠ .unknown) :
    (observedFunc info).isP2p = true ∨ (observedFunc info).isCollective = true := by
  unfold callTopologyRole cocclTrainingTopologyRole at h
  by_contra hnot
  push Not at hnot
  rw [if_neg hnot.1, if_pos (by simpa using hnot.2)] at h
  exact h rfl

variable {comm : AssistComm} {s : AssistState} {handle : ℕ}

theorem mem_setComm_cases {entry : ℕ × AssistComm} (h : entry ∈ (s.setComm handle comm).comms) :
    entry = (handle, comm) ∨ entry ∈ s.comms := by
  obtain ⟨old, hold, rfl⟩ := mem_map.mp h
  split
  · exact .inl rfl
  · exact .inr hold

theorem settled_of_uncommitted (h : comm.classification.committed = false)
    (hactivation : comm.routingActivationCall = 0) : Settled config comm :=
  ⟨fun _ => hactivation, fun hcommitted => by rw [h] at hcommitted; cases hcommitted⟩

/-- A trace commit leaves communicators alone that have no role by their size. -/
theorem settled_commit (h : Settled config comm) (hsized : comm.classification.committed = false →
      sizedRole config comm.descriptor.nRanks = .unknown) (results : List (ℕ × Classification))
    (targetIterations : ℤ) : Settled config (comm.commit results targetIterations) := by
  cases hcommitted : comm.classification.committed with
  | true => rwa [commit_of_committed hcommitted]
  | false =>
    have hdescriptor : (comm.commit results targetIterations).descriptor = comm.descriptor := by
      unfold AssistComm.commit
      split <;> rfl
    refine ⟨fun hnot => ?_, fun _ hrole => ?_⟩
    · rw [commit_committed] at hnot
      cases hnot
    · rw [hdescriptor] at hrole
      exact absurd (hsized hcommitted) hrole

/-- A counted call of a communicator that is not committed. -/
theorem settled_counted (h : ∀ entry ∈ s.comms, Settled config entry.2) {info : Info}
    (hfind : s.find info.comm.handle = some comm)
    (hcommitted : comm.classification.committed = false) :
    ∀ entry ∈ (s.counted info comm).comms, Settled config entry.2 := by
  intro entry hentry
  rcases mem_setComm_cases hentry with rfl | hold
  · exact settled_of_uncommitted hcommitted ((h _ (find_eq_some hfind)).fresh hcommitted)
  · exact h entry hold

theorem AssistStep.settled {s' : AssistState} {action : AssistAction}
    (hstep : AssistStep config s action s') (hleaves : s.LeavesSized config action)
    (h : ∀ entry ∈ s.comms, Settled config entry.2) :
    ∀ entry ∈ s'.comms, Settled config entry.2 := by
  cases hstep with
  | ignored => exact h
  | registered comm hnew =>
    intro entry hentry
    rcases (mem_orderedInsert _).mp hentry with rfl | hold
    · exact settled_of_uncommitted rfl rfl
    · exact h entry hold
  | unregistered handle =>
    intro entry hentry
    rw [unregister_comms] at hentry
    exact h entry (mem_filter.mp hentry).1
  | counted info timestampNs comm hfind hcommitted =>
    intro entry hentry
    rcases mem_setComm_cases hentry with rfl | hold
    · have hcomm := h _ (find_eq_some hfind)
      exact ⟨hcomm.fresh, hcomm.role⟩
    · exact h entry hold
  | topology info timestampNs comm hfind hcommitted hrole =>
    intro entry hentry
    have hcomms : ∀ t : AssistState, t.releaseIfCommitted.comms = t.comms := fun t => by
      unfold releaseIfCommitted
      split <;> rfl
    rw [commitTopology, hcomms] at hentry
    rcases mem_setComm_cases hentry with rfl | hold
    · obtain ⟨hranks, hnot⟩ := hleaves comm hfind
      have hcomm := h _ (find_eq_some hfind)
      refine ⟨fun hfalse => (by cases hfalse), fun _ hsized => ⟨?_, hcomm.fresh hcommitted⟩⟩
      show callTopologyRole config info = sizedRole config comm.descriptor.nRanks
      rw [hranks]
      rcases observed_of_role hrole with hp2p | hcollective
      · exact absurd (hranks ▸ (hnot hcommitted).1 hp2p hrole) hsized
      · exact topologyRole_of_collective hcollective _ _
    · exact h entry hold
  | appended info timestampNs comm bytes hfind hcommitted =>
    exact settled_counted h hfind hcommitted
  | traced info timestampNs comm bytes results hfind hcommitted hrole hbytes hcompletes =>
    intro entry hentry
    obtain ⟨old, hold, rfl⟩ := mem_map.mp hentry
    have hunsized := ((hleaves comm hfind).2 hcommitted).2 bytes hbytes hrole hcompletes
    refine settled_commit (settled_counted h hfind hcommitted old hold) (fun huncommitted => ?_) _ _
    rcases mem_setComm_cases hold with rfl | hmem
    · exact hunsized (info.comm.handle, comm) (find_eq_some hfind) hcommitted
    · exact hunsized old hmem huncommitted

/-- After a collective call the role that the size tells is answered. -/
theorem query_after_collective [Doubles] (h : ∀ entry ∈ s.comms, Settled config entry.2)
    {info : Info} (hfind : s.find info.comm.handle = some comm)
    (hranks : comm.descriptor.nRanks = info.comm.nRanks)
    (hcollective : (observedFunc info).isCollective = true)
    (hsized : sizedRole config info.comm.nRanks ≠ .unknown) (timestampNs : ℕ) :
    ∃ classification, (s.observe config true info timestampNs).query true info.comm.handle =
        some classification ∧ classification.role = sizedRole config info.comm.nRanks := by
  have hrole : callTopologyRole config info = sizedRole config info.comm.nRanks :=
    topologyRole_of_collective hcollective _ _
  have hobserved : (observedFunc info).isObservedOperation = true := by
    rw [NcclFunc.isObservedOperation, hcollective, Bool.true_or]
  have hcomm := h _ (find_eq_some hfind)
  unfold observe
  simp only [hrole, hsized, hobserved, if_false, Bool.not_true, Bool.or_self, Bool.false_eq_true,
    false_and, hfind]
  split
  · next hcommitted =>
    obtain ⟨hsame, hactivation⟩ := hcomm.role hcommitted (hranks ▸ hsized)
    exact ⟨_, query_eq_some.mpr ⟨rfl, comm, hfind, hcommitted, .inl hactivation, rfl⟩,
      hsame.trans (by rw [hranks])⟩
  · next hcommitted =>
    have hfound : (s.commitTopology info.comm.handle comm
        (sizedRole config info.comm.nRanks)).find info.comm.handle = some { comm with
          classification := { comm.classification with
            role := sizedRole config info.comm.nRanks
            candidateRole := sizedRole config info.comm.nRanks
            confidence := 1
            committed := true } } := by
      rw [commitTopology, find_releaseIfCommitted, find_setComm, if_pos rfl, hfind]
      rfl
    exact ⟨_, query_eq_some.mpr ⟨rfl, _, hfound, rfl,
      .inl (hcomm.fresh (by simpa using hcommitted)), rfl⟩, rfl⟩

/-- **A uniquely matching size tells the role.** After calls that leave such communicators alone, a
communicator's role is answered from its first collective call on, whatever else is called. The
classifier gives it to a communicator with collective calls exactly when it does not override it. -/
theorem sizedRoles_kept [Doubles] (config : TrainingConfig) :
    (∀ s, Reachable (step config true) (LeavesSized config) initial s →
      ∀ info timestampNs comm, s.find info.comm.handle = some comm →
        comm.descriptor.nRanks = info.comm.nRanks → (observedFunc info).isCollective = true →
        sizedRole config info.comm.nRanks ≠ .unknown →
        ∀ actions t, (∀ action ∈ actions, action ≠ .unregister info.comm.handle) →
          run (step config true) s (.observe info timestampNs :: actions) = some t →
          (t.query true info.comm.handle).map (·.role) =
            some (sizedRole config info.comm.nRanks)) ∧
      ∀ communicators events iterations targetIterations,
        (communicators.map TraceComm.communicatorId).Nodup →
        ∀ comm ∈ communicators, HasCollective comm events →
          sizedRole config comm.nRanks ≠ .unknown →
          (((cocclTrainingClassifyTrace communicators events iterations targetIterations
              config).lookup comm.communicatorId).map (·.role) =
                some (sizedRole config comm.nRanks) ↔
            KeepsSizedRole communicators events iterations targetIterations config comm) := by
  refine ⟨fun s hs info timestampNs comm hfind hranks hcollective hsized actions t hactions hrun =>
    ?_, fun communicators events iterations targetIterations hnodup comm hcomm hcollective
      hsized => classifyTrace_sized_iff hnodup hcomm hcollective hsized⟩
  have hsettled : ∀ entry ∈ s.comms, Settled config entry.2 := by
    refine hs.invariant (I := fun s => ∀ entry ∈ s.comms, Settled config entry.2)
      (fun entry hentry => by cases hentry) fun s action t hs hleaves hstep => ?_
    obtain rfl := Option.some.inj hstep
    exact (after_step config true s action).settled hleaves hs
  obtain ⟨classification, hquery, hrole⟩ :=
    query_after_collective hsettled hfind hranks hcollective hsized timestampNs
  rw [run_cons] at hrun
  rw [run_query hactions hrun hquery, Option.map_some, hrole]

/-- Eight ranks are the data-parallel size. -/
def eightWay : TrainingConfig := { unsized with dataParallelSize := 8 }

section

attribute [local instance] exactDoubles

/-- The first call of such a communicator tells its role. -/
theorem eightWay_firstCall :
    (∀ actions t, (∀ action ∈ actions, action ≠ .unregister 1) →
      run (step eightWay true) (initial.register true (eightRanks 1))
        (.observe (largeAllReduce 1) 0 :: actions) = some t →
      (t.query true 1).map (·.role) = some .dataParallel) ∧
      ((cocclTrainingClassifyTrace [⟨1, 8, 1⟩] [⟨1, .allReduce, 1048576, 0, 0⟩] [⟨0, 1⟩] 1
        eightWay).lookup 1).map (·.role) = some .dataParallel := by
  have hreached : Reachable (step eightWay true) (LeavesSized eightWay) initial
      (initial.register true (eightRanks 1)) :=
    .step .start (show LeavesSized eightWay initial (.register (eightRanks 1)) from trivial) rfl
  obtain ⟨hassist, hclassify⟩ := sizedRoles_kept eightWay
  refine ⟨hassist _ hreached (largeAllReduce 1) 0 _ rfl rfl rfl (by decide), ?_⟩
  refine (hclassify [⟨1, 8, 1⟩] [⟨1, .allReduce, 1048576, 0, 0⟩] [⟨0, 1⟩] 1 (by simp) ⟨1, 8, 1⟩
    mem_cons_self ⟨_, mem_cons_self, rfl, rfl⟩ (by decide)).mpr fun htp => ?_
  exact absurd htp (by decide)

/-- The pipeline has that size too. -/
def eightStages : TrainingConfig := { eightWay with pipelineParallelSize := 8 }

/-- A send to the next rank. -/
def sendToNext (handle : ℕ) : Info :=
  { largeAllReduce handle with peer := 1, func := .send, operation := .sendRecv }

/-- A communicator that sends first stays pipeline-parallel, and the classifier drops the
tensor-parallel role of a communicator of two nodes. -/
theorem eightStages_overridden :
    sizedRole eightStages 8 = .dataParallel ∧
      (((run (step eightStages true) initial
        [.register (eightRanks 1), .observe (sendToNext 1) 0, .observe (largeAllReduce 1) 1]).bind
          fun s => s.query true 1).map (·.role) = some .pipelineParallel) ∧
      sizedRole { unsized with tensorParallelSize := 8 } 8 = .tensorParallel ∧
      ((cocclTrainingClassifyTrace [⟨1, 8, 2⟩] [⟨1, .allReduce, 1048576, 0, 0⟩] [⟨0, 1⟩] 1
        { unsized with tensorParallelSize := 8 }).lookup 1).map (·.role) ≠
          some .tensorParallel := by
  refine ⟨by decide, rfl, by decide, fun hrole => ?_⟩
  have hkeeps := (@classifyTrace_sized_iff _ [⟨1, 8, 2⟩] [⟨1, .allReduce, 1048576, 0, 0⟩] [⟨0, 1⟩] 1
    { unsized with tensorParallelSize := 8 } ⟨1, 8, 2⟩ (by simp) mem_cons_self
    ⟨_, mem_cons_self, rfl, rfl⟩ (by decide)).mp hrole
  exact absurd (hkeeps (by decide)).1 (by decide)

end

end AssistState

end Coccl
