import Coccl.Training.Stats

/-!
# Classification of a trace

`cocclTrainingClassifyTrace` gives every communicator evidence for each role, from its own calls and
then from their order beside others', and decides by it. The loop over pairs of communicators runs
in the order of their identifiers and reads what it has written.
-/

namespace Coccl

/-- `cocclTrainingEvidence`. -/
structure Evidence where
  dp : ℚ
  pp : ℚ
  tp : ℚ
  orderAsDp : ℚ
  orderAsTp : ℚ
  deriving DecidableEq

def noEvidence : Evidence := ⟨0, 0, 0, 0, 0⟩

/-- `cocclTrainingClassification`. -/
structure Classification where
  role : TrainingRole
  candidateRole : TrainingRole
  confidence : ℚ
  sizeConsistency : ℚ
  cycleSupport : ℚ
  overlapPatternSupport : ℚ
  orderSupport : ℚ
  agToRsRatio : ℚ
  callsPerIteration : ℕ
  medianBytes : ℕ
  observedCalls : ℕ
  committed : Bool
  deriving DecidableEq

/-- A classification before anything is known. -/
def unclassified : Classification :=
  ⟨.unknown, .unknown, 0, 0, 0, 0, 0, 0, 0, 0, 0, false⟩

section

variable [Doubles]

def roleEvidenceThreshold : ℚ := toDouble (6 / 10)
def overlapPatternThreshold : ℚ := toDouble (8 / 10)
def roleConflictMargin : ℚ := toDouble (15 / 100)
def ppEvidenceThreshold : ℚ := toDouble (7 / 10)

theorem roleEvidenceThreshold_pos : 0 < roleEvidenceThreshold := toDouble_pos (by norm_num)

theorem roleConflictMargin_pos : 0 < roleConflictMargin := toDouble_pos (by norm_num)

theorem ppEvidenceThreshold_pos : 0 < ppEvidenceThreshold := toDouble_pos (by norm_num)

/-- A margin lies only between different amounts. -/
theorem lt_of_margin_le {dp tp : ℚ} (h : roleConflictMargin ≤ toDouble (dp - tp)) :
    tp < dp := by
  by_contra hle
  exact absurd (h.trans (toDouble_nonpos (by linarith))) (not_le.mpr roleConflictMargin_pos)

theorem roleEvidenceThreshold_le_one : roleEvidenceThreshold ≤ 1 := toDouble_le_one (by norm_num)

def calibrationCoverage (iterations : List IterationRange) (targetIterations : ℤ) : ℚ :=
  if targetIterations ≤ 0 then 0
  else min 1 (toDouble (iterations.length / targetIterations))

/-! ## Evidence of a communicator alone -/

section

variable (config : TrainingConfig) (coverage : ℚ) (stats : CommStats)

def statsTopologyRole : TrainingRole :=
  if stats.p2pCalls = stats.calls ∧ stats.calls ≠ 0 then
    cocclTrainingTopologyRole stats.descriptor.nRanks .send config
  else if stats.collectiveCalls ≠ 0 then
    cocclTrainingTopologyRole stats.descriptor.nRanks .allReduce config
  else .unknown

/-- The data-parallel evidence of the strategy; `none` leaves what is there. -/
def dataParallelEvidence : Option ℚ :=
  match config.dataParallelStrategy with
  | .ddp =>
    if 1 < stats.descriptor.nNodes ∧ stats.allReduceCalls ≠ 0 ∧ stats.allGatherCalls = 0 ∧
        stats.reduceScatterCalls = 0 ∧ stats.stableCollectivePattern ∧
        2 ≤ stats.callsPerIteration then
      some (toDouble (stats.patternSupport * coverage))
    else none
  | .fsdp =>
    if 1 < stats.descriptor.nNodes ∧ stats.allGatherCalls ≠ 0 ∧ stats.reduceScatterCalls ≠ 0 ∧
        stats.stableCollectivePattern then
      some (toDouble (stats.patternSupport * coverage))
    else none
  | .sdp =>
    let overlapEvidence := toDouble (stats.overlapPatternSupport * coverage)
    let ratioEvidence := toDouble (stats.ratioSupport * coverage)
    let reduceScatterBuckets :=
      stats.reduceScatterCalls ≠ 0 ∧ stats.allGatherCalls = 0 ∧ stats.allReduceCalls = 0
    let overlapEvidence :=
      if ¬reduceScatterBuckets ∨ overlapEvidence < overlapPatternThreshold then 0
      else overlapEvidence
    let ratioEvidence := if ratioEvidence < roleEvidenceThreshold then 0 else ratioEvidence
    some (max overlapEvidence ratioEvidence)

def tensorAllReduce : Bool :=
  !config.sequenceParallel && config.dataParallelStrategy ≠ .ddp && stats.descriptor.nNodes = 1 &&
    stats.allReduceCalls ≠ 0 && stats.allGatherCalls = 0 && stats.reduceScatterCalls = 0 &&
    stats.stableCollectivePattern && 2 ≤ stats.callsPerIteration

/-- The body of the first loop, on the evidence an earlier entry of the same identifier left. -/
def evidenceAlone (evidence : Evidence) : Evidence :=
  match statsTopologyRole config stats with
  | .dataParallel => { evidence with dp := 1 }
  | .tensorParallel => { evidence with tp := 1 }
  | .pipelineParallel => { evidence with pp := 1 }
  | .unknown =>
    if 1 < config.pipelineParallelSize ∧ toDouble (7 / 10) ≤ stats.p2pShare ∧
        toDouble (8 / 10) ≤ stats.peerConcentration then
      { evidence with pp := min stats.p2pShare stats.peerConcentration }
    else
      { evidence with
        dp := (dataParallelEvidence config coverage stats).getD evidence.dp
        tp := if tensorAllReduce config stats then toDouble (stats.patternSupport * coverage)
          else evidence.tp }

end

/-! ## Evidence of pairs -/

/-- A communicator with no calls, in place of an entry that is not there. -/
def noStats : CommStats := statsOfCalls ⟨0, 0, 0⟩ [] []

section

/-- `sparseNodeLocalTail`. -/
def sparseTail (dp tp : CommStats) : Bool :=
  dp.descriptor.nNodes = 1 && dp.stableCollectivePattern && tp.stableCollectivePattern &&
    dp.callsPerIteration < tp.callsPerIteration &&
    ⌊toDouble (toDouble tp.medianBytes * (125 / 100))⌋₊ ≤ dp.medianBytes

/-- A communicator whose calls may be taken for tensor-parallel ones. -/
def denseEnough (stats : CommStats) : Bool :=
  stats.stableCollectivePattern && 2 ≤ stats.callsPerIteration

variable (stats : ℕ → CommStats) (relation : ℕ → ℕ → ℚ)

/-- The body of the loop over pairs. -/
def pairStep (dpComm : ℕ) (evidence : ℕ → Evidence) (tpComm : ℕ) : ℕ → Evidence :=
  if dpComm = tpComm ∨ ppEvidenceThreshold ≤ (evidence tpComm).pp ∨
      1 < (stats tpComm).descriptor.nNodes ∨ relation dpComm tpComm < roleEvidenceThreshold then
    evidence
  else
    let seededDp := roleEvidenceThreshold ≤ (evidence dpComm).dp
    if ¬seededDp ∧ !sparseTail (stats dpComm) (stats tpComm) then evidence
    else
      let own := evidence dpComm
      let evidence := Function.update evidence dpComm { own with
        dp := if seededDp then own.dp else relation dpComm tpComm
        orderAsDp := max own.orderAsDp (relation dpComm tpComm) }
      let other := evidence tpComm
      if other.dp < roleEvidenceThreshold ∧ denseEnough (stats tpComm) then
        Function.update evidence tpComm { other with
          tp := max other.tp (relation dpComm tpComm)
          orderAsTp := max other.orderAsTp (relation dpComm tpComm) }
      else evidence

def pairRow (ids : List ℕ) (evidence : ℕ → Evidence) (dpComm : ℕ) : ℕ → Evidence :=
  if ppEvidenceThreshold ≤ (evidence dpComm).pp then evidence
  else ids.foldl (pairStep stats relation dpComm) evidence

def pairLoop (ids : List ℕ) (evidence : ℕ → Evidence) : ℕ → Evidence :=
  ids.foldl (pairRow stats relation ids) evidence

end

/-! ## What is left -/

/-- The body of the loop over pipeline boundaries. -/
def interiorEvidence (stats : CommStats) (interior : ℚ) (evidence : Evidence) : Evidence :=
  if 1 < stats.descriptor.nNodes ∨ ppEvidenceThreshold ≤ evidence.pp ∨
      roleEvidenceThreshold ≤ evidence.dp ∨ !denseEnough stats then evidence
  else { evidence with
    tp := max evidence.tp interior
    orderAsTp := max evidence.orderAsTp interior }

/-- The body of the last loop: a node-local flow beside a data-parallel one. -/
def besideDpEvidence (coverage : ℚ) (stats : CommStats) (evidence : Evidence) : Evidence :=
  if stats.descriptor.nNodes = 1 ∧ evidence.dp < roleEvidenceThreshold ∧
      evidence.pp < ppEvidenceThreshold ∧ denseEnough stats then
    { evidence with tp := max evidence.tp (toDouble (toDouble (6 / 10) * coverage)) }
  else evidence

/-- The role, the candidate and the confidence that data- and tensor-parallel evidence give. -/
def decideRole (dp tp : ℚ) : TrainingRole × TrainingRole × ℚ :=
  let candidateRole : TrainingRole :=
    if tp ≤ dp then if 0 < dp then .dataParallel else .unknown else .tensorParallel
  if roleEvidenceThreshold ≤ dp ∧
      (tp < roleEvidenceThreshold ∨ roleConflictMargin ≤ toDouble (dp - tp)) then
    (.dataParallel, candidateRole, dp)
  else if roleEvidenceThreshold ≤ tp ∧
      (dp < roleEvidenceThreshold ∨ roleConflictMargin ≤ toDouble (tp - dp)) then
    (.tensorParallel, candidateRole, tp)
  else (.unknown, candidateRole, max dp tp)

def classificationOf (stats : CommStats) (evidence : Evidence) : Classification :=
  let decided :=
    if ppEvidenceThreshold ≤ evidence.pp then
      (TrainingRole.pipelineParallel, TrainingRole.pipelineParallel, evidence.pp)
    else decideRole evidence.dp (if 1 < stats.descriptor.nNodes then 0 else evidence.tp)
  { role := decided.1
    candidateRole := decided.2.1
    confidence := decided.2.2
    sizeConsistency := stats.sizeConsistency
    cycleSupport := stats.patternSupport
    overlapPatternSupport := stats.overlapPatternSupport
    orderSupport := max evidence.orderAsDp evidence.orderAsTp
    agToRsRatio := stats.representativeAgToRsRatio
    callsPerIteration := stats.callsPerIteration
    medianBytes := stats.medianBytes
    observedCalls := stats.calls
    committed := true }

/-! ## The classifier -/

section

variable (communicators : List TraceComm) (events : List TraceEvent)
  (iterations : List IterationRange) (targetIterations : ℤ) (config : TrainingConfig)

/-- The keys of the two maps, in their order. -/
def traceIds : List ℕ := (communicators.map (·.communicatorId)).dedup.mergeSort

/-- `statsById`: a later communicator of one identifier replaces an earlier one. -/
def statsById (id : ℕ) : CommStats :=
  match communicators.reverse.find? fun communicator => communicator.communicatorId = id with
  | some communicator => buildCommStats communicator events iterations
  | none => noStats

/-- `evidenceById` after the first loop. -/
def initialEvidence : ℕ → Evidence :=
  communicators.foldl (fun evidence communicator =>
    Function.update evidence communicator.communicatorId
      (evidenceAlone config (calibrationCoverage iterations targetIterations)
        (buildCommStats communicator events iterations) (evidence communicator.communicatorId)))
    fun _ => noEvidence

def relationOf (dpComm tpComm : ℕ) : ℚ :=
  toDouble (orderRelationSupport dpComm tpComm events iterations *
    calibrationCoverage iterations targetIterations)

/-- `evidenceById` when the roles are decided. -/
def finalEvidence : ℕ → Evidence :=
  let coverage := calibrationCoverage iterations targetIterations
  let stats := statsById communicators events iterations
  let ids := traceIds communicators
  let evidence := initialEvidence communicators events iterations targetIterations config
  let ppComms := ids.filter fun id => ppEvidenceThreshold ≤ (evidence id).pp
  let evidence := pairLoop stats (relationOf events iterations targetIterations) ids evidence
  let evidence := fun id => interiorEvidence (stats id)
    (toDouble (ppInteriorSupport id ppComms events iterations * coverage)) (evidence id)
  if ids.any fun id => roleEvidenceThreshold ≤ (evidence id).dp then
    fun id => besideDpEvidence coverage (stats id) (evidence id)
  else evidence

def cocclTrainingClassifyTrace : List (ℕ × Classification) :=
  (traceIds communicators).map fun id =>
    (id, classificationOf (statsById communicators events iterations id)
      (finalEvidence communicators events iterations targetIterations config id))

end

end

end Coccl
