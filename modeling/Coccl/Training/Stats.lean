import Coccl.Training.Trace

/-!
# Statistics of a trace

What the classifier computes of one communicator's calls (`buildCommStats`), of the order of two
communicators' calls (`orderRelationSupport`) and of calls between those of a pipeline
(`ppInteriorSupport`). Each first drops everything of the events but what it reads. Shares are
rational numbers, rounded wherever the source rounds them (`Doubles`).
-/

namespace Coccl

/-! ## Floating-point numbers -/

/-- How results of type `double` and `long double` are rounded: the first keep their order, and
those of 53 bits are exact. -/
class Doubles where
  toDouble : ℚ → ℚ
  toLongDouble : ℚ → ℚ
  toDouble_mono : Monotone toDouble
  toDouble_exact : ∀ n k : ℕ, n ≤ 2 ^ 53 → k ≤ 1022 → toDouble (n / 2 ^ k) = n / 2 ^ k

/-- Exact arithmetic. -/
abbrev exactDoubles : Doubles := ⟨id, id, monotone_id, fun _ _ _ _ => rfl⟩

export Doubles (toDouble toLongDouble)

section

variable [Doubles] {x : ℚ}

theorem toDouble_zero : toDouble 0 = 0 := by
  simpa using Doubles.toDouble_exact 0 0 (by norm_num) (by norm_num)

theorem toDouble_one : toDouble 1 = 1 := by
  simpa using Doubles.toDouble_exact 1 0 (by norm_num) (by norm_num)

theorem toDouble_nonneg (h : 0 ≤ x) : 0 ≤ toDouble x :=
  toDouble_zero.ge.trans (Doubles.toDouble_mono h)

theorem toDouble_nonpos (h : x ≤ 0) : toDouble x ≤ 0 :=
  (Doubles.toDouble_mono h).trans toDouble_zero.le

theorem toDouble_le_one (h : x ≤ 1) : toDouble x ≤ 1 :=
  (Doubles.toDouble_mono h).trans toDouble_one.le

/-- The constants of the classifier are far enough from zero. -/
theorem toDouble_pos (h : 1 / 8 ≤ x) : 0 < toDouble x := by
  have heighth := Doubles.toDouble_exact 1 3 (by norm_num) (by norm_num)
  have hmono := Doubles.toDouble_mono h
  norm_num at heighth hmono
  linarith

end

/-- The events of a range. -/
def rangeEvents (events : List TraceEvent) (range : IterationRange) : List TraceEvent :=
  (events.take range.stop).drop range.start

/-! ## One communicator -/

/-- A call of a known communicator. -/
structure ObservedCall where
  operation : NcclFunc
  logicalBytes : ℕ
  peer : ℤ
  deriving DecidableEq

def callsOf (communicatorId : ℕ) (events : List TraceEvent) : List ObservedCall :=
  events.filterMap fun event =>
    if event.communicatorId = communicatorId then
      some ⟨event.operation, event.logicalBytes, event.peer⟩
    else none

/-- `cocclTrainingCommStats`; `callsPerIteration` is a count, which a `double` holds exactly. -/
structure CommStats where
  descriptor : TraceComm
  calls : ℕ
  collectiveCalls : ℕ
  p2pCalls : ℕ
  allGatherCalls : ℕ
  reduceScatterCalls : ℕ
  allReduceCalls : ℕ
  medianBytes : ℕ
  callsPerIteration : ℕ
  p2pShare : ℚ
  peerConcentration : ℚ
  sizeConsistency : ℚ
  patternSupport : ℚ
  overlapPatternSupport : ℚ
  ratioSupport : ℚ
  representativeAgToRsRatio : ℚ
  stableCollectivePattern : Bool

def collectivesOf (calls : List ObservedCall) : List ObservedCall :=
  calls.filter fun call => call.operation.isCollective

section

variable [Doubles]

/-- `median` of ratios. -/
def medianRatio (values : List ℚ) : ℚ :=
  let sorted := values.mergeSort
  let middle := values.length / 2
  if values.length % 2 = 0 ∧ values ≠ [] then
    toDouble (toDouble (sorted.getD (middle - 1) 0 + sorted.getD middle 0) / 2)
  else sorted.getD middle 0

/-- A quotient of counts, which are exact. -/
def share (count total : ℕ) : ℚ := toDouble (count / total)

/-- The share of the two most frequent peers. -/
def peerConcentration (calls : List ObservedCall) : ℚ :=
  let peers := (calls.filter fun call => call.operation.isP2p).map (·.peer)
  let frequencies := (peers.dedup.map fun peer => peers.count peer).mergeSort fun a b => b ≤ a
  if peers.length = 0 then 0 else share (frequencies.take 2).sum peers.length

/-- The smallest of the most frequent sizes, with its frequency. -/
def modeOf (sizes : List ℕ) : ℕ × ℕ :=
  sizes.dedup.mergeSort.foldl (fun mode bytes =>
    if mode.2 < sizes.count bytes then (bytes, sizes.count bytes) else mode) (0, 0)

def sizeConsistency (sizes : List ℕ) : ℚ :=
  let mode := modeOf sizes
  let modeCoverage : ℚ := if sizes.length = 0 then 0 else share mode.2 sizes.length
  let withinFivePercent := mode.1 ≠ 0 ∧ sizes.all fun bytes =>
    toDouble (|toDouble (toDouble bytes - toDouble mode.1)| / toDouble mode.1) ≤ toDouble (5 / 100)
  if withinFivePercent then modeCoverage else toDouble (modeCoverage * (1 / 2))

def ratioNear (value target : ℚ) : Bool :=
  0 < target && toDouble (|toDouble (value - target)| / target) ≤ toDouble (2 / 10)

/-- `IterationPattern`: the collectives of an iteration by operation and size. -/
def iterationPattern (calls : List ObservedCall) : List (NcclFunc × ℕ) :=
  (collectivesOf calls).map fun call => (call.operation, call.logicalBytes)

/-- An operation occurs in two sizes. -/
def hasMultiSizeOperation (pattern : List (NcclFunc × ℕ)) : Bool :=
  pattern.any fun a => pattern.any fun b => a.1 = b.1 && a.2 ≠ b.2

/-- How often the most frequent of some patterns occurs. -/
def bestPatternCount (patterns : List (List (NcclFunc × ℕ))) : ℕ :=
  (patterns.map fun pattern => patterns.count pattern).foldl max 0

/-- The bytes of an operation, summed in `long double`. -/
def bytesOf (operation : NcclFunc) (calls : List ObservedCall) : ℚ :=
  (calls.filter fun call => call.operation = operation).foldl (fun sum call =>
    toLongDouble (sum + toLongDouble call.logicalBytes)) 0

/-- The ratio of AllGather to ReduceScatter bytes of an iteration, if it is one that is looked
for. -/
def matchingRatio (calls : List ObservedCall) : Option ℚ :=
  let allGatherBytes := bytesOf .allGather calls
  let reduceScatterBytes := bytesOf .reduceScatter calls
  if 0 < allGatherBytes ∧ 0 < reduceScatterBytes then
    let ratio := toDouble (toLongDouble (allGatherBytes / reduceScatterBytes))
    if ratioNear ratio (1 / 2) || ratioNear ratio (1 / 4) then some ratio else none
  else none

/-- `buildCommStats`, from the communicator's calls and those of each iteration. -/
def statsOfCalls (descriptor : TraceComm) (calls : List ObservedCall)
    (iterations : List (List ObservedCall)) : CommStats :=
  let collectives := collectivesOf calls
  let sizes := collectives.map (·.logicalBytes)
  let p2pCalls := calls.countP fun call => call.operation.isP2p
  let patterns := (iterations.map iterationPattern).filter (· ≠ [])
  let ratios := iterations.filterMap matchingRatio
  let iterationCount := max 1 iterations.length
  let patternSupport := share (bestPatternCount patterns) iterationCount
  { descriptor := descriptor
    calls := calls.length
    collectiveCalls := collectives.length
    p2pCalls := p2pCalls
    allGatherCalls := calls.countP fun call => call.operation = .allGather
    reduceScatterCalls := calls.countP fun call => call.operation = .reduceScatter
    allReduceCalls := calls.countP fun call => call.operation = .allReduce
    medianBytes := median sizes
    callsPerIteration := median (iterations.map List.length)
    p2pShare := if calls.length = 0 then 0 else share p2pCalls calls.length
    peerConcentration := peerConcentration calls
    sizeConsistency := sizeConsistency sizes
    patternSupport := patternSupport
    overlapPatternSupport :=
      share (bestPatternCount (patterns.filter hasMultiSizeOperation)) iterationCount
    ratioSupport := share ratios.length iterationCount
    representativeAgToRsRatio := medianRatio ratios
    stableCollectivePattern := collectives.length ≠ 0 ∧ toDouble (6 / 10) ≤ patternSupport }

def buildCommStats (descriptor : TraceComm) (events : List TraceEvent)
    (iterations : List IterationRange) : CommStats :=
  statsOfCalls descriptor (callsOf descriptor.communicatorId events)
    (iterations.map fun range => callsOf descriptor.communicatorId (rangeEvents events range))

end

/-! ## Two communicators -/

/-- An event as two communicators see it. -/
structure PairEvent where
  operation : NcclFunc
  ofDp : Bool
  ofTp : Bool

def pairEvents (dpComm tpComm : ℕ) (events : List TraceEvent) : List PairEvent :=
  events.map fun event =>
    ⟨event.operation, event.communicatorId = dpComm, event.communicatorId = tpComm⟩

/-- The number of `tpComm` collectives up to the next ReduceScatter of `dpComm` is at least two. -/
def bracketCloses (tpCollectives : ℕ) : List PairEvent → Bool
  | [] => false
  | next :: rest =>
    let tpCollectives :=
      if next.ofTp && next.operation.isCollective then tpCollectives + 1 else tpCollectives
    if next.ofDp && next.operation = .reduceScatter then 2 ≤ tpCollectives
    else bracketCloses tpCollectives rest

/-- An AllGather and a ReduceScatter of `dpComm` around collectives of `tpComm`. -/
def hasBracket : List PairEvent → Bool
  | [] => false
  | event :: rest =>
    event.ofDp && event.operation = .allGather && bracketCloses 0 rest || hasBracket rest

/-- Two of the last eight collectives before a reduction of `dpComm` are of `tpComm`. `before` is
what comes before in the iteration, the last one first. -/
def hasTail (before : List PairEvent) : List PairEvent → Bool
  | [] => false
  | event :: rest =>
    event.ofDp && (event.operation = .reduceScatter || event.operation = .allReduce) &&
        2 ≤ (((before.filter fun previous => previous.operation.isCollective).take 8).countP
          fun previous => previous.ofTp) ||
      hasTail (event :: before) rest

def orderRelationSupport [Doubles] (dpComm tpComm : ℕ) (events : List TraceEvent)
    (iterations : List IterationRange) : ℚ :=
  if iterations = [] then 0
  else
    share (iterations.countP fun range =>
      let pair := pairEvents dpComm tpComm (rangeEvents events range)
      hasBracket pair || hasTail [] pair) iterations.length

/-! ## Inside a pipeline -/

/-- An event as a candidate sees it beside the pipeline communicators. -/
structure InteriorEvent where
  operation : NcclFunc
  ofPp : Bool
  ofCandidate : Bool

def interiorEvents (candidateComm : ℕ) (ppComms : List ℕ) (events : List TraceEvent) :
    List InteriorEvent :=
  events.map fun event =>
    ⟨event.operation, event.communicatorId ∈ ppComms, event.communicatorId = candidateComm⟩

/-- Two collectives of the candidate between two calls of the pipeline. The count starts at the
first boundary. -/
def hasBurst (candidateCollectives : Option ℕ) : List InteriorEvent → Bool
  | [] => false
  | event :: rest =>
    if event.ofPp && event.operation.isP2p then
      (candidateCollectives.any fun count => 2 ≤ count) || hasBurst (some 0) rest
    else if event.ofCandidate && event.operation.isCollective then
      hasBurst (candidateCollectives.map (· + 1)) rest
    else hasBurst candidateCollectives rest

def ppInteriorSupport [Doubles] (candidateComm : ℕ) (ppComms : List ℕ) (events : List TraceEvent)
    (iterations : List IterationRange) : ℚ :=
  if ppComms = [] ∨ iterations = [] then 0
  else
    share (iterations.countP fun range =>
      hasBurst none (interiorEvents candidateComm ppComms (rangeEvents events range)))
      iterations.length

end Coccl
