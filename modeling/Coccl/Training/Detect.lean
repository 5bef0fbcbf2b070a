import Coccl.Foundations.RollingHash
import Coccl.Training.Trace

/-!
# Detection of iterations

`cocclTrainingDetectIterations` looks for a period with which the end of a trace repeats: first by
rolling hashes of blocks, and only if that finds nothing by events, of which nine in ten have to
agree. Both prefer the period whose boundaries have the longest gaps. Scores and shares are rational
numbers here.
-/

namespace Coccl

def minimumCycleEvents : ℕ := 2

section

variable (events : List TraceEvent) (iterations : ℕ)

def eventAt (i : ℕ) : TraceEvent := events.getD i default

/-- The first event of the last `iterations` blocks. -/
def periodStart (period : ℕ) : ℕ := events.length - iterations * period

/-! ## Gaps -/

/-- The time between an event and the one before it, where it did not run backwards. -/
def gapBefore (i : ℕ) : Option ℕ :=
  let now := (eventAt events i).timestampNs
  let before := (eventAt events (i - 1)).timestampNs
  if before ≤ now then some (now - before) else none

def boundaryGapScore (start period : ℕ) : ℚ :=
  if events.length < 2 ∨ period = 0 then 1
  else
    let normalGap := median ((List.range' 1 (events.length - 1)).filterMap (gapBefore events))
    let boundaries := ((List.range' 1 (iterations - 1)).map fun iteration =>
      start + iteration * period).filter (· < events.length)
    let boundaryGaps := boundaries.filterMap (gapBefore events)
    if boundaryGaps = [] then 1
    else median boundaryGaps / (if normalGap = 0 then 1 else normalGap : ℕ)

/-! ## The two passes -/

/-- The best period so far; none is `0`. -/
structure CandidatePeriod where
  period : ℕ
  start : ℕ
  gapScore : ℚ

def noPeriod : CandidatePeriod := ⟨0, 0, -1⟩

/-- A longer gap, or a longer period at the same gap. -/
def CandidatePeriod.better (best candidate : CandidatePeriod) : Bool :=
  best.gapScore + 1 / 1000000000 < candidate.gapScore ||
    |candidate.gapScore - best.gapScore| ≤ 1 / 1000000000 && best.period < candidate.period

def candidatePeriod (period : ℕ) : CandidatePeriod :=
  let start := periodStart events iterations period
  ⟨period, start, boundaryGapScore events iterations start period⟩

/-- One round of a pass's loop. -/
def considerPeriod (accept : ℕ → Bool) (best : CandidatePeriod) (period : ℕ) : CandidatePeriod :=
  if !accept period then best
  else if best.better (candidatePeriod events iterations period) then
    candidatePeriod events iterations period
  else best

/-- The periods from the shortest to the longest of which there is room for all iterations. -/
def candidatePeriods : List ℕ :=
  List.range' minimumCycleEvents (events.length / iterations + 1 - minimumCycleEvents)

def searchPeriods (accept : ℕ → Bool) : CandidatePeriod :=
  (candidatePeriods events iterations).foldl (considerPeriod events iterations accept) noPeriod

/-! ## Blocks by their hashes -/

def hashBase : BitVec 64 := 0x9e3779b185ebca87#64

/-- `prefixes`. -/
def prefixHash (i : ℕ) : BitVec 64 := RollingHash.hash hashBase ((events.take i).map canonicalToken)

def blockHash (start length : ℕ) : BitVec 64 :=
  prefixHash events (start + length) - prefixHash events start * hashBase ^ length

def candidateHasWork (start stop : ℕ) : Bool :=
  (List.range' start (stop - start)).any fun i => (eventAt events i).operation.isObservedOperation

/-- What the first pass takes for an exact repetition. -/
def exactPeriod (period : ℕ) : Bool :=
  let start := periodStart events iterations period
  candidateHasWork events start (start + period) &&
    (List.range' 1 (iterations - 1)).all fun iteration =>
      blockHash events (start + iteration * period) period = blockHash events start period

/-! ## Blocks by their events -/

/-- The iterations and offsets at which a later block has the event of the first one. -/
def sameEvents (start period : ℕ) (offsets : List ℕ) : ℕ :=
  ((List.range' 1 (iterations - 1)).map fun iteration => offsets.countP fun offset =>
    sameCanonicalEvent (eventAt events (start + offset))
      (eventAt events (start + iteration * period + offset))).sum

def candidateSimilarity (start period : ℕ) : ℚ :=
  let comparisons := (iterations - 1) * period
  if comparisons = 0 then 0
  else sameEvents events iterations start period (List.range period) / comparisons

def boundariesMatch (start period : ℕ) : Bool :=
  (List.range' 1 (iterations - 1)).all fun iteration =>
    let current := start + iteration * period
    sameCanonicalEvent (eventAt events start) (eventAt events current) &&
      sameCanonicalEvent (eventAt events (start + period - 1))
        (eventAt events (current + period - 1))

def sampleOffsets (period : ℕ) : List ℕ :=
  let sampleCount := min 16 period
  (List.range sampleCount).map fun sample => sample * period / sampleCount

/-- What the second pass takes. -/
def tolerantPeriod (period : ℕ) : Bool :=
  let start := periodStart events iterations period
  let sampleComparisons := (iterations - 1) * (sampleOffsets period).length
  boundariesMatch events iterations start period &&
    sampleComparisons ≠ 0 &&
    (85 / 100 : ℚ) ≤
      sameEvents events iterations start period (sampleOffsets period) / sampleComparisons &&
    (9 / 10 : ℚ) ≤ candidateSimilarity events iterations start period

/-- The period both passes together settle on. -/
def bestPeriod : CandidatePeriod :=
  let best := searchPeriods events iterations (exactPeriod events iterations)
  if best.period = 0 then searchPeriods events iterations (tolerantPeriod events iterations)
  else best

end

/-- `cocclTrainingDetectIterations`; `none` is its `false`. -/
def cocclTrainingDetectIterations (events : List TraceEvent) (targetIterations : ℤ) :
    Option (List IterationRange) :=
  if targetIterations < 2 ∨ events.length < targetIterations.toNat * minimumCycleEvents then none
  else
    let best := bestPeriod events targetIterations.toNat
    if best.period = 0 ∨ best.gapScore < 2 then none
    else some ((List.range targetIterations.toNat).map fun iteration =>
      ⟨best.start + iteration * best.period, best.start + iteration * best.period + best.period⟩)

end Coccl
