import Coccl.Foundations.Enumerations
import Coccl.Runtime.Route

/-!
# Selection of an algorithm

`cocclSelectAlgorithm` filters a table of candidates by what the topology and the count allow and by
what the compressors support. A configured algorithm is taken, or its fallback; else the candidate
with the smallest predicted cost if every cost is known, or the one the heuristic prefers.
-/

namespace Coccl

inductive ReduceScatterAlgorithmPolicy where
  | auto
  | oneShot
  | twoShot
  deriving DecidableEq, Repr

inductive AllReduceAlgorithmPolicy where
  | auto
  | oneShot
  | twoShot
  | tripleShot
  deriving DecidableEq, Repr

structure AutotuneConfig where
  enabled : Bool
  reduceScatterAlgorithm : ReduceScatterAlgorithmPolicy
  allReduceAlgorithm : AllReduceAlgorithmPolicy

/-! ## Candidates -/

structure AutotuneCandidateSpec where
  operation : Operation
  algorithm : AlgorithmKind
  requiresHierarchical : Bool
  requiresDivisibleByRanks : Bool
  unavailableFallback : AlgorithmKind
  heuristicPriority : ℤ
  deriving DecidableEq

/-- `kCocclAutotuneCandidateSpecs`: the order of the table breaks ties. -/
def autotuneCandidateSpecs : List AutotuneCandidateSpec :=
  [⟨.reduceScatter, .reduceScatterOneShot, false, false, .reduceScatterOneShot, 1⟩,
    ⟨.reduceScatter, .reduceScatterTwoShot, true, false, .reduceScatterOneShot, 0⟩,
    ⟨.allReduce, .allReduceOneShot, false, true, .allReduceOneShot, 1⟩,
    ⟨.allReduce, .allReduceTwoShot, false, true, .allReduceTwoShot, 0⟩,
    ⟨.allReduce, .allReduceTripleShot, true, true, .allReduceTwoShot, 2⟩]

structure AutotuneEligibility where
  hierarchical : Bool
  divisibleByRanks : Bool

/-- A candidate with its score; a score that is not finite is `none`. -/
structure AutotuneCandidate where
  spec : AutotuneCandidateSpec
  scoreUs : Option ℚ

def cocclAutotuneFindCandidateSpec (operation : CallOperation) (algorithm : AlgorithmKind) :
    Option AutotuneCandidateSpec :=
  autotuneCandidateSpecs.find? fun spec =>
    .collective spec.operation = operation ∧ spec.algorithm = algorithm

def cocclAutotuneFindCandidate (candidates : List AutotuneCandidate) (algorithm : AlgorithmKind) :
    Option AutotuneCandidate :=
  candidates.find? fun candidate => candidate.spec.algorithm = algorithm

def cocclAutotuneBuildCandidates (operation : CallOperation) (eligibility : AutotuneEligibility) :
    List AutotuneCandidateSpec :=
  autotuneCandidateSpecs.filter fun spec =>
    .collective spec.operation = operation ∧
      (spec.requiresHierarchical → eligibility.hierarchical) ∧
      (spec.requiresDivisibleByRanks → eligibility.divisibleByRanks)

/-- The first candidate of the smallest priority. -/
def cocclAutotuneHeuristicCandidate : List AutotuneCandidate → Option AutotuneCandidate
  | [] => none
  | first :: rest => some (rest.foldl (fun selected candidate =>
      if candidate.spec.heuristicPriority < selected.spec.heuristicPriority then candidate
      else selected) first)

/-- The first candidate of the smallest score. -/
def cheapestCandidate : List AutotuneCandidate → Option AutotuneCandidate
  | [] => none
  | first :: rest => some (rest.foldl (fun selected candidate =>
      if candidate.scoreUs.getD 0 < selected.scoreUs.getD 0 then candidate else selected) first)

def cocclAutotuneChooseCandidate (operation : CallOperation) (candidates : List AutotuneCandidate)
    (requested : AlgorithmKind) (autotuneEnabled : Bool) : Option AutotuneCandidate :=
  if requested ≠ .none then
    match cocclAutotuneFindCandidate candidates requested with
    | some selected => some selected
    | none =>
      match cocclAutotuneFindCandidateSpec operation requested with
      | none => none
      | some spec => cocclAutotuneFindCandidate candidates spec.unavailableFallback
  else if autotuneEnabled ∧ candidates.all (fun candidate => candidate.scoreUs.isSome) then
    cheapestCandidate candidates
  else cocclAutotuneHeuristicCandidate candidates

/-! ## The selector -/

/-- The nodes of a communicator, and the ranks on one of them. -/
def PlacedComm.nodes (comm : PlacedComm) : List ℕ :=
  ((List.range comm.nRanks).map comm.rankToNode).dedup

def PlacedComm.nodeLocalRanks (comm : PlacedComm) (node : ℕ) : ℕ :=
  (List.range comm.nRanks).countP fun rank => comm.rankToNode rank = node

def uniformNodeRanks (comm : PlacedComm) : Bool :=
  comm.nodes.all (fun node => comm.nodeLocalRanks node = comm.localRanks) &&
    comm.nRanks = comm.nNodes * comm.localRanks

def configuredAlgorithm (config : AutotuneConfig) : CallOperation → AlgorithmKind
  | .collective .reduceScatter =>
    match config.reduceScatterAlgorithm with
    | .auto => .none
    | .oneShot => .reduceScatterOneShot
    | .twoShot => .reduceScatterTwoShot
  | .collective .allReduce =>
    match config.allReduceAlgorithm with
    | .auto => .none
    | .oneShot => .allReduceOneShot
    | .twoShot => .allReduceTwoShot
    | .tripleShot => .allReduceTripleShot
  | _ => .none

section

variable {κ : Type} (config : AutotuneConfig) (score : RoutedCall κ → AlgorithmKind → Option ℚ)

/-- The candidates a call is left with, scored where the scores are read. -/
def usableCandidates (prepared : RoutedCall κ) : List AutotuneCandidate :=
  let comm := prepared.info.comm
  let eligibility : AutotuneEligibility :=
    ⟨1 < comm.nNodes && 1 < comm.localRanks && uniformNodeRanks comm,
      prepared.info.count % comm.nRanks = 0⟩
  let scoreCandidates :=
    configuredAlgorithm config prepared.info.operation = .none ∧ config.enabled = true
  ((cocclAutotuneBuildCandidates prepared.info.operation eligibility).filter fun spec =>
    cocclPreparedAlgorithmSupported prepared spec.algorithm).map fun spec =>
      ⟨spec, if scoreCandidates then score prepared spec.algorithm else none⟩

/-- `cocclSelectAlgorithm`, over the costs `cocclAutotuneEvaluateCost` gives. -/
def cocclSelectAlgorithm (prepared : RoutedCall κ) : Result AlgorithmKind :=
  let candidates := usableCandidates config score prepared
  if candidates.isEmpty then .error .invalidArgument
  else
    match cocclAutotuneChooseCandidate prepared.info.operation candidates
        (configuredAlgorithm config prepared.info.operation) config.enabled with
    | none => .error .invalidArgument
    | some candidate => .ok candidate.spec.algorithm

end

/-! ## What is selected -/

section

open List Enumerations

variable (candidates : List AutotuneCandidate)

theorem cheapestCandidate_eq :
    cheapestCandidate candidates = argmin (fun c => c.scoreUs.getD 0) candidates := by
  cases candidates with
  | nil => rfl
  | cons first rest => exact (argmin_cons_foldl _ _ _).symm

theorem cocclAutotuneHeuristicCandidate_eq : cocclAutotuneHeuristicCandidate candidates =
    argmin (fun c => c.spec.heuristicPriority) candidates := by
  cases candidates with
  | nil => rfl
  | cons first rest => exact (argmin_cons_foldl _ _ _).symm

theorem cocclAutotuneFindCandidate_spec (algorithm : AlgorithmKind) :
    match cocclAutotuneFindCandidate candidates algorithm with
    | some candidate => candidate ∈ candidates ∧ candidate.spec.algorithm = algorithm
    | none => ∀ candidate ∈ candidates, candidate.spec.algorithm ≠ algorithm := by
  cases h : cocclAutotuneFindCandidate candidates algorithm with
  | none => simpa using find?_eq_none.mp h
  | some candidate => exact ⟨mem_of_find?_eq_some h, by simpa using find?_some h⟩

/-- A requested algorithm is taken, or its fallback where it is no candidate; without a request
the first of the cheapest, or of those the heuristic prefers. -/
@[mk_iff]
structure Preferred (requested : AlgorithmKind) (enabled : Bool) (candidate : AutotuneCandidate) :
    Prop where
  mem : candidate ∈ candidates
  forced : requested ≠ .none → candidate.spec.algorithm = requested ∨
    (∀ other ∈ candidates, other.spec.algorithm ≠ requested) ∧ ∃ spec ∈ autotuneCandidateSpecs,
      spec.algorithm = requested ∧ candidate.spec.algorithm = spec.unavailableFallback
  least : requested = .none → candidate ∈
    if enabled ∧ ∀ other ∈ candidates, other.scoreUs.isSome then
      argmin (fun c => c.scoreUs.getD 0) candidates
    else argmin (fun c => c.spec.heuristicPriority) candidates

variable {κ : Type} (config : AutotuneConfig) (score : RoutedCall κ → AlgorithmKind → Option ℚ)
  (operation : CallOperation)

/-- A configured algorithm is one of its operation, and in the table once. -/
theorem findCandidateSpec_configured (spec : AutotuneCandidateSpec) :
    cocclAutotuneFindCandidateSpec operation (configuredAlgorithm config operation) = some spec ↔
      spec ∈ autotuneCandidateSpecs ∧ spec.algorithm = configuredAlgorithm config operation := by
  obtain ⟨enabled, reduceScatter, allReduce⟩ := config
  rcases operation with operation | _ <;> try cases operation
  all_goals
    cases reduceScatter <;> cases allReduce <;>
      simp [cocclAutotuneFindCandidateSpec, autotuneCandidateSpecs, configuredAlgorithm] <;> grind

theorem cocclAutotuneChooseCandidate_preferred (algorithm : AlgorithmKind) :
    (∃ candidate, cocclAutotuneChooseCandidate operation candidates
        (configuredAlgorithm config operation) config.enabled = some candidate ∧
        candidate.spec.algorithm = algorithm) ↔
      ∃ candidate, candidate.spec.algorithm = algorithm ∧
        Preferred candidates (configuredAlgorithm config operation) config.enabled candidate := by
  have hspec := findCandidateSpec_configured config operation
  generalize configuredAlgorithm config operation = requested at *
  have hfind := cocclAutotuneFindCandidate_spec candidates
  have hfirst := hfind requested
  by_cases hrequested : requested = .none
  · simp only [cocclAutotuneChooseCandidate, hrequested, ne_eq, not_true_eq_false, if_false,
      cheapestCandidate_eq, cocclAutotuneHeuristicCandidate_eq, all_eq_true]
    constructor
    · rintro ⟨candidate, h, rfl⟩
      refine ⟨candidate, rfl, ?_, fun hne => absurd rfl hne, fun _ => h⟩
      split_ifs at h <;> exact argmin_mem h
    · rintro ⟨candidate, rfl, h⟩
      exact ⟨candidate, h.least rfl, rfl⟩
  · rw [cocclAutotuneChooseCandidate, if_pos hrequested]
    split at hfirst
    · grind [preferred_iff]
    · cases hfound : cocclAutotuneFindCandidateSpec operation requested with
      | none => grind [preferred_iff]
      | some spec =>
        have := hfind spec.unavailableFallback
        grind [preferred_iff]

/-- **The selector takes the preferred algorithm**, and fails only if there is none. -/
theorem cocclSelectAlgorithm_iff (prepared : RoutedCall κ) (algorithm : AlgorithmKind) :
    cocclSelectAlgorithm config score prepared = .ok algorithm ↔
      ∃ candidate, candidate.spec.algorithm = algorithm ∧
        Preferred (usableCandidates config score prepared)
          (configuredAlgorithm config prepared.info.operation) config.enabled candidate := by
  rw [← cocclAutotuneChooseCandidate_preferred, cocclSelectAlgorithm]
  generalize usableCandidates config score prepared = candidates
  cases candidates with
  | nil =>
    grind [cocclAutotuneChooseCandidate, cocclAutotuneFindCandidate, cheapestCandidate,
      cocclAutotuneHeuristicCandidate]
  | cons => grind

theorem cocclSelectAlgorithm_supported {prepared : RoutedCall κ} {algorithm : AlgorithmKind}
    (h : cocclSelectAlgorithm config score prepared = .ok algorithm) :
    cocclPreparedAlgorithmSupported prepared algorithm = true := by
  have hchosen : ∃ candidate, cocclAutotuneChooseCandidate prepared.info.operation
      (usableCandidates config score prepared) (configuredAlgorithm config prepared.info.operation)
      config.enabled = some candidate ∧ candidate.spec.algorithm = algorithm := by
    rw [cocclSelectAlgorithm] at h
    grind
  obtain ⟨candidate, rfl, hpreferred⟩ := (cocclAutotuneChooseCandidate_preferred ..).mp hchosen
  obtain ⟨spec, hspec, rfl⟩ := mem_map.mp hpreferred.mem
  exact (mem_filter.mp hspec).2

/-- **What is compressed implicitly is compressed in the same way when asked for.** -/
theorem cocclEnqueueCheck_explicit (routing : RouteConfig κ) (callerGuardActive : Bool)
    (info : Info) :
    match cocclEnqueueCheck routing (cocclSelectAlgorithm config score) callerGuardActive info with
    | .native => True
    | .execute prepared =>
      cocclEnqueueExplicitCall routing (cocclSelectAlgorithm config score) info .none =
        .ok (.execute prepared) := by
  have hcompression : ∀ (prepared : RoutedCall κ) algorithm,
      cocclPreparedAlgorithmSupported prepared algorithm = true →
        cocclPreparedAlgorithmHasCompression prepared algorithm = true :=
    fun _ _ h => (Bool.and_eq_true_iff.mp h).1
  have hselect := @cocclSelectAlgorithm_supported κ config score
  simp only [cocclEnqueueCheck, cocclEnqueueExplicitCall]
  cases resolvePreparedCompressors routing (trainingRole routing info.comm.toComm) info with
  | error => grind
  | ok compressors =>
    simp only [bind, Except.bind, pure, Except.pure]
    cases hselected : cocclSelectAlgorithm config score (preparedCall routing info compressors) with
    | error | ok algorithm => grind [preparedCall]

end

end Coccl
