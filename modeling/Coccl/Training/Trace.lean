import Coccl.Runtime.Route

/-!
# Traces of observed calls

What the training classifier reads: communicators, the calls observed on them, and the iterations
found in the calls. A call's token mixes the three fields that make two calls the same.
-/

namespace Coccl

/-- `ncclFunc_t`. -/
inductive NcclFunc where
  | broadcast
  | reduce
  | allGather
  | reduceScatter
  | allReduce
  | sendRecv
  | send
  | recv
  | numFuncs
  deriving DecidableEq, Repr, Inhabited

namespace NcclFunc

/-- The value of the enumerator. -/
def value : NcclFunc → ℕ
  | broadcast => 0
  | reduce => 1
  | allGather => 2
  | reduceScatter => 3
  | allReduce => 4
  | sendRecv => 5
  | send => 6
  | recv => 7
  | numFuncs => 8

def isCollective (operation : NcclFunc) : Bool :=
  operation = allGather || operation = reduceScatter || operation = allReduce

def isP2p (operation : NcclFunc) : Bool := operation = send || operation = recv

def isObservedOperation (operation : NcclFunc) : Bool := operation.isCollective || operation.isP2p

theorem not_collective_of_p2p {operation : NcclFunc} (h : operation.isP2p = true) :
    operation.isCollective = false := by
  cases operation <;> first | rfl | cases h

end NcclFunc

/-! ## Communicators, events and iterations -/

/-- `cocclTrainingTraceComm`, as far as it is read. -/
structure TraceComm where
  communicatorId : ℕ
  nRanks : ℤ
  nNodes : ℤ
  deriving DecidableEq

/-- `cocclTrainingTraceEvent`, as far as it is read. -/
structure TraceEvent where
  communicatorId : ℕ
  operation : NcclFunc
  logicalBytes : ℕ
  peer : ℤ
  timestampNs : ℕ
  deriving DecidableEq, Inhabited

/-- `cocclTrainingIterationRange`: the events from `start` up to `stop`. -/
structure IterationRange where
  start : ℕ
  stop : ℕ
  deriving DecidableEq

inductive DataParallelStrategy where
  | ddp
  | sdp
  | fsdp
  deriving DecidableEq, Repr

structure TrainingConfig where
  observationIterations : ℤ
  dataParallelSize : ℤ
  tensorParallelSize : ℤ
  pipelineParallelSize : ℤ
  dataParallelStrategy : DataParallelStrategy
  sequenceParallel : Bool

/-- `cocclTrainingTopologyRole`. -/
def cocclTrainingTopologyRole (nRanks : ℤ) (operation : NcclFunc) (config : TrainingConfig) :
    TrainingRole :=
  if operation.isP2p then
    if 1 < config.pipelineParallelSize ∧ nRanks = config.pipelineParallelSize then
      .pipelineParallel
    else .unknown
  else if !operation.isCollective then .unknown
  else if decide (nRanks = config.dataParallelSize) = decide (nRanks = config.tensorParallelSize)
    then .unknown
  else if nRanks = config.dataParallelSize then .dataParallel
  else .tensorParallel

/-! ## Tokens -/

/-- `mixToken`. -/
def mixToken (value : BitVec 64) : BitVec 64 :=
  let value := value ^^^ value >>> 30
  let value := value * 0xbf58476d1ce4e5b9#64
  let value := value ^^^ value >>> 27
  let value := value * 0x94d049bb133111eb#64
  value ^^^ value >>> 31

def canonicalToken (event : TraceEvent) : BitVec 64 :=
  mixToken (BitVec.ofNat 64 event.communicatorId) ^^^
    mixToken (BitVec.ofNat 64 event.operation.value + 0x9e3779b9#64) ^^^
    mixToken (BitVec.ofNat 64 event.logicalBytes + 0x9e3779b97f4a7c15#64)

def sameCanonicalEvent (lhs rhs : TraceEvent) : Bool :=
  lhs.communicatorId = rhs.communicatorId && lhs.operation = rhs.operation &&
    lhs.logicalBytes = rhs.logicalBytes

theorem sameCanonicalEvent_iff {lhs rhs : TraceEvent} : sameCanonicalEvent lhs rhs = true ↔
    lhs.communicatorId = rhs.communicatorId ∧ lhs.operation = rhs.operation ∧
      lhs.logicalBytes = rhs.logicalBytes := by
  simp [sameCanonicalEvent, and_assoc]

theorem canonicalToken_congr {lhs rhs : TraceEvent} (h : sameCanonicalEvent lhs rhs = true) :
    canonicalToken lhs = canonicalToken rhs := by
  obtain ⟨hid, hoperation, hbytes⟩ := sameCanonicalEvent_iff.mp h
  rw [canonicalToken, canonicalToken, hid, hoperation, hbytes]

/-! ## Medians -/

/-- `median` of unsigned integers: the mean of the two middle ones is taken modulo `2 ^ 64`. -/
def median (values : List ℕ) : ℕ :=
  let sorted := values.mergeSort
  let middle := values.length / 2
  if values.length % 2 = 0 ∧ values ≠ [] then
    sizeAdd (sorted.getD (middle - 1) 0) (sorted.getD middle 0) / 2
  else sorted.getD middle 0

theorem median_singleton (value : ℕ) : median [value] = value := by
  simp [median]

/-- The beginning of a sorted list is its zeros. -/
theorem getD_eq_zero_of_lt_count {values : List ℕ} (hsorted : values.Pairwise (· ≤ ·)) {i : ℕ}
    (h : i < values.count 0) : values.getD i 0 = 0 := by
  induction values generalizing i with
  | nil => simp
  | cons value values ih =>
    obtain ⟨hle, htail⟩ := List.pairwise_cons.mp hsorted
    rcases eq_zero_or_pos value with rfl | hpos
    · cases i with
      | zero => rfl
      | succ i =>
        rw [List.count_cons_self] at h
        exact ih htail (by omega)
    · rw [List.count_cons_of_ne (by omega), List.count_eq_zero.mpr] at h
      · omega
      · intro hmem
        have := hle 0 hmem
        omega

/-- The median of a list that has more zeros than other values. -/
theorem median_eq_zero {values : List ℕ} (h : values.length < 2 * values.count 0) :
    median values = 0 := by
  have hcount : (values.mergeSort).count 0 = values.count 0 :=
    (List.mergeSort_perm values _).count_eq 0
  have hsorted : (values.mergeSort).Pairwise (· ≤ ·) := List.pairwise_mergeSort' (· ≤ ·) values
  have hzero : ∀ i, i ≤ values.length / 2 → values.mergeSort.getD i 0 = 0 := fun i hi =>
    getD_eq_zero_of_lt_count hsorted (by omega)
  unfold median
  simp only
  split
  · rw [hzero _ (by omega), hzero _ le_rfl]
    rfl
  · exact hzero _ le_rfl

end Coccl
