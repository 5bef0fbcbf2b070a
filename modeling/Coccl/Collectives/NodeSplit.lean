import Coccl.Collectives.Hierarchy
import Coccl.Tuning.Selector

/-!
# Intra communicators and nodes

The hierarchical algorithms split a communicator by `rank / localRanks` and `rank % localRanks`. On
nodes of one size the first split gives the nodes exactly when every node holds consecutive ranks
(`Placement.Consecutive`).
-/

namespace Coccl

open Finset Placement

namespace Placement

variable (p : Placement)

/-- The intra communicators are the nodes, and every inter communicator has one rank of each. -/
structure NodeSplit : Prop where
  intra : ∀ r s : Fin p.nRanks, s.val ∈ p.split p.intraColor r ↔ p.node s = p.node r
  inter : ∀ r s : Fin p.nRanks,
    ∃! m : Fin p.nRanks, m.val ∈ p.split p.interColor r ∧ p.node m = p.node s

/-- Between two ranks of a node there are only ranks of that node. -/
def Consecutive : Prop :=
  ∀ r s t : Fin p.nRanks, r ≤ s → s ≤ t → p.node r = p.node t → p.node s = p.node r

variable {p}

theorem mem_split_fin {color : Fin p.nRanks → ℕ} {r s : Fin p.nRanks} :
    s.val ∈ p.split color r ↔ color s = color r := by
  rw [p.mem_split]
  exact ⟨fun ⟨_, h⟩ => h, fun h => ⟨s.isLt, h⟩⟩

/-! ## Nodes as blocks -/

variable (huniform : ∀ r s, p.localRanks r = p.localRanks s)

include huniform in
/-- The ranks below the first rank of a node are those of whole nodes. -/
theorem dvd_first (h : p.Consecutive) {first : Fin p.nRanks}
    (hfirst : ∀ s, p.node s = p.node first → first ≤ s) : p.localRanks first ∣ first.val := by
  have hcard : first.val = #(univ.filter (· < first)) := by
    rw [filter_gt_eq_Iio, Fin.card_Iio]
  rw [hcard, card_eq_sum_card_image p.node]
  refine dvd_sum fun node hnode => ?_
  obtain ⟨r, hr, rfl⟩ := mem_image.mp hnode
  have hlt : r < first := (mem_filter.mp hr).2
  -- a node with a rank below has all of them below
  have hbelow : ((univ.filter (· < first)).filter fun s => p.node s = p.node r) =
      univ.filter fun s => p.node s = p.node r := by
    ext s
    simp only [mem_filter, mem_univ, true_and, and_iff_right_iff_imp]
    intro hs
    by_contra hge
    have hnode := h r first s hlt.le (not_lt.mp hge) hs.symm
    exact absurd (hfirst r hnode.symm) (not_le.mpr hlt)
  rw [hbelow, huniform first r]
  exact dvd_refl _

theorem exists_first (r : Fin p.nRanks) :
    ∃ first, p.node first = p.node r ∧ ∀ s, p.node s = p.node r → first ≤ s := by
  obtain ⟨first, hmem, hmin⟩ := exists_min_image (univ.filter fun s => p.node s = p.node r) id
    ⟨r, by simp⟩
  exact ⟨first, (mem_filter.mp hmem).2, fun s hs => hmin s (by simp [hs])⟩

theorem lt_first_add (h : p.Consecutive) {r first : Fin p.nRanks}
    (hnode : p.node first = p.node r) (hle : first ≤ r) :
    r.val < first.val + p.localRanks r := by
  have hsub : Icc first r ⊆ univ.filter fun s => p.node s = p.node r := by
    intro s hs
    obtain ⟨hfirst, hlast⟩ := mem_Icc.mp hs
    exact mem_filter.mpr ⟨mem_univ s, (h first s r hfirst hlast hnode).trans hnode⟩
  have hcard := card_le_card hsub
  rw [Fin.card_Icc] at hcard
  have hle' : first.val ≤ r.val := hle
  unfold localRanks
  omega

include huniform

theorem intraColor_mul (h : p.Consecutive) {r first : Fin p.nRanks}
    (hnode : p.node first = p.node r) (hfirst : ∀ s, p.node s = p.node r → first ≤ s) :
    p.intraColor r * p.localRanks r = first.val := by
  obtain ⟨k, hk⟩ := @dvd_first p huniform h first (by rwa [hnode])
  rw [huniform first r] at hk
  have hlt := lt_first_add h hnode (hfirst r rfl)
  have hle : first.val ≤ r.val := hfirst r rfl
  have hcolor : p.intraColor r = k :=
    Nat.div_eq_of_lt_le (by rw [mul_comm]; omega) (by rw [Nat.succ_mul, mul_comm]; omega)
  rw [hcolor, hk, mul_comm]

/-- **Blocks.** On nodes of one size the intra communicators are the nodes exactly when every node
holds consecutive ranks. -/
theorem intra_iff_consecutive :
    (∀ r s, p.intraColor s = p.intraColor r ↔ p.node s = p.node r) ↔ p.Consecutive := by
  constructor
  · intro h r s t hrs hst hnode
    have hcolor := (h r t).mpr hnode.symm
    refine (h r s).mp (le_antisymm ?_ ?_)
    · rw [← hcolor, intraColor, intraColor, huniform s t]
      exact Nat.div_le_div_right hst
    · rw [intraColor, intraColor, huniform s r]
      exact Nat.div_le_div_right hrs
  · intro h r s
    obtain ⟨first, hnode, hfirst⟩ := exists_first r
    constructor
    · intro hcolor
      obtain ⟨first', hnode', hfirst'⟩ := exists_first s
      have hmul := intraColor_mul huniform h hnode hfirst
      have hmul' := intraColor_mul huniform h hnode' hfirst'
      rw [hcolor, huniform s r, hmul] at hmul'
      rw [← hnode, ← hnode', Fin.ext hmul']
    · intro hsame
      have hmul := intraColor_mul huniform h hnode hfirst
      have hmul' := intraColor_mul huniform h (r := s) (hnode.trans hsame.symm) (by rwa [hsame])
      rw [← hmul, huniform s r] at hmul'
      exact Nat.eq_of_mul_eq_mul_right (p.localRanks_pos r) hmul'

/-- The intra communicators decide: with them, the grid of the two splits gives the other half. -/
theorem nodeSplit_iff : p.NodeSplit ↔ p.Consecutive := by
  rw [← intra_iff_consecutive huniform]
  constructor
  · intro h r s
    rw [← h.intra r s, mem_split_fin]
  · intro h
    refine ⟨fun r s => mem_split_fin.trans (h r s), fun r s => ?_⟩
    obtain ⟨m, ⟨hintra, hinter⟩, huniq⟩ := (grid_div_mod (p.localRanks_pos r)
      (p.dvd_of_uniform huniform r) fun s => huniform s r) s r
    refine ⟨m, ⟨mem_split_fin.mpr hinter, (h s m).mp hintra⟩, ?_⟩
    rintro k ⟨hk, hnode⟩
    exact huniq k ⟨(h s k).mpr hnode, mem_split_fin.mp hk⟩

end Placement

/-! ## Calls that run a hierarchical algorithm -/

/-- How a call enters: through the public NCCL interface, or asking for compression by name. -/
inductive CallEntry where
  | implicit
  | explicit (algorithm : AlgorithmKind)

def CallEntry.route {κ : Type} (config : RouteConfig κ)
    (select : RoutedCall κ → Result AlgorithmKind) (info : Info) : CallEntry → Result (Route κ)
  | .implicit => .ok (cocclEnqueueCheck config select false info)
  | .explicit algorithm => cocclEnqueueExplicitCall config select info algorithm

/-- A reduction as one rank calls it. -/
structure ReductionCall where
  entry : CallEntry
  operation : Operation
  sendbuff : ℕ
  recvbuff : ℕ
  count : ℕ
  datatype : DataType
  op : RedOp
  stream : ℕ

namespace ReductionCall

variable {κ : Type} (config : RouteConfig κ) (tuning : AutotuneConfig)
  (score : RoutedCall κ → AlgorithmKind → Option ℚ) (p : Placement) (rank : Fin p.nRanks)
  (call : ReductionCall)

def info : Info :=
  collectiveInfo call.sendbuff call.recvbuff call.count call.datatype call.op call.operation
    (p.comm rank) call.stream

/-- The rank executes the call with an algorithm that splits the communicator. -/
def RunsHierarchical : Prop :=
  ∃ prepared submission,
    call.entry.route config (cocclSelectAlgorithm tuning score) (call.info p rank) =
      .ok (.execute prepared) ∧
    (prepared.algorithm = .reduceScatterTwoShot ∨ prepared.algorithm = .allReduceTripleShot) ∧
    cocclExecutePrimitive (p.hierarchy rank) (prepared.prepared call.operation) = .ok submission

end ReductionCall

/-- An explicit two-shot ReduceScatter of eight floats for each rank. -/
def twoShotCall : ReductionCall where
  entry := .explicit .reduceScatterTwoShot
  operation := .reduceScatter
  sendbuff := 4096
  recvbuff := 8192
  count := 8
  datatype := .float32
  op := .sum
  stream := 0

/-- No tuning: the selector is not asked. -/
def untuned : AutotuneConfig := ⟨false, .auto, .auto⟩

/-- On nodes of one size and with a compressor in every scope, the call is run by every rank. -/
theorem twoShotCall_runs {p : Placement} (huniform : ∀ r s, p.localRanks r = p.localRanks s)
    (hranks : 1 < p.nRanks) (rank : Fin p.nRanks) :
    twoShotCall.RunsHierarchical onePolicy untuned (fun _ _ => none) p rank := by
  have hsupported : callSupported (twoShotCall.info p rank) = true := by
    have hnot : ¬ p.nRanks ≤ 1 := by omega
    simp [callSupported, shapeSupported, ReductionCall.info, twoShotCall, collectiveInfo,
      Placement.comm, cocclGetOperationDescriptor, hnot]
  have haccepted : ExplicitCallAccepted onePolicy (twoShotCall.info p rank) .reduceScatterTwoShot :=
    ⟨rfl, hsupported, fun h => Bool.noConfusion h, .intra, by simp [algorithmScopes], rfl⟩
  have hcompressible : ExplicitCallCompressible onePolicy (twoShotCall.info p rank)
      .reduceScatterTwoShot := by
    intro scope _ compressor _
    rfl
  have hroute : twoShotCall.entry.route onePolicy (cocclSelectAlgorithm untuned fun _ _ => none)
      (twoShotCall.info p rank) =
      .ok (.execute (explicitCall onePolicy (twoShotCall.info p rank) .reduceScatterTwoShot)) := by
    classical
    refine (cocclEnqueueExplicitCall_eq (by decide)).trans ?_
    rw [if_neg (not_not.mpr haccepted), if_neg (not_not.mpr hcompressible)]
  have hmod : ¬ p.nRanks % p.localRanks rank ≠ 0 :=
    not_not.mpr (Nat.mod_eq_zero_of_dvd (p.dvd_of_uniform huniform rank))
  exact ⟨_, _, hroute, .inl rfl, if_neg hmod⟩

/-- **Intra communicators inside nodes.** On nodes of one size, the communicators of every
hierarchical run are split along the nodes exactly when every node holds consecutive ranks. -/
theorem hierarchicalRuns_nodeSplit_iff {p : Placement}
    (huniform : ∀ r s, p.localRanks r = p.localRanks s) :
    (∀ (κ : Type) (config : RouteConfig κ) (tuning : AutotuneConfig)
      (score : RoutedCall κ → AlgorithmKind → Option ℚ) (call : ReductionCall)
      (rank : Fin p.nRanks), call.RunsHierarchical config tuning score p rank → p.NodeSplit) ↔
      p.Consecutive := by
  rw [← nodeSplit_iff huniform]
  constructor
  · intro h
    rcases lt_or_ge 1 p.nRanks with hranks | hranks
    · exact h Unit onePolicy untuned (fun _ _ => none) twoShotCall ⟨0, p.nRanks_pos⟩
        (twoShotCall_runs huniform hranks _)
    · -- one rank alone
      refine (nodeSplit_iff huniform).mpr fun r s _ _ _ _ => ?_
      rw [Fin.ext (show s.val = r.val by omega)]
  · intro h _ _ _ _ _ _ _
    exact h

/-! ## Four ranks on two nodes -/

def blockwise : Placement where
  nRanks := 4
  node := fun rank => rank.val / 2
  nRanks_pos := Nat.succ_pos 3

def roundRobin : Placement where
  nRanks := 4
  node := fun rank => rank.val % 2
  nRanks_pos := Nat.succ_pos 3

/-- Ranks dealt out block by block. -/
theorem blockwise_nodeSplit :
    (∀ r s, blockwise.localRanks r = blockwise.localRanks s) ∧ blockwise.Consecutive ∧
      blockwise.NodeSplit := by
  have huniform : ∀ r s, blockwise.localRanks r = blockwise.localRanks s := by decide
  have hconsecutive : blockwise.Consecutive := by
    unfold Consecutive
    decide
  exact ⟨huniform, hconsecutive, (hierarchicalRuns_nodeSplit_iff huniform).mpr hconsecutive Unit
    onePolicy untuned (fun _ _ => none) twoShotCall ⟨0, by decide⟩
    (twoShotCall_runs huniform (by decide) _)⟩

/-- Ranks dealt out in turn: ranks 0 and 1 get one intra communicator and are on two nodes. -/
theorem roundRobin_not_nodeSplit :
    (∀ r s, roundRobin.localRanks r = roundRobin.localRanks s) ∧
      (∀ rank, twoShotCall.RunsHierarchical onePolicy untuned (fun _ _ => none) roundRobin rank) ∧
      ¬ roundRobin.NodeSplit := by
  have huniform : ∀ r s, roundRobin.localRanks r = roundRobin.localRanks s := by decide
  refine ⟨huniform, twoShotCall_runs huniform (by decide), fun h => ?_⟩
  have hnode := (h.intra ⟨0, by decide⟩ ⟨1, by decide⟩).mp
    (mem_split_fin.mpr (by decide))
  exact absurd hnode (by decide)

end Coccl
