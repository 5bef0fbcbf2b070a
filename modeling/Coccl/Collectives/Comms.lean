import Coccl.Basic
import Coccl.Foundations.Blocks

/-!
# Communicators of a cluster

A cluster of `nNodes` nodes with `localRanks` ranks each, and the communicators of a hierarchical
collective: the owner's, and those `cocclCommGetHierarchicalComms` splits off by colour and key,
inside a node and across nodes.
-/

namespace Coccl

open Blocks List

/-- The ranks of one colour, ordered by their key. -/
def ncclCommSplit (nRanks : ℕ) (color key : ℕ → ℕ) (rank : ℕ) : List ℕ :=
  ((List.range nRanks).filter fun r => color r = color rank).mergeSort fun a b => key a ≤ key b

variable {rank : ℕ}

/-- With the rank as key a communicator lists its members in their order. -/
theorem ncclCommSplit_eq {nRanks : ℕ} {color : ℕ → ℕ} {members : List ℕ}
    (hsorted : members.Pairwise (· < ·))
    (hmem : ∀ r, r ∈ members ↔ r < nRanks ∧ color r = color rank) :
    ncclCommSplit nRanks color id rank = members := by
  have hfilter : ((List.range nRanks).filter fun r => color r = color rank) = members := by
    refine List.Perm.eq_of_pairwise' (r := (· < ·)) (pairwise_lt_range.filter _) hsorted ?_
    refine (perm_ext_iff_of_nodup (nodup_range.filter _) ?_).mpr fun r => ?_
    · exact hsorted.imp fun h => ne_of_lt h
    · rw [hmem, mem_filter, mem_range, decide_eq_true_eq]
  rw [ncclCommSplit, hfilter]
  exact mergeSort_of_pairwise (hsorted.imp fun h => by simpa using h.le)

/-- A cluster with the same number of ranks on every node. -/
structure Cluster where
  nNodes : ℕ
  localRanks : ℕ
  nNodes_pos : 0 < nNodes
  localRanks_pos : 0 < localRanks

/-- The communicators of a cluster. -/
inductive CommRole where
  | owner
  | intra
  | inter
  deriving DecidableEq, Repr

namespace Cluster

variable (cluster : Cluster)

def nRanks : ℕ := cluster.nNodes * cluster.localRanks

theorem nRanks_pos : 0 < cluster.nRanks := Nat.mul_pos cluster.nNodes_pos cluster.localRanks_pos

/-- The members of a rank's communicator, in the order of their ranks in it. The colours and keys
are those of `cocclCommGetHierarchicalComms`. -/
def members (rank : ℕ) : CommRole → List ℕ
  | .owner => List.range cluster.nRanks
  | .intra => ncclCommSplit cluster.nRanks (· / cluster.localRanks) id rank
  | .inter => ncclCommSplit cluster.nRanks (· % cluster.localRanks) id rank

theorem intra_members (h : rank < cluster.nRanks) :
    cluster.members rank .intra = (List.range cluster.localRanks).map
      fun i => rank / cluster.localRanks * cluster.localRanks + i := by
  have hpos := cluster.localRanks_pos
  have hnode : rank / cluster.localRanks < cluster.nNodes := Nat.div_lt_of_lt_mul (by
    rw [mul_comm]
    exact h)
  refine ncclCommSplit_eq ?_ fun r => ?_
  · exact pairwise_map.mpr (pairwise_lt_range.imp fun h => by omega)
  · simp only [mem_map, mem_range]
    constructor
    · rintro ⟨i, hi, rfl⟩
      exact ⟨div_add_lt hnode hi, mul_add_div hi⟩
    · rintro ⟨-, hr⟩
      refine ⟨r % cluster.localRanks, Nat.mod_lt r hpos, ?_⟩
      rw [← hr]
      exact Nat.div_add_mod' r cluster.localRanks

theorem inter_members (rank : ℕ) : cluster.members rank .inter = (List.range cluster.nNodes).map
      fun i => i * cluster.localRanks + rank % cluster.localRanks := by
  have hpos := cluster.localRanks_pos
  have hmod : rank % cluster.localRanks < cluster.localRanks := Nat.mod_lt rank hpos
  refine ncclCommSplit_eq ?_ fun r => ?_
  · refine pairwise_map.mpr (pairwise_lt_range.imp fun {i j} h => ?_)
    have := Nat.mul_lt_mul_of_pos_right h hpos
    omega
  · simp only [mem_map, mem_range]
    constructor
    · rintro ⟨i, hi, rfl⟩
      exact ⟨div_add_lt hi hmod, mul_add_mod hmod⟩
    · rintro ⟨hlt, hr⟩
      refine ⟨r / cluster.localRanks, Nat.div_lt_of_lt_mul (by rw [mul_comm]; exact hlt), ?_⟩
      rw [← hr]
      exact Nat.div_add_mod' r cluster.localRanks

theorem mem_members (h : rank < cluster.nRanks) (role : CommRole) :
    rank ∈ cluster.members rank role := by
  cases role with
  | owner => exact mem_range.mpr h
  | intra =>
    rw [cluster.intra_members h]
    refine mem_map.mpr ⟨rank % cluster.localRanks, ?_, Nat.div_add_mod' _ _⟩
    exact mem_range.mpr (Nat.mod_lt _ cluster.localRanks_pos)
  | inter =>
    rw [cluster.inter_members]
    refine mem_map.mpr ⟨rank / cluster.localRanks, ?_, Nat.div_add_mod' _ _⟩
    exact mem_range.mpr (Nat.div_lt_of_lt_mul (by rw [mul_comm]; exact h))

/-- The number that identifies a communicator. -/
def handle : CommRole → ℕ
  | .owner => 0
  | .intra => 1
  | .inter => 2

def role : ℕ → CommRole
  | 0 => .owner
  | 1 => .intra
  | _ => .inter

@[simp] theorem role_handle (r : CommRole) : role (handle r) = r := by
  cases r <;> rfl

/-- What rank `rank` holds of one of its communicators. There is no rank beyond the last; the
remainder only makes the function total. -/
def comm (rank : ℕ) (role : CommRole) : Comm where
  handle := handle role
  rank := (cluster.members (rank % cluster.nRanks) role).idxOf (rank % cluster.nRanks)
  nRanks := (cluster.members (rank % cluster.nRanks) role).length
  localRanks := if role = .inter then 1 else cluster.localRanks
  nNodes := if role = .intra then 1 else cluster.nNodes
  rank_lt := idxOf_lt_length_of_mem
    (cluster.mem_members (Nat.mod_lt rank cluster.nRanks_pos) role)
  localRanks_pos := by
    have := cluster.localRanks_pos
    split_ifs <;> omega

@[simp] theorem role_comm (rank : ℕ) (r : CommRole) :
    role (cluster.comm rank r).handle = r := role_handle r

/-- The `i`-th member of a rank's communicator, the number of its members and the rank's place. -/
def member (rank i : ℕ) : CommRole → ℕ
  | .owner => i
  | .intra => rank / cluster.localRanks * cluster.localRanks + i
  | .inter => i * cluster.localRanks + rank % cluster.localRanks

def size : CommRole → ℕ
  | .owner => cluster.nRanks
  | .intra => cluster.localRanks
  | .inter => cluster.nNodes

def place (rank : ℕ) : CommRole → ℕ
  | .owner => rank
  | .intra => rank % cluster.localRanks
  | .inter => rank / cluster.localRanks

theorem members_eq (h : rank < cluster.nRanks) (r : CommRole) :
    cluster.members rank r = (List.range (cluster.size r)).map fun i =>
      cluster.member rank i r := by
  cases r with
  | owner => simp [members, member, size]
  | intra => exact cluster.intra_members h
  | inter => exact cluster.inter_members rank

theorem place_lt (h : rank < cluster.nRanks) (r : CommRole) :
    cluster.place rank r < cluster.size r := by
  cases r with
  | owner => exact h
  | intra => exact Nat.mod_lt _ cluster.localRanks_pos
  | inter => exact Nat.div_lt_of_lt_mul (by rw [mul_comm]; exact h)

theorem member_place (rank : ℕ) (r : CommRole) :
    cluster.member rank (cluster.place rank r) r = rank := by
  cases r with
  | owner => rfl
  | intra | inter => exact Nat.div_add_mod' _ _

theorem member_lt {rank i : ℕ} (h : rank < cluster.nRanks) {r : CommRole}
    (hi : i < cluster.size r) : cluster.member rank i r < cluster.nRanks := by
  cases r with
  | owner => exact hi
  | intra => exact div_add_lt (cluster.place_lt h .inter) hi
  | inter => exact div_add_lt hi (cluster.place_lt h .intra)

theorem member_injective (rank : ℕ) (r : CommRole) {i j : ℕ}
    (h : cluster.member rank i r = cluster.member rank j r) : i = j := by
  cases r with
  | owner => exact h
  | intra => exact Nat.add_left_cancel h
  | inter => exact Nat.eq_of_mul_eq_mul_right cluster.localRanks_pos (Nat.add_right_cancel h)

@[simp] theorem comm_nRanks (rank : ℕ) (r : CommRole) :
    (cluster.comm rank r).nRanks = cluster.size r := by
  simp [comm, cluster.members_eq (Nat.mod_lt rank cluster.nRanks_pos)]

theorem comm_rank (hrank : rank < cluster.nRanks) (r : CommRole) :
    (cluster.comm rank r).rank = cluster.place rank r := by
  have hnodup : (cluster.members rank r).Nodup := by
    rw [cluster.members_eq hrank]
    exact nodup_range.map fun i j h => cluster.member_injective rank r h
  have hget : (cluster.members rank r)[cluster.place rank r]? = some rank := by
    rw [cluster.members_eq hrank, getElem?_map,
      getElem?_range (cluster.place_lt hrank r), Option.map_some, member_place]
  obtain ⟨hlt, hget⟩ := List.getElem?_eq_some_iff.mp hget
  have hindex := hnodup.idxOf_getElem _ hlt
  rw [hget] at hindex
  show (cluster.members (rank % cluster.nRanks) r).idxOf (rank % cluster.nRanks) = _
  rw [Nat.mod_eq_of_lt hrank, hindex]

@[simp] theorem comm_owner_localRanks (rank : ℕ) :
    (cluster.comm rank .owner).localRanks = cluster.localRanks := rfl

/-- The communicators in closed form. -/
theorem comm_eq (hrank : rank < cluster.nRanks) (r : CommRole) : cluster.comm rank r =
      { handle := handle r
        rank := cluster.place rank r
        nRanks := cluster.size r
        localRanks := if r = .inter then 1 else cluster.localRanks
        nNodes := if r = .intra then 1 else cluster.nNodes
        rank_lt := cluster.place_lt hrank r
        localRanks_pos := (cluster.comm rank r).localRanks_pos } := by
  ext
  · rfl
  · exact cluster.comm_rank hrank r
  · exact cluster.comm_nRanks rank r
  · rfl
  · rfl

end Cluster

end Coccl
