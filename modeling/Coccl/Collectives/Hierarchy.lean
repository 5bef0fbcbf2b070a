import Coccl.Collectives.Comms
import Coccl.Foundations.Grid
import Coccl.Runtime.Route

/-!
# Hierarchical requests on any placement

An explicit two-shot ReduceScatter or triple-shot AllReduce is decided by every rank alone, from the
number of ranks on its own node. With the ranks placed on nodes in any way, it gets one verdict
under every numbering exactly when the nodes are of one size or none of their sizes divides the
number of ranks (`HierarchicalRequest.OneVerdict`).
-/

namespace Coccl

open Finset Equiv

/-! ## Placements -/

/-- The ranks of a communicator and the node each of them runs on. -/
structure Placement where
  nRanks : ℕ
  node : Fin nRanks → ℕ
  nRanks_pos : 0 < nRanks

namespace Placement

variable (p : Placement)

/-- `comm->localRanks`: the ranks on the rank's node. -/
def localRanks (rank : Fin p.nRanks) : ℕ := #{r | p.node r = p.node rank}

theorem localRanks_pos (rank : Fin p.nRanks) : 0 < p.localRanks rank :=
  card_pos.mpr ⟨rank, by simp⟩

/-- The colours `cocclCommGetHierarchicalComms` passes to the two splits. -/
def intraColor (rank : Fin p.nRanks) : ℕ := rank.val / p.localRanks rank

def interColor (rank : Fin p.nRanks) : ℕ := rank.val % p.localRanks rank

/-- A rank's colour; there is no rank beyond the last. -/
def colorOf (color : Fin p.nRanks → ℕ) (rank : ℕ) : ℕ :=
  if h : rank < p.nRanks then color ⟨rank, h⟩ else 0

/-- The members of the communicator a rank is in after a split. -/
def split (color : Fin p.nRanks → ℕ) (rank : Fin p.nRanks) : List ℕ :=
  ncclCommSplit p.nRanks (p.colorOf color) id rank

theorem mem_split {color : Fin p.nRanks → ℕ} {rank : Fin p.nRanks} {r : ℕ} :
    r ∈ p.split color rank ↔ ∃ h : r < p.nRanks, color ⟨r, h⟩ = color rank := by
  unfold split ncclCommSplit
  rw [List.mem_mergeSort, List.mem_filter, List.mem_range, decide_eq_true_eq]
  constructor
  · rintro ⟨h, hcolor⟩
    refine ⟨h, ?_⟩
    simpa [colorOf, h] using hcolor
  · rintro ⟨h, hcolor⟩
    refine ⟨h, ?_⟩
    simpa [colorOf, h] using hcolor

theorem length_split (color : Fin p.nRanks → ℕ) (rank : Fin p.nRanks) :
    (p.split color rank).length = #{r | color r = color rank} := by
  have hnodup : (p.split color rank).Nodup :=
    (List.mergeSort_perm _ _).nodup_iff.mpr (List.nodup_range.filter _)
  rw [← List.toFinset_card_of_nodup hnodup]
  have himage : (p.split color rank).toFinset =
      ({r | color r = color rank} : Finset (Fin p.nRanks)).map Fin.valEmbedding := by
    ext r
    simp only [List.mem_toFinset, mem_split, mem_map, mem_filter, mem_univ, true_and,
      Fin.valEmbedding_apply]
    constructor
    · rintro ⟨h, hcolor⟩
      exact ⟨⟨r, h⟩, hcolor, rfl⟩
    · rintro ⟨s, hcolor, rfl⟩
      exact ⟨s.isLt, hcolor⟩
  rw [himage, card_map]

/-- What a rank holds of the communicator itself. -/
def comm (rank : Fin p.nRanks) : PlacedComm where
  handle := 0
  rank := rank
  nRanks := p.nRanks
  localRanks := p.localRanks rank
  nNodes := #(univ.image p.node)
  rank_lt := rank.isLt
  localRanks_pos := p.localRanks_pos rank
  rankToNode := p.colorOf p.node

/-- What a rank holds of the communicator a split gives it. -/
def splitComm (handle : ℕ) (color : Fin p.nRanks → ℕ) (rank : Fin p.nRanks) : Comm where
  handle := handle
  rank := (p.split color rank).idxOf rank.val
  nRanks := (p.split color rank).length
  localRanks := #{r | color r = color rank ∧ p.node r = p.node rank}
  nNodes := #(image p.node {r | color r = color rank})
  rank_lt := List.idxOf_lt_length_of_mem (p.mem_split.mpr ⟨rank.isLt, rfl⟩)
  localRanks_pos := card_pos.mpr ⟨rank, by simp⟩

/-- The communicators of `cocclCommGetHierarchicalComms`. -/
def hierarchy (rank : Fin p.nRanks) : HierarchicalComms where
  intraComm := p.splitComm 1 p.intraColor rank
  interComm := p.splitComm 2 p.interColor rank

/-- The splits partition the ranks into a full grid. -/
structure FullGrid : Prop where
  intra_size : ∀ r s, (p.hierarchy r).intraComm.nRanks = (p.hierarchy s).intraComm.nRanks
  inter_size : ∀ r s, (p.hierarchy r).interComm.nRanks = (p.hierarchy s).interComm.nRanks
  meet : ∀ r s, ∃! m, m ∈ p.split p.intraColor r ∧ m ∈ p.split p.interColor s

/-- Only that the groups meet in one rank has to be shown. -/
theorem fullGrid_iff : p.FullGrid ↔ Grid p.intraColor p.interColor := by
  constructor
  · intro h r s
    obtain ⟨m, ⟨hintra, hinter⟩, huniq⟩ := h.meet r s
    obtain ⟨hm, hintra⟩ := p.mem_split.mp hintra
    obtain ⟨_, hinter⟩ := p.mem_split.mp hinter
    refine ⟨⟨m, hm⟩, ⟨hintra, hinter⟩, fun k hk => Fin.ext ?_⟩
    exact huniq k ⟨p.mem_split.mpr ⟨k.isLt, hk.1⟩, p.mem_split.mpr ⟨k.isLt, hk.2⟩⟩
  · intro h
    refine ⟨fun r s => ?_, fun r s => ?_, fun r s => ?_⟩
    · exact (p.length_split _ r).trans ((h.card_left r).trans
        ((h.card_left s).symm.trans (p.length_split _ s).symm))
    · exact (p.length_split _ r).trans ((h.card_right r).trans
        ((h.card_right s).symm.trans (p.length_split _ s).symm))
    · obtain ⟨m, ⟨hintra, hinter⟩, huniq⟩ := h r s
      refine ⟨m, ⟨p.mem_split.mpr ⟨m.isLt, hintra⟩, p.mem_split.mpr ⟨m.isLt, hinter⟩⟩, ?_⟩
      rintro k ⟨hk, hk'⟩
      obtain ⟨hlt, hk⟩ := p.mem_split.mp hk
      obtain ⟨_, hk'⟩ := p.mem_split.mp hk'
      exact congrArg Fin.val (huniq ⟨k, hlt⟩ ⟨hk, hk'⟩)

/-! ## Numberings -/

/-- The same nodes with the ranks numbered in another way. -/
abbrev renumber (σ : Perm (Fin p.nRanks)) : Placement where
  nRanks := p.nRanks
  node := fun r => p.node (σ r)
  nRanks_pos := p.nRanks_pos

theorem renumber_localRanks (σ : Perm (Fin p.nRanks)) (r : Fin p.nRanks) :
    (p.renumber σ).localRanks r = p.localRanks (σ r) := by
  unfold localRanks renumber
  refine card_equiv σ fun s => ?_
  simp

/-- The ranks on nodes at least as large as a rank's own are at least those on its own. -/
theorem localRanks_le_card (r : Fin p.nRanks) :
    p.localRanks r ≤ #{s | p.localRanks r ≤ p.localRanks s} := by
  refine card_le_card fun s hs => ?_
  simp only [mem_filter, mem_univ, true_and] at hs ⊢
  simp only [localRanks, hs, le_refl]

/-- Nodes of one size have a size that divides the number of ranks. -/
theorem dvd_of_uniform (h : ∀ r s, p.localRanks r = p.localRanks s) (r : Fin p.nRanks) :
    p.localRanks r ∣ p.nRanks := by
  have hcard := card_eq_sum_card_image p.node univ
  rw [card_univ, Fintype.card_fin] at hcard
  rw [hcard]
  refine dvd_sum fun n hn => ?_
  obtain ⟨s, -, rfl⟩ := mem_image.mp hn
  rw [h r s]
  rfl

/-- Sizes that divide the number of ranks are a grid under every numbering only when they agree:
the numbering by decreasing size is not one otherwise. -/
theorem uniform_of_grids (hdvd : ∀ r, p.localRanks r ∣ p.nRanks)
    (h : ∀ σ, (p.renumber σ).FullGrid) (r s : Fin p.nRanks) :
    p.localRanks r = p.localRanks s := by
  have hn : 0 < p.nRanks := Nat.zero_lt_of_lt r.isLt
  -- sizes in decreasing order
  obtain ⟨σ, hanti⟩ : ∃ σ : Perm (Fin p.nRanks), Antitone fun r => p.localRanks (σ r) :=
    ⟨Tuple.sort fun r => OrderDual.toDual (p.localRanks r),
      Tuple.monotone_sort fun r => OrderDual.toDual (p.localRanks r)⟩
  obtain ⟨first, hfirst⟩ : ∃ first : Fin p.nRanks, first.val = 0 := ⟨⟨0, hn⟩, rfl⟩
  obtain ⟨last, hlast⟩ : ∃ last : Fin p.nRanks, last.val = p.nRanks - 1 := ⟨⟨_, by omega⟩, rfl⟩
  have hgrid := (p.renumber σ).fullGrid_iff.mp (h σ)
  have hwidth : (p.renumber σ).localRanks = fun r => p.localRanks (σ r) :=
    funext (p.renumber_localRanks σ)
  unfold intraColor interColor at hgrid
  rw [hwidth] at hgrid
  have hends : p.localRanks (σ first) ≤ p.localRanks (σ last) := by
    by_contra hlt
    refine not_grid_of_antitone hfirst hlast (fun r => p.localRanks_pos (σ r)) (fun r => hdvd (σ r))
      hanti ?_ (not_le.mp hlt) hgrid
    calc p.localRanks (σ first) ≤ #{s | p.localRanks (σ first) ≤ p.localRanks s} :=
          p.localRanks_le_card (σ first)
      _ = #{r | p.localRanks (σ first) ≤ p.localRanks (σ r)} :=
          (card_equiv σ fun r => by simp).symm
  have hbetween : ∀ t, p.localRanks t = p.localRanks (σ first) := by
    intro t
    have hle := @hanti first (σ.symm t) (by rw [Fin.le_def, hfirst]; exact Nat.zero_le _)
    have hge := @hanti (σ.symm t) last (by rw [Fin.le_def, hlast]; omega)
    simp only [apply_symm_apply] at hle hge
    omega
  rw [hbetween r, hbetween s]

end Placement

/-! ## Requests -/

/-- The explicit calls with a hierarchical algorithm. -/
inductive HierarchicalKind where
  | reduceScatterTwoShot
  | allReduceTripleShot
  deriving DecidableEq, Repr

namespace HierarchicalKind

def operation : HierarchicalKind → Operation
  | .reduceScatterTwoShot => .reduceScatter
  | .allReduceTripleShot => .allReduce

def algorithm : HierarchicalKind → AlgorithmKind
  | .reduceScatterTwoShot => .reduceScatterTwoShot
  | .allReduceTripleShot => .allReduceTripleShot

/-- The scopes it compresses in, which do not depend on the communicator. -/
def scopes : HierarchicalKind → List CompressionScope
  | .reduceScatterTwoShot => [.intra, .inter]
  | .allReduceTripleShot => [.default, .intra, .inter]

theorem algorithmScopes_eq (kind : HierarchicalKind) (info : Info) :
    algorithmScopes info kind.algorithm = kind.scopes := by
  cases kind <;> rfl

end HierarchicalKind

/-- One call made by all ranks, each with buffers of its own. -/
structure HierarchicalRequest where
  kind : HierarchicalKind
  sendbuff : ℕ → ℕ
  recvbuff : ℕ → ℕ
  count : ℕ
  datatype : DataType
  op : RedOp
  stream : ℕ
  missing_eq : ∀ r s,
    (sendbuff r = 0 || recvbuff r = 0) = (sendbuff s = 0 || recvbuff s = 0)

/-- What a rank does with a request. -/
inductive Verdict where
  | rejected
  | native
  | proceeds
  deriving DecidableEq, Repr

namespace HierarchicalRequest

variable {κ : Type} (config : RouteConfig κ) (select : RoutedCall κ → Result AlgorithmKind)
  (p : Placement) (request : HierarchicalRequest)

/-- The call of one rank. -/
def info (rank : Fin p.nRanks) : Info :=
  collectiveInfo (request.sendbuff rank) (request.recvbuff rank) request.count request.datatype
    request.op request.kind.operation (p.comm rank) request.stream

/-- The entry point's call, and the executor's first checks. A rank that proceeds next splits the
communicator. -/
def verdict (rank : Fin p.nRanks) : Verdict :=
  match cocclEnqueueExplicitCall config select (request.info p rank) request.kind.algorithm with
  | .error _ => .rejected
  | .ok .native => .native
  | .ok (.execute call) =>
    match cocclExecutePrimitive (p.hierarchy rank) (call.prepared request.kind.operation) with
    | .error _ => .rejected
    | .ok _ => .proceeds

/-- All ranks reject, or all go on with communicators that form a full grid. -/
def OneVerdict : Prop :=
  (∀ r, request.verdict config select p r = .rejected) ∨
    (∀ r, request.verdict config select p r = .proceeds) ∧ p.FullGrid

/-- Every rank's call is accepted. -/
def Accepted : Prop :=
  ∀ r, ExplicitCallAccepted config (request.info p r) request.kind.algorithm

/-- Every rank's compressors take the datatype. -/
def Compressible : Prop :=
  ∀ r, ExplicitCallCompressible config (request.info p r) request.kind.algorithm

variable {config select p request}

theorem accepted_congr (q : Placement) (hq : q.nRanks = p.nRanks) (r : Fin p.nRanks)
    (s : Fin q.nRanks) (h : ExplicitCallAccepted config (request.info p r) request.kind.algorithm) :
    ExplicitCallAccepted config (request.info q s) request.kind.algorithm := by
  obtain ⟨henabled, hsupported, hrole, hcompressor⟩ := h
  have hshape : callSupported (request.info q s) = callSupported (request.info p r) :=
    callSupported_congr rfl rfl rfl rfl hq (request.missing_eq s r)
  refine ⟨henabled, hshape.trans hsupported, hrole, ?_⟩
  · rwa [request.kind.algorithmScopes_eq] at hcompressor ⊢

theorem compressible_congr (q : Placement) (r : Fin p.nRanks) (s : Fin q.nRanks)
    (h : ExplicitCallCompressible config (request.info p r) request.kind.algorithm) :
    ExplicitCallCompressible config (request.info q s) request.kind.algorithm := by
  unfold ExplicitCallCompressible at h ⊢
  rwa [request.kind.algorithmScopes_eq] at h ⊢

theorem accepted_iff (r : Fin p.nRanks) : request.Accepted config p ↔
    ExplicitCallAccepted config (request.info p r) request.kind.algorithm :=
  ⟨fun h => h r, fun h s => accepted_congr p rfl r s h⟩

theorem compressible_iff (r : Fin p.nRanks) : request.Compressible config p ↔
    ExplicitCallCompressible config (request.info p r) request.kind.algorithm :=
  ⟨fun h => h r, fun h s => compressible_congr p r s h⟩

/-- The executors check nothing of a supported call but the rank's own node. -/
theorem executePrimitive_eq {r : Fin p.nRanks} (h : callSupported (request.info p r) = true) :
    ∃ submission, cocclExecutePrimitive (p.hierarchy r)
      ((explicitCall config (request.info p r) request.kind.algorithm).prepared
        request.kind.operation) =
      if p.nRanks % p.localRanks r ≠ 0 then .error .invalidArgument else .ok submission := by
  cases hkind : request.kind with
  | reduceScatterTwoShot => exact ⟨_, rfl⟩
  | allReduceTripleShot =>
    have hcount : request.count % p.nRanks = 0 :=
      callSupported_dvd (by rw [info, collectiveInfo, hkind]; rfl) h
    refine ⟨AllReduce.runTripleShot (p.hierarchy r)
      ((explicitCall config (request.info p r) .allReduceTripleShot).prepared .allReduce),
      (if_neg (not_not.mpr hcount)).trans ?_⟩
    by_cases hmod : p.nRanks % p.localRanks r ≠ 0
    · exact (if_pos ⟨rfl, hmod⟩).trans (if_pos hmod).symm
    · exact (if_neg fun hand => hmod hand.2).trans (if_neg hmod).symm

variable (config select p request)

/-- A call that is executed is decided by the rank's own node. -/
theorem verdict_eq (r : Fin p.nRanks) : request.verdict config select p r = open Classical in
    if ¬request.Accepted config p then .rejected
    else if ¬request.Compressible config p then .native
    else if p.localRanks r ∣ p.nRanks then .proceeds else .rejected := by
  classical
  have halgorithm : request.kind.algorithm ≠ .none := by
    cases request.kind <;> nofun
  rw [verdict, cocclEnqueueExplicitCall_eq halgorithm, accepted_iff r, compressible_iff r]
  by_cases haccepted : ExplicitCallAccepted config (request.info p r) request.kind.algorithm
  swap
  · rw [if_pos haccepted, if_pos haccepted]
  by_cases hcompressible : ExplicitCallCompressible config (request.info p r) request.kind.algorithm
  swap
  · rw [if_neg (not_not.mpr haccepted), if_pos hcompressible, if_neg (not_not.mpr haccepted),
      if_pos hcompressible]
  rw [if_neg (not_not.mpr haccepted), if_neg (not_not.mpr hcompressible),
    if_neg (not_not.mpr haccepted), if_neg (not_not.mpr hcompressible)]
  obtain ⟨submission, hexecute⟩ := @executePrimitive_eq κ config p request r haccepted.supported
  dsimp only
  rw [hexecute]
  by_cases hdvd : p.localRanks r ∣ p.nRanks
  · rw [if_pos hdvd, if_neg (not_not.mpr (Nat.mod_eq_zero_of_dvd hdvd))]
  · rw [if_neg hdvd, if_pos fun hmod => hdvd (Nat.dvd_of_mod_eq_zero hmod)]

/-- Neither the acceptance nor the compressors depend on the numbering. -/
theorem accepted_renumber (σ : Perm (Fin p.nRanks)) :
    request.Accepted config (p.renumber σ) ↔ request.Accepted config p :=
  ⟨fun h r => @accepted_congr κ config (p.renumber σ) request p rfl r r (h r),
    fun h r => @accepted_congr κ config p request (p.renumber σ) rfl r r (h r)⟩

theorem compressible_renumber (σ : Perm (Fin p.nRanks)) :
    request.Compressible config (p.renumber σ) ↔ request.Compressible config p :=
  ⟨fun h r => @compressible_congr κ config (p.renumber σ) request p r r (h r),
    fun h r => @compressible_congr κ config p request (p.renumber σ) r r (h r)⟩

/-- **One verdict.** Under every numbering of the ranks a request gets one verdict exactly when it
is not accepted at all, or is not replayed natively and the nodes are of one size, or of sizes none
of which divides the number of ranks. -/
theorem oneVerdict_iff : (∀ σ, request.OneVerdict config select (p.renumber σ)) ↔
    ¬request.Accepted config p ∨
      request.Compressible config p ∧
        ((∀ r s, p.localRanks r = p.localRanks s) ∨ ∀ r, ¬p.localRanks r ∣ p.nRanks) := by
  have first : Fin p.nRanks := ⟨0, p.nRanks_pos⟩
  have hverdict : ∀ (σ : Perm (Fin p.nRanks)) (r : Fin p.nRanks), request.Accepted config p →
      request.Compressible config p → request.verdict config select (p.renumber σ) r =
        if p.localRanks (σ r) ∣ p.nRanks then .proceeds else .rejected := by
    intro σ r haccepted hcompressible
    rw [verdict_eq, accepted_renumber, compressible_renumber, if_neg (not_not.mpr haccepted),
      if_neg (not_not.mpr hcompressible), p.renumber_localRanks]
  constructor
  · intro h
    by_cases haccepted : request.Accepted config p
    swap
    · exact .inl haccepted
    refine .inr ?_
    by_cases hcompressible : request.Compressible config p
    swap
    · -- replayed natively
      have hnative : request.verdict config select (p.renumber 1) first = .native := by
        rw [verdict_eq, accepted_renumber, compressible_renumber, if_neg (not_not.mpr haccepted),
          if_pos hcompressible]
      rcases h 1 with hall | ⟨hall, -⟩
      · exact absurd ((hall first).symm.trans hnative) (by decide)
      · exact absurd ((hall first).symm.trans hnative) (by decide)
    refine ⟨hcompressible, or_iff_not_imp_right.mpr fun hsome => ?_⟩
    obtain ⟨t, ht⟩ := not_forall_not.mp hsome
    -- a rank on that node proceeds under every numbering, and so all do
    have hall : ∀ σ, (∀ r, request.verdict config select (p.renumber σ) r = .proceeds) ∧
        (p.renumber σ).FullGrid := by
      intro σ
      refine (h σ).resolve_left fun hrejected => ?_
      have hproceeds := hverdict σ (σ.symm t) haccepted hcompressible
      rw [σ.apply_symm_apply, if_pos ht, hrejected] at hproceeds
      cases hproceeds
    refine p.uniform_of_grids (fun r => ?_) fun σ => (hall σ).2
    have hproceeds := (hall 1).1 r
    rw [hverdict 1 r haccepted hcompressible, Perm.one_apply] at hproceeds
    by_contra hnot
    rw [if_neg hnot] at hproceeds
    cases hproceeds
  · rintro (hnot | ⟨hcompressible, hsizes⟩) σ
    · refine .inl fun r => ?_
      rw [verdict_eq, accepted_renumber, if_pos hnot]
    by_cases haccepted : request.Accepted config p
    swap
    · refine .inl fun r => ?_
      rw [verdict_eq, accepted_renumber, if_pos haccepted]
    rcases hsizes with huniform | hnone
    · refine .inr ⟨fun r => ?_, (p.renumber σ).fullGrid_iff.mpr ?_⟩
      · exact (hverdict σ r haccepted hcompressible).trans (if_pos (p.dvd_of_uniform huniform _))
      · refine grid_div_mod (p.localRanks_pos first) (p.dvd_of_uniform huniform first) fun r => ?_
        exact (p.renumber_localRanks σ r).trans (huniform _ _)
    · exact .inl fun r => (hverdict σ r haccepted hcompressible).trans (if_neg (hnone _))

end HierarchicalRequest

/-! ## Unequal nodes -/

/-- Three ranks on one node and one on another. -/
def threeAndOne : Placement where
  nRanks := 4
  node := fun rank => if rank.val < 3 then 0 else 1
  nRanks_pos := by decide

/-- One policy for everything. -/
def onePolicy : RouteConfig Unit where
  compressionEnabled := true
  trainingAssistEnabled := false
  query := fun _ => none
  policies := fun _ _ => some ()
  thresholdBytes := fun _ => 0
  plugins := fun _ => ⟨fun _ => true, none⟩
  bfloat16Supported := true

/-- A two-shot ReduceScatter of eight floats for each rank. -/
def twoShotRequest : HierarchicalRequest where
  kind := .reduceScatterTwoShot
  sendbuff := fun _ => 4096
  recvbuff := fun _ => 8192
  count := 8
  datatype := .float32
  op := .sum
  stream := 0
  missing_eq := fun _ _ => rfl

/-- Three ranks reject the call, and the fourth waits for them in its first split. -/
theorem threeAndOne_not_oneVerdict :
    ¬twoShotRequest.OneVerdict onePolicy (fun _ => .error .internalError) threeAndOne := by
  have hfirst : twoShotRequest.verdict onePolicy (fun _ => .error .internalError) threeAndOne
      ⟨0, by decide⟩ = .rejected := by
    decide +kernel
  have hlast : twoShotRequest.verdict onePolicy (fun _ => .error .internalError) threeAndOne
      ⟨3, by decide⟩ = .proceeds := by
    decide +kernel
  rintro (hall | ⟨hall, -⟩)
  · exact absurd (hlast.symm.trans (hall _)) (by decide)
  · exact absurd (hfirst.symm.trans (hall _)) (by decide)

end Coccl
