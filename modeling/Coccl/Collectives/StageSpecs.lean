import Coccl.Collectives.Values
import Coccl.Pipeline.Plan

/-!
# One lemma per stage

`AllHold` says what the edges of all ranks hold: the same number of chunks on every rank, under the
same compressor, with given values. `Takes` is what a stage does to that.
-/

namespace Coccl

open Checked Blocks Cluster List Chunk Except

section

variable {α β : Type}

/-- A loop over the ranks succeeds when every round does. -/
theorem exists_mapM_range (d : β) {n : ℕ} {f : ℕ → Option β} {Q : ℕ → β → Prop}
    (h : ∀ g < n, ∃ b, f g = some b ∧ Q g b) :
    ∃ l, (List.range n).mapM f = some l ∧ ∀ g < n, Q g (l.getD g d) := by
  have : Inhabited β := ⟨d⟩
  choose! r hr hQ using h
  refine ⟨(List.range n).map r, mapM_eq_some_of_map ?_, fun g hg => ?_⟩
  · rw [map_map]
    exact map_congr_left fun g hg => hr g (mem_range.mp hg)
  · simpa [getD_eq_getElem?_getD, hg] using hQ g hg

end

section

variable {α β κ : Type} {m : ℕ} [AddCommMonoid α] (codecs : κ → Codec α β)

/-- What a chunk holds under a compressor. -/
def Chunk.view : Option κ → Chunk α β m → Option (Fin m → α)
  | none, chunk => chunk.raw?
  | some policy, chunk => some (chunk.decompress (codecs policy))

/-- The edge holds `C` chunks with the values `f`, under `compressor`. -/
structure ValueEdge.Holds (edge : ValueEdge α β κ m) (compressor : Option κ) (C : ℕ)
    (f : ℕ → Fin m → α) : Prop where
  compressor_eq : edge.compressor = compressor
  chunks_eq : edge.chunks.map (view codecs compressor) =
    (List.range C).map fun c => some (f c)

/-- What the edges of all ranks hold. -/
def AllHold (cluster : Cluster) (edges : List (ValueEdge α β κ m)) (compressor : Option κ) (C : ℕ)
    (F : ℕ → ℕ → Fin m → α) : Prop :=
  ∀ g < cluster.nRanks, (edges.getD g default).Holds codecs compressor C (F g)

namespace ValueEdge.Holds

variable {codecs} {edge : ValueEdge α β κ m} {compressor : Option κ} {C : ℕ} {f : ℕ → Fin m → α}

theorem length (h : edge.Holds codecs compressor C f) : edge.chunks.length = C := by
  simpa using congrArg List.length h.chunks_eq

/-- Only the values of the chunks that are there matter. -/
theorem congr {f' : ℕ → Fin m → α} (h : edge.Holds codecs compressor C f)
    (hf : ∀ c < C, f c = f' c) : edge.Holds codecs compressor C f' := by
  refine ⟨h.compressor_eq, h.chunks_eq.trans ?_⟩
  exact map_congr_left fun c hc => by rw [hf c (mem_range.mp hc)]

theorem values? (h : edge.Holds codecs none C f) : edge.values? = some ((List.range C).map f) := by
  rw [ValueEdge.values?, h.compressor_eq]
  exact mapM_eq_some_of_map (by rw [map_map]; exact h.chunks_eq)

variable {policy : κ}

theorem decompress (h : edge.Holds codecs (some policy) C f) :
    edge.chunks.map (Chunk.decompress (codecs policy)) = (List.range C).map f := by
  have := h.chunks_eq
  have hsome : (List.map some (edge.chunks.map (Chunk.decompress (codecs policy)))) =
      List.map some ((List.range C).map f) := by
    rw [map_map, map_map]
    exact this
  exact map_injective_iff.mpr (Option.some_injective _) hsome

/-- Chunks that were all encoded decode to the values. -/
theorem encoded (h : edge.Holds codecs (some policy) C f) {data : List β}
    (hdata : edge.chunks.mapM encoded? = some data) :
    data.map (codecs policy).decode = (List.range C).map f := by
  rw [← h.decompress]
  generalize edge.chunks = chunks at hdata
  induction chunks generalizing data with
  | nil =>
    obtain rfl : data = [] := by simpa using hdata.symm
    rfl
  | cons chunk chunks ih =>
    rw [mapM_cons] at hdata
    obtain ⟨head, hhead, hdata⟩ := Option.bind_eq_some_iff.mp hdata
    obtain ⟨tail, htail, hdata⟩ := Option.bind_eq_some_iff.mp hdata
    obtain rfl := Option.some.inj hdata
    rw [map_cons, map_cons, ih htail]
    cases chunk with
    | raw values => cases hhead
    | encoded data =>
      obtain rfl := Option.some.inj hhead
      rfl

end ValueEdge.Holds

theorem holds_raw (C : ℕ) (f : ℕ → Fin m → α) :
    (⟨(List.range C).map fun c => .raw (f c), none⟩ : ValueEdge α β κ m).Holds codecs none C f :=
  ⟨rfl, by rw [map_map]; rfl⟩

theorem holds_compress (policy : κ) (C : ℕ) (f : ℕ → Fin m → α) :
    (⟨((List.range C).map f).map (compress (codecs policy)), some policy⟩ :
      ValueEdge α β κ m).Holds codecs (some policy) C f := by
  refine ⟨rfl, ?_⟩
  rw [map_map, map_map]
  exact map_congr_left fun c _ => congrArg some (decompress_compress _ _)

theorem sumChunks_range {γ : Type} [AddCommMonoid γ] (reduceChunks B : ℕ)
    (hpos : 0 < reduceChunks) (f : ℕ → γ) :
    sumChunks reduceChunks ((List.range (reduceChunks * B)).map f) =
      (List.range B).map fun c => ((List.range reduceChunks).map fun q => f (q * B + c)).sum := by
  rw [sumChunks, length_map, length_range, Nat.mul_div_cancel_left B hpos]
  refine map_congr_left fun c hc => congrArg List.sum (map_congr_left fun q hq => ?_)
  have hlt := div_add_lt (mem_range.mp hq) (mem_range.mp hc)
  simp [getD_eq_getElem?_getD, hlt]

variable {reduceChunks B : ℕ}

/-- The sums are those that the kernel leaves of consecutive chunks. -/
theorem reducedMemory_eq_sumChunks {w m : ℕ} (hpos : 0 < reduceChunks) (memory : ℕ → BitVec w)
    (input output : ℕ) {c : ℕ} (hc : c < B) (j : Fin m) :
    reducedMemory input output (B * m) reduceChunks memory (output + (c * m + j)) =
      (sumChunks reduceChunks ((List.range (reduceChunks * B)).map fun c (j : Fin m) =>
        memory (input + (c * m + j)))).getD c 0 j := by
  have hlt : c * m + j < B * m := div_add_lt hc j.2
  rw [reducedMemory, if_pos ⟨by omega, by omega⟩, sumChunks_range _ _ hpos,
    getD_eq_getElem?_getD, getElem?_map, getElem?_range hc, Finset.sum_eq_multiset_sum]
  simp only [Option.map_some, Option.getD_some, Pi.list_sum_apply, map_map]
  show ((List.range reduceChunks).map _).sum = _
  refine congrArg List.sum (map_congr_left fun q _ => congrArg memory ?_)
  rw [Nat.add_sub_cancel_left]
  ring
theorem reduceChunk_range (hpos : 0 < reduceChunks) (hsmall : SmallChunks (B * m) reduceChunks)
    (f : ℕ → Fin m → α) :
    reduceChunk reduceChunks ((List.range (reduceChunks * B)).map f) =
      some ((List.range B).map fun c =>
        ((List.range reduceChunks).map fun q => f (q * B + c)).sum) := by
  rw [reduceChunk, length_map, length_range, Nat.mul_div_cancel_left B hpos, if_pos hsmall,
    sumChunks_range _ _ hpos]

/-- A stage that leaves `outputChunks` chunks of `m` elements has few enough for its kernel. -/
def Stage.smallReduction (m outputChunks : ℕ) : Stage κ → Bool
  | .decompressReduce reduceChunks | .decompReduceComp reduceChunks _ =>
    SmallChunks (outputChunks * m) reduceChunks
  | _ => true

variable (plugins : κ → Plugin) [DecidableEq κ] (cluster : Cluster)

/-- What a stage, run on all ranks, does to what the edges hold, with the chunk count the planner
expects. -/
structure Takes (stage : ℕ → Stage κ) (compressor : Option κ) (C : ℕ)
    (F : ℕ → ℕ → Fin m → α) (compressor' : Option κ) (C' : ℕ) (F' : ℕ → ℕ → Fin m → α) : Prop where
  planned : ∀ g < cluster.nRanks, ∀ outputChunks,
    cocclPipelineStageOutputChunks (stage g) C = .ok outputChunks → outputChunks = C'
  run : (∀ g < cluster.nRanks, (stage g).smallReduction m C' = true) →
    ∀ edges : List (ValueEdge α β κ m), AllHold codecs cluster edges compressor C F →
    ∃ edges', runStageAll plugins codecs cluster (fun g => some (stage g)) edges = some edges' ∧
      AllHold codecs cluster edges' compressor' C' F'

variable {codecs plugins cluster} {stage : ℕ → Stage κ} {F : ℕ → ℕ → Fin m → α} {C : ℕ}

/-- It is enough to look at one rank, and at the stage it lists. -/
theorem takes_of_rank {listed : ℕ → Stage κ} {compressor compressor' : Option κ} {C' : ℕ}
    {F' : ℕ → ℕ → Fin m → α} (hstage : ∀ g < cluster.nRanks, stage g = listed g)
    (hplanned : ∀ g < cluster.nRanks, ∀ outputChunks,
      cocclPipelineStageOutputChunks (listed g) C = .ok outputChunks → outputChunks = C')
    (h : ∀ edges : List (ValueEdge α β κ m), AllHold codecs cluster edges compressor C F →
      ∀ g < cluster.nRanks, (listed g).smallReduction m C' = true →
        ∃ edge', runStage plugins codecs (fun comm => cluster.members g (Cluster.role comm.handle))
          edges (listed g) (edges.getD g default) = some edge' ∧
            edge'.Holds codecs compressor' C' (F' g)) :
    Takes codecs plugins cluster stage compressor C F compressor' C' F' := by
  refine ⟨fun g hg => hstage g hg ▸ hplanned g hg, fun hsmall edges hold => ?_⟩
  have hlisted : runStageAll plugins codecs cluster (fun g => some (stage g)) edges =
      runStageAll plugins codecs cluster (fun g => some (listed g)) edges :=
    mapM_congr fun g hg => by simp only [hstage g (mem_range.mp hg)]
  rw [hlisted]
  exact exists_mapM_range default fun g hg => h edges hold g hg (hstage g hg ▸ hsmall g hg)

theorem takes_compress (hstage : ∀ g < cluster.nRanks, stage g = .compress (some policy)) :
    Takes codecs plugins cluster stage none C F (some policy) C F := by
  refine takes_of_rank hstage (fun _ _ _ h => (ok.inj h).symm) fun edges hold g hg _ => ?_
  refine ⟨_, ?_, holds_compress codecs policy C (F g)⟩
  show runCompress codecs (some policy) _ = _
  rw [runCompress, (hold g hg).values?]
  rfl

theorem takes_decompress (hstage : ∀ g < cluster.nRanks, stage g = .decompress) :
    Takes codecs plugins cluster stage (some policy) C F none C F := by
  refine takes_of_rank hstage (fun _ _ _ h => (ok.inj h).symm) fun edges hold g hg _ => ?_
  refine ⟨_, ?_, holds_raw codecs C (F g)⟩
  have hvalues := (hold g hg).decompress
  show runDecompress codecs _ = _
  rw [runDecompress, (hold g hg).compressor_eq]
  show some (ValueEdge.mk _ none) = _
  have hraw := congrArg (List.map (raw : _ → Chunk α β m)) hvalues
  rw [map_map, map_map] at hraw
  exact congrArg (fun chunks => some (ValueEdge.mk chunks none)) hraw

omit [DecidableEq κ] in
theorem stageOutputChunks_reduce {outputChunks : ℕ} (h : (if reduceChunks = 0 ∨ reduceChunks * B %
      reduceChunks ≠ 0 then .error .invalidArgument else .ok (reduceChunks * B / reduceChunks) :
      Result ℕ) = .ok outputChunks) : outputChunks = B := by
  obtain ⟨hpos, h⟩ := ite_error_eq_ok.mp h
  rw [Nat.mul_div_cancel_left B (by omega)] at h
  exact (ok.inj h).symm

theorem takes_decompressReduce (hpos : 0 < reduceChunks) (hC : C = reduceChunks * B)
    (hstage : ∀ g < cluster.nRanks, stage g = .decompressReduce reduceChunks) :
    Takes codecs plugins cluster stage (some policy) C F none B fun g c =>
      ((List.range reduceChunks).map fun q => F g (q * B + c)).sum := by
  subst hC
  refine takes_of_rank hstage (fun _ _ _ h => stageOutputChunks_reduce h)
    fun edges hold g hg hsmall => ?_
  refine ⟨_, ?_, holds_raw codecs B _⟩
  -- the fused operation and the generic one reduce the same values
  have hreduce : ncclDecompressReduce plugins codecs policy reduceChunks
      (edges.getD g default).chunks = some ((List.range B).map fun c =>
        ((List.range reduceChunks).map fun q => F g (q * B + c)).sum) := by
    unfold ncclDecompressReduce
    split
    · next data _ hdata =>
      rw [(codecs policy).decompressReduce_eq, (hold g hg).encoded hdata, sumChunks_range _ _ hpos]
    · rw [(hold g hg).decompress, reduceChunk_range hpos (of_decide_eq_true hsmall)]
  show runDecompressReduce plugins codecs reduceChunks _ = _
  rw [runDecompressReduce, (hold g hg).compressor_eq]
  simp only [Option.bind_eq_bind, Option.bind_some, hreduce, map_map]
  rfl

theorem takes_decompReduceComp {decoder encoder : κ} (hpos : 0 < reduceChunks)
    (hC : C = reduceChunks * B)
    (hstage : ∀ g < cluster.nRanks, stage g = .decompReduceComp reduceChunks (some encoder)) :
    Takes codecs plugins cluster stage (some decoder) C F (some encoder) B
      fun g c => ((List.range reduceChunks).map fun q => F g (q * B + c)).sum := by
  subst hC
  refine takes_of_rank hstage (fun _ _ _ h => stageOutputChunks_reduce h)
    fun edges hold g hg hsmall => ?_
  have hreduce : ∃ chunks, ncclDecompReduceComp plugins codecs decoder encoder reduceChunks
      (edges.getD g default).chunks = some chunks ∧
      chunks.map (view codecs (some encoder)) = (List.range B).map fun c => some
        ((List.range reduceChunks).map fun q => F g (q * B + c)).sum := by
    unfold ncclDecompReduceComp
    split
    · next data hfused hdata =>
      obtain rfl : decoder = encoder := by
        rw [Bool.and_eq_true, decide_eq_true_eq] at hfused
        exact hfused.1
      have hreduced := (codecs decoder).decompressReduceCompress_eq (m := m) reduceChunks data
      rw [(hold g hg).encoded hdata, sumChunks_range _ _ hpos] at hreduced
      have hsome := congrArg (List.map some) hreduced
      rw [map_map, map_map] at hsome
      refine ⟨_, rfl, Eq.trans (map_congr_left fun chunk _ => ?_) hsome⟩
      cases chunk <;> rfl
    · rw [(hold g hg).decompress, reduceChunk_range hpos (of_decide_eq_true hsmall)]
      exact ⟨_, rfl, (holds_compress codecs encoder B _).chunks_eq⟩
  obtain ⟨chunks, hchunks, hvalues⟩ := hreduce
  refine ⟨⟨chunks, some encoder⟩, ?_, rfl, hvalues⟩
  show runDecompReduceComp plugins codecs reduceChunks (some encoder) _ = _
  rw [runDecompReduceComp, (hold g hg).compressor_eq]
  simp only [Option.bind_eq_bind, Option.bind_some, hchunks]

/-! ## Communication -/

variable {compressor : Option κ} {role : CommRole}

variable (role) in
omit [DecidableEq κ] in
/-- One block of every member, one after the other. -/
theorem members_flatMap {g : ℕ} (hg : g < cluster.nRanks) {edges : List (ValueEdge α β κ m)}
    (hold : AllHold codecs cluster edges compressor C F) {a : ℕ} (hblock : a + B ≤ C) :
    ((cluster.members g role).flatMap fun q => ((edges.getD q default).chunks.drop a).take B).map
        (view codecs compressor) =
      (List.range (cluster.size role * B)).map fun i =>
        some (F (cluster.member g (i / B) role) (a + i % B)) := by
  rw [cluster.members_eq hg, map_flatMap, flatMap_map,
    ← flatMap_range_blocks _ B fun q j => some (F (cluster.member g q role) (a + j))]
  refine flatMap_congr fun q hq => ?_
  have hmember := cluster.member_lt hg (mem_range.mp hq)
  rw [map_take, map_drop, (hold _ hmember).chunks_eq,
    take_drop_range_map hblock]

/-- Block `place` of every member. -/
theorem takes_allToAll (hC : C = cluster.size role * B)
    (hstage : ∀ g < cluster.nRanks, stage g = .allToAll (cluster.comm g role)) :
    Takes codecs plugins cluster stage compressor C F compressor C fun g i =>
      F (cluster.member g (i / B) role) (cluster.place g role * B + i % B) := by
  subst hC
  refine takes_of_rank hstage (fun _ _ _ h => (ok.inj h).symm) fun edges hold g hg _ => ?_
  have hplace := cluster.place_lt hg role
  have hblock := @mul_add_le _ B _ hplace
  have hwidth : cluster.size role * B / cluster.size role = B :=
    Nat.mul_div_cancel_left B (by omega)
  refine ⟨_, rfl, (hold g hg).compressor_eq, ?_⟩
  simp only [(hold g hg).length, comm_nRanks, cluster.comm_rank hg, role_comm, hwidth]
  exact members_flatMap role hg hold hblock

/-- All chunks of every member. -/
theorem takes_allGather (hstage : ∀ g < cluster.nRanks,
      stage g = .allGather (cluster.comm g role)) :
    Takes codecs plugins cluster stage compressor C F compressor (cluster.size role * C)
      fun g i => F (cluster.member g (i / C) role) (i % C) := by
  apply takes_of_rank hstage
  · intro g hg outputChunks h
    obtain ⟨rfl, -⟩ := mul_eq_some.mp (orElse_eq_ok.mp h)
    rw [cluster.comm_nRanks, mul_comm]
  intro edges hold g hg _
  refine ⟨_, rfl, (hold g hg).compressor_eq, ?_⟩
  have hall := members_flatMap role hg hold (zero_add C).le
  simp only [zero_add] at hall
  simp only [role_comm, ← hall]
  refine congrArg (List.map _) (flatMap_congr fun q hq => ?_)
  obtain ⟨i, hi, rfl⟩ := mem_map.mp (cluster.members_eq hg role ▸ hq)
  rw [drop_zero, take_of_length_le]
  exact (hold _ (cluster.member_lt hg (mem_range.mp hi))).length.le

/-- The sum of block `place` over the members. -/
theorem takes_reduceScatter (hC : C = cluster.size role * B)
    (hstage : ∀ g < cluster.nRanks, stage g = .reduceScatter (cluster.comm g role)) :
    Takes codecs plugins cluster stage none C F none B fun g c =>
      ((List.range (cluster.size role)).map fun q =>
        F (cluster.member g q role) (cluster.place g role * B + c)).sum := by
  subst hC
  apply takes_of_rank hstage
  · intro g hg outputChunks h
    have hout := ok.inj h
    rw [cluster.comm_nRanks, Nat.mul_div_cancel_left B] at hout
    · exact hout.symm
    · exact Nat.zero_lt_of_lt (cluster.place_lt hg role)
  intro edges hold g hg _
  have hplace := cluster.place_lt hg role
  have hvalues : (cluster.members g role).mapM
      (fun q => (edges.getD q default : ValueEdge α β κ m).values?) =
      some ((List.range (cluster.size role)).map fun q =>
        (List.range (cluster.size role * B)).map (F (cluster.member g q role))) := by
    refine mapM_eq_some_of_map ?_
    rw [cluster.members_eq hg, map_map, map_map]
    refine map_congr_left fun q hq => ?_
    exact (hold _ (cluster.member_lt hg (mem_range.mp hq))).values?
  refine ⟨_, ?_, holds_raw codecs B _⟩
  show runReduceScatter _ (cluster.members g (Cluster.role (cluster.comm g role).handle)) edges
    _ = _
  rw [runReduceScatter, role_comm, hvalues, (hold g hg).length, comm_nRanks,
    cluster.comm_rank hg, Nat.mul_div_cancel_left B (by omega)]
  refine congrArg (fun chunks => some (ValueEdge.mk chunks none)) (map_congr_left fun c hc => ?_)
  rw [map_map]
  refine congrArg (fun sum => raw (List.sum sum)) (map_congr_left fun q _ => ?_)
  have hlt := div_add_lt hplace (mem_range.mp hc)
  simp [getD_eq_getElem?_getD, hlt]

/-! ## Lists of stages -/

/-- The stages are accepted, and their reductions are small. -/
def smallReductions (m : ℕ) : List (Stage κ) → ℕ → Bool
  | [], _ => true
  | stage :: rest, chunks =>
    (cocclPipelineStageOutputChunks stage chunks).toOption.any fun outputChunks =>
      stage.smallReduction m outputChunks && smallReductions m rest outputChunks

variable (codecs plugins cluster) in
/-- What a list of stages, run on all ranks, does to what the edges hold. -/
structure Runs (stages : ℕ → List (Stage κ)) (compressor : Option κ) (C : ℕ)
    (F : ℕ → ℕ → Fin m → α) (compressor' : Option κ) (C' : ℕ) (F' : ℕ → ℕ → Fin m → α) : Prop where
  planned : ∀ g < cluster.nRanks, ∀ chunks, stageChunks (stages g) C = .ok chunks →
    chunks.getLastD C = C'
  run : ∀ n, (∀ g < cluster.nRanks, (stages g).length = n) →
    (∀ g < cluster.nRanks, smallReductions m (stages g) C = true) →
    ∀ edges : List (ValueEdge α β κ m), AllHold codecs cluster edges compressor C F →
      ∃ edges', runStages plugins codecs cluster n stages edges = some edges' ∧
        AllHold codecs cluster edges' compressor' C' F'

section

variable {compressor' compressor'' : Option κ} {C C' C'' : ℕ} {F' F'' : ℕ → ℕ → Fin m → α}

/-- No stage left: the values are the expected ones. -/
theorem runs_nil (hcompressor : compressor = compressor') (hC : C = C')
    (hF : ∀ g < cluster.nRanks, ∀ c < C, F g c = F' g c) :
    Runs codecs plugins cluster (fun _ => []) compressor C F compressor' C' F' := by
  subst hcompressor hC
  constructor
  · intro g _ chunks h
    obtain rfl := ok.inj h
    rfl
  intro n hn _ edges hold
  obtain rfl := hn 0 cluster.nRanks_pos
  exact ⟨edges, rfl, fun g hg => (hold g hg).congr (hF g hg)⟩

theorem runs_cons {first : ℕ → Stage κ} {rest : ℕ → List (Stage κ)}
    (hfirst : Takes codecs plugins cluster first compressor C F compressor' C' F')
    (hrest : Runs codecs plugins cluster rest compressor' C' F' compressor'' C'' F'') :
    Runs codecs plugins cluster (fun g => first g :: rest g) compressor C F compressor'' C''
      F'' := by
  constructor
  · intro g hg chunks h
    obtain ⟨output, houtput, h⟩ := bind_eq_ok.mp h
    obtain ⟨outputs, houtputs, h⟩ := bind_eq_ok.mp h
    obtain rfl := ok.inj h
    obtain rfl := hfirst.planned g hg output houtput
    rw [getLastD_cons]
    exact hrest.planned g hg outputs houtputs
  intro n hn hsmall edges hold
  have hstages : ∀ g < cluster.nRanks, (first g).smallReduction m C' = true ∧
      smallReductions m (rest g) C' = true := by
    intro g hg
    obtain ⟨output, houtput, hboth⟩ := exists_of_any (hsmall g hg)
    obtain rfl := hfirst.planned g hg output houtput
    exact Bool.and_eq_true _ _ ▸ hboth
  obtain ⟨edges₁, hedges₁, hold₁⟩ := hfirst.run (fun g hg => (hstages g hg).1) edges hold
  cases n with
  | zero => exact absurd (hn 0 cluster.nRanks_pos) (Nat.succ_ne_zero _)
  | succ n =>
    obtain ⟨edges₂, hedges₂, hold₂⟩ :=
      hrest.run n (fun g hg => Nat.succ.inj (hn g hg)) (fun g hg => (hstages g hg).2) edges₁ hold₁
    refine ⟨edges₂, ?_, hold₂⟩
    simp only [runStages, head?_cons, tail_cons, hedges₁]
    exact hedges₂

/-- The stages of the cluster's ranks alone matter. -/
theorem runStages_congr {n : ℕ} {stages stages' : ℕ → List (Stage κ)}
    (h : ∀ g < cluster.nRanks, stages g = stages' g) (edges : List (ValueEdge α β κ m)) :
    runStages plugins codecs cluster n stages edges =
      runStages plugins codecs cluster n stages' edges := by
  induction n generalizing stages stages' edges with
  | zero => rfl
  | succ n ih =>
    have hhead : runStageAll plugins codecs cluster (fun g => (stages g).head?) edges =
        runStageAll plugins codecs cluster (fun g => (stages' g).head?) edges :=
      mapM_congr fun g hg => by simp only [h g (mem_range.mp hg)]
    rw [runStages, runStages, hhead]
    exact bind_congr fun edges' => ih (fun g hg => by rw [h g hg]) edges'

end

end

end Coccl
