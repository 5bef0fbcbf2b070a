import Coccl.Training.PairLoop

/-!
# The evidence in the end

The evidence that decides the roles, for any order in which the communicators are visited
(`orderedEvidence`): with pipeline-parallel evidence a communicator keeps what its own calls gave
it, with data-parallel evidence what the loop over pairs left it with, and the others may be raised
once more.
-/

namespace Coccl

open Enumerations List

/-! ## What the calls of each communicator give -/

variable {id : ℕ}

section

variable {α β : Type*}

/-- A table filled entry by entry, where no two entries have one key. -/
theorem foldl_update_apply {key : α → ℕ} {entry : α → β → β} {l : List α}
    (hnodup : (l.map key).Nodup) {a : α} (ha : a ∈ l) (table : ℕ → β) :
    l.foldl (fun table a => Function.update table (key a) (entry a (table (key a)))) table (key a) =
      entry a (table (key a)) := by
  have hkept : ∀ (l : List α) (k : ℕ) (table : ℕ → β), k ∉ l.map key →
      l.foldl (fun table a => Function.update table (key a) (entry a (table (key a)))) table k =
        table k := by
    intro l
    induction l with
    | nil => exact fun k table _ => rfl
    | cons b l ih =>
      intro k table hk
      rw [map_cons, mem_cons, not_or] at hk
      rw [foldl_cons, ih k _ hk.2, Function.update_of_ne hk.1]
  induction l generalizing table with
  | nil => cases ha
  | cons b l ih =>
    obtain ⟨hb, hl⟩ := nodup_cons.mp hnodup
    rw [foldl_cons]
    rcases mem_cons.mp ha with rfl | hmem
    · rw [hkept l _ _ hb, Function.update_self]
    · have hne : key a ≠ key b := fun heq => hb (heq ▸ mem_map_of_mem hmem)
      rw [ih hl hmem, Function.update_of_ne hne]

variable {communicators : List TraceComm}

theorem nodup_traceIds : (traceIds communicators).Nodup :=
  (mergeSort_perm _ _).nodup_iff.mpr (nodup_dedup _)

theorem mem_traceIds : id ∈ traceIds communicators ↔ id ∈ communicators.map (·.communicatorId) :=
  (mergeSort_perm _ _).mem_iff.trans mem_dedup

variable [Doubles] {communicators : List TraceComm} {events : List TraceEvent}
  {iterations : List IterationRange} {targetIterations : ℤ} {config : TrainingConfig}
  {comm : TraceComm}

theorem initialEvidence_eq (hnodup : (communicators.map (·.communicatorId)).Nodup)
    (hcomm : comm ∈ communicators) :
    initialEvidence communicators events iterations targetIterations config comm.communicatorId =
      evidenceAlone config (calibrationCoverage iterations targetIterations)
        (buildCommStats comm events iterations) noEvidence :=
  @foldl_update_apply _ _ TraceComm.communicatorId _ _ hnodup comm hcomm fun _ => noEvidence

theorem statsById_eq (hnodup : (communicators.map (·.communicatorId)).Nodup)
    (hcomm : comm ∈ communicators) :
    statsById communicators events iterations comm.communicatorId =
      buildCommStats comm events iterations := by
  have hfind : communicators.reverse.find? (fun c => c.communicatorId = comm.communicatorId) =
      some comm := by
    have hsome : (communicators.reverse.find? fun c =>
        c.communicatorId = comm.communicatorId).isSome = true :=
      find?_isSome.mpr ⟨comm, mem_reverse.mpr hcomm, by simp⟩
    obtain ⟨found, hfound⟩ := Option.isSome_iff_exists.mp hsome
    have hmem := mem_reverse.mp (mem_of_find?_eq_some hfound)
    have hid : found.communicatorId = comm.communicatorId := by
      simpa using find?_some hfound
    rw [hfound, inj_on_of_nodup_map hnodup hmem hcomm hid]
  rw [statsById, hfind]

end

/-! ## An order of the communicators -/

section

variable [Doubles] (coverage : ℚ) (stats : ℕ → CommStats) (relation : ℕ → ℕ → ℚ)
  (interior : ℕ → ℚ) (start : ℕ → Evidence)

/-- The evidence when the roles are decided, for an order of the communicators. -/
def orderedEvidence (ids : List ℕ) : ℕ → Evidence :=
  let evidence := pairLoop stats relation ids start
  let evidence := fun id => interiorEvidence (stats id) (interior id) (evidence id)
  if ids.any fun id => roleEvidenceThreshold ≤ (evidence id).dp then
    fun id => besideDpEvidence coverage (stats id) (evidence id)
  else evidence

/-- The communicators that have data-parallel evidence only once the loop has seen one they are a
sparse tail of. -/
def Late (ids : List ℕ) (comm : ℕ) : Prop :=
  (start comm).pp < ppEvidenceThreshold ∧ (start comm).dp < roleEvidenceThreshold ∧
    ∃ other ∈ ids, eligible stats relation start comm other = true ∧ tailOf stats comm other = true

variable {coverage stats relation interior start} {ids : List ℕ} {comm : ℕ}

@[simp] theorem dp_interiorEvidence (stats : CommStats) (interior : ℚ) (evidence : Evidence) :
    (interiorEvidence stats interior evidence).dp = evidence.dp := by
  unfold interiorEvidence
  split <;> rfl

@[simp] theorem pp_interiorEvidence (stats : CommStats) (interior : ℚ) (evidence : Evidence) :
    (interiorEvidence stats interior evidence).pp = evidence.pp := by
  unfold interiorEvidence
  split <;> rfl

variable {evidence : Evidence}

theorem interiorEvidence_of_marked {stats : CommStats} {interior : ℚ}
    (h : ppEvidenceThreshold ≤ evidence.pp ∨ roleEvidenceThreshold ≤ evidence.dp) :
    interiorEvidence stats interior evidence = evidence :=
  if_pos (.inr (h.imp_right .inl))

theorem besideDpEvidence_of_marked {stats : CommStats}
    (h : ppEvidenceThreshold ≤ evidence.pp ∨ roleEvidenceThreshold ≤ evidence.dp) :
    besideDpEvidence coverage stats evidence = evidence := by
  refine if_neg fun hall => ?_
  rcases h with h | h
  · exact absurd hall.2.2.1 (not_lt.mpr h)
  · exact absurd hall.2.1 (not_lt.mpr h)

/-- A communicator whose own calls gave it data-parallel evidence. -/
theorem afterRows_of_seeded (hmem : comm ∈ ids) (h : roleEvidenceThreshold ≤ (start comm).dp) :
    afterRows stats relation start ids ids comm = { start comm with
      orderAsDp := maxFrom (start comm).orderAsDp
        ((partners stats relation start ids comm).map (relation comm)) } := by
  have hraisers : raisers stats relation start ids ids comm = [] :=
    if_neg fun hall => absurd hall.1 (not_lt.mpr h)
  simp only [afterRows, hraisers, if_pos hmem, markedDp_of_seeded h, map_nil, maxFrom_nil]

section

variable (hnodup : ids.Nodup)

include hnodup

theorem orderedEvidence_eq (comm : ℕ) :
    orderedEvidence coverage stats relation interior start ids comm =
      let evidence := interiorEvidence (stats comm) (interior comm)
        (afterRows stats relation start ids ids comm)
      if ids.any fun id => roleEvidenceThreshold ≤ (afterRows stats relation start ids ids id).dp
      then besideDpEvidence coverage (stats comm) evidence else evidence := by
  simp only [orderedEvidence, pairLoop_eq hnodup, dp_interiorEvidence]
  split <;> rfl

/-- Evidence for another role is not raised any more. -/
theorem orderedEvidence_of_marked (h : ppEvidenceThreshold ≤ (start comm).pp ∨
      roleEvidenceThreshold ≤ (afterRows stats relation start ids ids comm).dp) :
    orderedEvidence coverage stats relation interior start ids comm =
      afterRows stats relation start ids ids comm := by
  have hinterior : interiorEvidence (stats comm) (interior comm)
      (afterRows stats relation start ids ids comm) =
        afterRows stats relation start ids ids comm := interiorEvidence_of_marked h
  rw [orderedEvidence_eq hnodup, hinterior]
  exact (congrArg (ite _ · _) (besideDpEvidence_of_marked h)).trans (ite_self _)

theorem dp_orderedEvidence : (orderedEvidence coverage stats relation interior start ids comm).dp =
      (afterRows stats relation start ids ids comm).dp := by
  rw [orderedEvidence_eq hnodup]
  simp only
  split
  · unfold besideDpEvidence
    split <;> exact dp_interiorEvidence _ _ _
  · exact dp_interiorEvidence _ _ _

theorem pp_orderedEvidence :
    (orderedEvidence coverage stats relation interior start ids comm).pp = (start comm).pp := by
  rw [orderedEvidence_eq hnodup]
  simp only
  split
  · unfold besideDpEvidence
    split <;> exact pp_interiorEvidence _ _ _
  · exact pp_interiorEvidence _ _ _

/-- What tensor-parallel evidence is raised to. -/
theorem tp_orderedEvidence_le {bound : ℚ}
    (htp : (afterRows stats relation start ids ids comm).tp ≤ bound)
    (hinterior : interior comm ≤ bound)
    (hcoverage : toDouble (toDouble (6 / 10) * coverage) ≤ bound) :
    (orderedEvidence coverage stats relation interior start ids comm).tp ≤ bound := by
  have hbetween : (interiorEvidence (stats comm) (interior comm)
      (afterRows stats relation start ids ids comm)).tp ≤ bound := by
    unfold interiorEvidence
    split
    · exact htp
    · exact max_le htp hinterior
  rw [orderedEvidence_eq hnodup]
  simp only
  split
  · unfold besideDpEvidence
    split
    · exact max_le hbetween hcoverage
    · exact hbetween
  · exact hbetween

theorem le_tp_orderedEvidence : (afterRows stats relation start ids ids comm).tp ≤
      (orderedEvidence coverage stats relation interior start ids comm).tp := by
  have hbetween : (afterRows stats relation start ids ids comm).tp ≤
      (interiorEvidence (stats comm) (interior comm)
        (afterRows stats relation start ids ids comm)).tp := by
    unfold interiorEvidence
    split
    · exact le_rfl
    · exact le_max_left _ _
  rw [orderedEvidence_eq hnodup]
  simp only
  split
  · unfold besideDpEvidence
    split
    · exact hbetween.trans (le_max_left _ _)
    · exact hbetween
  · exact hbetween

end

/-! ## Bounds -/

theorem calibrationCoverage_mem (iterations : List IterationRange) (targetIterations : ℤ) :
    0 ≤ calibrationCoverage iterations targetIterations ∧
      calibrationCoverage iterations targetIterations ≤ 1 := by
  unfold calibrationCoverage
  split
  · exact ⟨le_rfl, zero_le_one⟩
  · next h =>
    have hpos : (0 : ℚ) < targetIterations := by exact_mod_cast not_le.mp h
    exact ⟨le_min zero_le_one (toDouble_nonneg (by positivity)), min_le_left _ _⟩

theorem share_countP_le {α : Type*} (p : α → Bool) (l : List α) :
    share (l.countP p) l.length ≤ 1 :=
  toDouble_le_one (div_le_one_of_le₀ (by exact_mod_cast countP_le_length) (Nat.cast_nonneg _))

theorem orderRelationSupport_le_one (dpComm tpComm : ℕ) (events : List TraceEvent)
    (iterations : List IterationRange) :
    orderRelationSupport dpComm tpComm events iterations ≤ 1 := by
  unfold orderRelationSupport
  split
  · exact zero_le_one
  · exact share_countP_le _ _

theorem ppInteriorSupport_le_one (comm : ℕ) (ppComms : List ℕ) (events : List TraceEvent)
    (iterations : List IterationRange) :
    ppInteriorSupport comm ppComms events iterations ≤ 1 := by
  unfold ppInteriorSupport
  split
  · exact zero_le_one
  · exact share_countP_le _ _

/-- A share that is weighted with the coverage. -/
theorem toDouble_mul_coverage_le_one {x : ℚ} (h : x ≤ 1) (iterations : List IterationRange)
    (targetIterations : ℤ) : toDouble (x * calibrationCoverage iterations targetIterations)
      ≤ 1 := by
  obtain ⟨hnonneg, hle⟩ := calibrationCoverage_mem iterations targetIterations
  exact toDouble_le_one (mul_le_one₀ h hnonneg hle)

theorem relationOf_le_one (events : List TraceEvent) (iterations : List IterationRange)
    (targetIterations : ℤ) (dpComm tpComm : ℕ) :
    relationOf events iterations targetIterations dpComm tpComm ≤ 1 :=
  toDouble_mul_coverage_le_one (orderRelationSupport_le_one _ _ _ _) _ _

end

/-! ## The classifier -/

theorem lookup_map_key {β : Type*} {ids : List ℕ} {value : ℕ → β} (h : id ∈ ids) :
    (ids.map fun id => (id, value id)).lookup id = some (value id) := by
  induction ids with
  | nil => cases h
  | cons head ids ih =>
    rw [map_cons, lookup_cons]
    by_cases hhead : id = head
    · simp [hhead]
    · rw [beq_false_of_ne hhead]
      exact ih ((mem_cons.mp h).resolve_left hhead)

section

variable [Doubles] (communicators : List TraceComm) (events : List TraceEvent)
  (iterations : List IterationRange) (targetIterations : ℤ) (config : TrainingConfig)

/-- The evidence that a communicator is inside the pipeline. -/
def interiorOf (comm : ℕ) : ℚ :=
  toDouble (ppInteriorSupport comm ((traceIds communicators).filter fun id => ppEvidenceThreshold ≤
      (initialEvidence communicators events iterations targetIterations config id).pp)
    events iterations * calibrationCoverage iterations targetIterations)

theorem finalEvidence_eq : finalEvidence communicators events iterations targetIterations config =
      orderedEvidence (calibrationCoverage iterations targetIterations)
        (statsById communicators events iterations)
        (relationOf events iterations targetIterations)
        (interiorOf communicators events iterations targetIterations config)
        (initialEvidence communicators events iterations targetIterations config)
        (traceIds communicators) := rfl

variable {communicators events iterations targetIterations config}

theorem interiorOf_le_one (comm : ℕ) :
    interiorOf communicators events iterations targetIterations config comm ≤ 1 :=
  toDouble_mul_coverage_le_one (ppInteriorSupport_le_one _ _ _ _) _ _

/-- The result of a communicator. -/
theorem lookup_classifyTrace (h : id ∈ traceIds communicators) :
    (cocclTrainingClassifyTrace communicators events iterations targetIterations config).lookup id =
      some (classificationOf (statsById communicators events iterations id)
        (finalEvidence communicators events iterations targetIterations config id)) :=
  lookup_map_key h

end

end Coccl
