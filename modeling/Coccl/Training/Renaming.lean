import Coccl.Training.OrderFree

/-!
# Renumbered communicators

The classifier sees the numbers of the communicators only through their order: renumbered ones are
classified as the original ones in another order (`classifyTrace_rename`), and every order comes
about by renumbering.
-/

namespace Coccl

open Enumerations List Function

def TraceComm.rename (rename : ℕ → ℕ) (comm : TraceComm) : TraceComm :=
  { comm with communicatorId := rename comm.communicatorId }

def TraceEvent.rename (rename : ℕ → ℕ) (event : TraceEvent) : TraceEvent :=
  { event with communicatorId := rename event.communicatorId }

/-- Statistics of one communicator under two numbers. -/
def CommStats.Alike (stats stats' : CommStats) : Prop :=
  ∃ id, stats' = { stats with descriptor := { stats.descriptor with communicatorId := id } }

/-! ## What the statistics see -/

section

variable {rename : ℕ → ℕ} (hrename : Function.Injective rename) (events : List TraceEvent)
  (iterations : List IterationRange)

include hrename in
theorem callsOf_rename (id : ℕ) :
    callsOf (rename id) (events.map (TraceEvent.rename rename)) = callsOf id events := by
  rw [callsOf, filterMap_map]
  refine filterMap_congr fun event _ => ?_
  simp only [comp_apply, TraceEvent.rename, hrename.eq_iff]

theorem rangeEvents_rename (range : IterationRange) :
    rangeEvents (events.map (TraceEvent.rename rename)) range =
      (rangeEvents events range).map (TraceEvent.rename rename) := by
  rw [rangeEvents, ← map_take, ← map_drop, rangeEvents]

variable [Doubles]

include hrename in
theorem buildCommStats_rename (comm : TraceComm) :
    CommStats.Alike (buildCommStats comm events iterations)
      (buildCommStats (comm.rename rename) (events.map (TraceEvent.rename rename)) iterations) := by
  refine ⟨rename comm.communicatorId, ?_⟩
  unfold buildCommStats
  simp only [TraceComm.rename, rangeEvents_rename, callsOf_rename hrename]
  rfl

include hrename in
theorem orderRelationSupport_rename (dpComm tpComm : ℕ) :
    orderRelationSupport (rename dpComm) (rename tpComm)
        (events.map (TraceEvent.rename rename)) iterations =
      orderRelationSupport dpComm tpComm events iterations := by
  have hpair : ∀ events, pairEvents (rename dpComm) (rename tpComm)
      (events.map (TraceEvent.rename rename)) = pairEvents dpComm tpComm events := by
    intro events
    simp only [pairEvents, map_map, comp_def, TraceEvent.rename, hrename.eq_iff]
  simp only [orderRelationSupport, rangeEvents_rename, hpair]

include hrename in
theorem ppInteriorSupport_rename (comm : ℕ) {ppComms ppComms' : List ℕ}
    (hperm : ppComms'.Perm (ppComms.map rename)) :
    ppInteriorSupport (rename comm) ppComms' (events.map (TraceEvent.rename rename)) iterations =
      ppInteriorSupport comm ppComms events iterations := by
  have hmem : ∀ id, rename id ∈ ppComms' ↔ id ∈ ppComms := fun id => by
    rw [hperm.mem_iff, mem_map_of_injective hrename]
  have hinterior : ∀ events, interiorEvents (rename comm) ppComms'
      (events.map (TraceEvent.rename rename)) = interiorEvents comm ppComms events := by
    intro events
    simp only [interiorEvents, map_map, comp_def, TraceEvent.rename, hrename.eq_iff, hmem]
  have hnil : ppComms' = [] ↔ ppComms = [] := by
    rw [← length_eq_zero_iff, hperm.length_eq, length_map, length_eq_zero_iff]
  simp only [ppInteriorSupport, rangeEvents_rename, hinterior, hnil]

end

/-! ## What the loops see -/

section

variable {rename : ℕ → ℕ} (hrename : Function.Injective rename)
  {stats stats' : ℕ → CommStats} (hstats : ∀ id, (stats id).Alike (stats' (rename id)))
  {relation relation' : ℕ → ℕ → ℚ}
  (hrelation : ∀ a b, relation' (rename a) (rename b) = relation a b)

/-- A table of renamed keys, filled in step with the table of the original ones. -/
theorem foldl_comp_rename {α β : Type*} {f f' : (ℕ → β) → α → ℕ → β} {key : α → α}
    (h : ∀ table' table a, table' ∘ rename = table → f' table' (key a) ∘ rename = f table a)
    (l : List α) {table table' : ℕ → β} (htable : table' ∘ rename = table) :
    (l.map key).foldl f' table' ∘ rename = l.foldl f table := by
  induction l generalizing table table' with
  | nil => exact htable
  | cons a l ih => exact ih (h table' table a htable)

variable {s s' : CommStats}

theorem denseEnough_alike (h : s.Alike s') : denseEnough s' = denseEnough s := by
  obtain ⟨id, rfl⟩ := h
  rfl

theorem nNodes_alike (h : s.Alike s') : s'.descriptor.nNodes = s.descriptor.nNodes := by
  obtain ⟨id, rfl⟩ := h
  rfl

variable [Doubles]

theorem sparseTail_alike {dp dp' tp tp' : CommStats} (hdp : dp.Alike dp') (htp : tp.Alike tp') :
    sparseTail dp' tp' = sparseTail dp tp := by
  obtain ⟨id, rfl⟩ := hdp
  obtain ⟨id', rfl⟩ := htp
  rfl

include hrename hstats hrelation in
theorem pairStep_rename (dpComm : ℕ) (evidence' evidence : ℕ → Evidence) (tpComm : ℕ)
    (hevidence : evidence' ∘ rename = evidence) :
    pairStep stats' relation' (rename dpComm) evidence' (rename tpComm) ∘ rename =
      pairStep stats relation dpComm evidence tpComm := by
  have hat : ∀ comm, evidence' (rename comm) = evidence comm := congrFun hevidence
  have hlooked : eligible stats' relation' evidence' (rename dpComm) (rename tpComm) =
      eligible stats relation evidence dpComm tpComm := by
    simp only [eligible, ne_eq, hrename.eq_iff, hat, hrelation, nNodes_alike (hstats tpComm)]
  have htail : tailOf stats' (rename dpComm) (rename tpComm) = tailOf stats dpComm tpComm :=
    sparseTail_alike (hstats dpComm) (hstats tpComm)
  have hafter : ∀ dp, afterRow stats' relation' evidence' (rename dpComm) [rename tpComm] dp ∘
      rename = afterRow stats relation evidence dpComm [tpComm] dp := by
    intro dp
    funext comm
    simp only [comp_apply, afterRow, hrename.eq_iff, hat, mem_singleton, hrelation,
      denseEnough_alike (hstats comm), map_cons, map_nil]
  cases h : eligible stats relation evidence dpComm tpComm with
  | false =>
    rw [pairStep_of_not_eligible h, pairStep_of_not_eligible (hlooked.trans h), hevidence]
  | true =>
    rw [pairStep_of_eligible h, pairStep_of_eligible (hlooked.trans h), htail, hat, hrelation]
    split
    · exact hafter _
    · split
      · exact hafter _
      · exact hevidence

include hrename hstats hrelation in
theorem pairLoop_rename (ids : List ℕ) {evidence' evidence : ℕ → Evidence}
    (hevidence : evidence' ∘ rename = evidence) :
    pairLoop stats' relation' (ids.map rename) evidence' ∘ rename =
      pairLoop stats relation ids evidence := by
  refine foldl_comp_rename (fun evidence' evidence dpComm hevidence => ?_) ids hevidence
  have hat : evidence' (rename dpComm) = evidence dpComm := congrFun hevidence dpComm
  unfold pairRow
  rw [hat]
  split
  · exact hevidence
  · exact foldl_comp_rename (pairStep_rename hrename hstats hrelation dpComm) ids hevidence

theorem interiorEvidence_alike (h : s.Alike s') (interior : ℚ) (evidence : Evidence) :
    interiorEvidence s' interior evidence = interiorEvidence s interior evidence := by
  obtain ⟨id, rfl⟩ := h
  rfl

theorem besideDpEvidence_alike (h : s.Alike s') (coverage : ℚ) (evidence : Evidence) :
    besideDpEvidence coverage s' evidence = besideDpEvidence coverage s evidence := by
  obtain ⟨id, rfl⟩ := h
  rfl

theorem classificationOf_alike (h : s.Alike s') (evidence : Evidence) :
    classificationOf s' evidence = classificationOf s evidence := by
  obtain ⟨id, rfl⟩ := h
  rfl

include hrename hstats hrelation in
/-- Renamed communicators are classified as the original ones in the order of their new names. -/
theorem orderedResult_rename {coverage : ℚ} {interior interior' : ℕ → ℚ}
    (hinterior : ∀ comm, interior' (rename comm) = interior comm) (ids : List ℕ)
    {evidence' evidence : ℕ → Evidence} (hevidence : evidence' ∘ rename = evidence) (comm : ℕ) :
    orderedResult coverage stats' relation' interior' evidence' (ids.map rename) (rename comm) =
      orderedResult coverage stats relation interior evidence ids comm := by
  have hloop : ∀ comm, pairLoop stats' relation' (ids.map rename) evidence' (rename comm) =
      pairLoop stats relation ids evidence comm :=
    congrFun (pairLoop_rename hrename hstats hrelation ids hevidence)
  have hordered : orderedEvidence coverage stats' relation' interior' evidence' (ids.map rename)
      (rename comm) = orderedEvidence coverage stats relation interior evidence ids comm := by
    simp only [orderedEvidence, any_map, comp_def, hloop, hinterior,
      interiorEvidence_alike (hstats _)]
    split
    · simp only [besideDpEvidence_alike (hstats comm), interiorEvidence_alike (hstats comm), hloop,
        hinterior]
    · simp only [interiorEvidence_alike (hstats comm), hloop, hinterior]
  rw [orderedResult, hordered, classificationOf_alike (hstats comm), orderedResult]

end

/-! ## The classifier -/

section

variable [Doubles] (rename : ℕ → ℕ) (communicators : List TraceComm) (events : List TraceEvent)
  (iterations : List IterationRange) (targetIterations : ℤ) (config : TrainingConfig)

/-- The classification for an order of the communicators. -/
def traceResult (order : List ℕ) (comm : ℕ) : Classification :=
  orderedResult (calibrationCoverage iterations targetIterations)
    (statsById communicators events iterations) (relationOf events iterations targetIterations)
    (interiorOf communicators events iterations targetIterations config)
    (initialEvidence communicators events iterations targetIterations config) order comm

theorem classifyTrace_eq :
    cocclTrainingClassifyTrace communicators events iterations targetIterations config =
      (traceIds communicators).map fun id =>
        (id, traceResult communicators events iterations targetIterations config
          (traceIds communicators) id) := rfl

variable {rename communicators events iterations targetIterations config}

section

variable (hrename : Function.Injective rename)

include hrename

theorem statsById_rename (id : ℕ) : (statsById communicators events iterations id).Alike
      (statsById (communicators.map (TraceComm.rename rename))
        (events.map (TraceEvent.rename rename)) iterations (rename id)) := by
  have hfind : (communicators.map (TraceComm.rename rename)).reverse.find?
      (fun comm => comm.communicatorId = rename id) =
        (communicators.reverse.find? fun comm => comm.communicatorId = id).map
          (TraceComm.rename rename) := by
    rw [← map_reverse, find?_map]
    simp only [comp_def, TraceComm.rename, hrename.eq_iff]
  unfold statsById
  rw [hfind]
  cases communicators.reverse.find? fun comm => comm.communicatorId = id with
  | none => exact ⟨0, rfl⟩
  | some comm => exact buildCommStats_rename hrename events iterations comm

theorem initialEvidence_rename : initialEvidence (communicators.map (TraceComm.rename rename))
        (events.map (TraceEvent.rename rename)) iterations targetIterations config ∘ rename =
      initialEvidence communicators events iterations targetIterations config := by
  refine foldl_comp_rename (fun table' table comm htable => ?_) communicators rfl
  have hat : table' (rename comm.communicatorId) = table comm.communicatorId :=
    congrFun htable comm.communicatorId
  obtain ⟨id, hstats⟩ := buildCommStats_rename hrename events iterations comm
  show update table' (rename comm.communicatorId) _ ∘ rename = _
  rw [update_comp_eq_of_injective _ hrename, htable, hstats]
  refine congrArg (update table comm.communicatorId) ?_
  show evidenceAlone config _ _ (table' (rename comm.communicatorId)) = _
  rw [hat]
  rfl

omit [Doubles] in
theorem traceIds_rename : traceIds (communicators.map (TraceComm.rename rename)) =
      ((traceIds communicators).map rename).mergeSort := by
  have hids : (communicators.map (TraceComm.rename rename)).map (·.communicatorId) =
      (communicators.map (·.communicatorId)).map rename := by
    rw [map_map, map_map]
    rfl
  rw [traceIds, hids, dedup_map_of_injective hrename]
  refine List.Perm.eq_of_pairwise (fun a b _ _ => le_antisymm)
    (pairwise_mergeSort' (· ≤ ·) _) (pairwise_mergeSort' (· ≤ ·) _) ?_
  exact (mergeSort_perm _ _).trans (((mergeSort_perm _ _).map rename).symm.trans
    (mergeSort_perm _ _).symm)

theorem interiorOf_rename (comm : ℕ) : interiorOf (communicators.map (TraceComm.rename rename))
        (events.map (TraceEvent.rename rename)) iterations targetIterations config (rename comm) =
      interiorOf communicators events iterations targetIterations config comm := by
  have hat : ∀ id, initialEvidence (communicators.map (TraceComm.rename rename))
      (events.map (TraceEvent.rename rename)) iterations targetIterations config (rename id) =
        initialEvidence communicators events iterations targetIterations config id :=
    congrFun (initialEvidence_rename hrename)
  unfold interiorOf
  refine congrArg (toDouble <| · * _) (ppInteriorSupport_rename hrename events iterations comm ?_)
  rw [traceIds_rename hrename]
  refine ((mergeSort_perm _ _).filter _).trans ?_
  rw [filter_map]
  simp only [comp_def, hat]
  exact List.Perm.refl _

/-- **Renumbered communicators** are classified as the original ones in the order of their new
numbers. -/
theorem classifyTrace_rename {order : List ℕ}
    (horder : ((traceIds communicators).map rename).mergeSort = order.map rename) :
    cocclTrainingClassifyTrace (communicators.map (TraceComm.rename rename))
        (events.map (TraceEvent.rename rename)) iterations targetIterations config =
      order.map fun id => (rename id,
        traceResult communicators events iterations targetIterations config order id) := by
  rw [classifyTrace_eq, traceIds_rename hrename, horder, map_map]
  refine map_congr_left fun id _ => ?_
  refine congrArg (Prod.mk (rename id)) ?_
  exact orderedResult_rename hrename (statsById_rename hrename)
    (fun a b => congrArg (toDouble <| · * _)
      (orderRelationSupport_rename hrename events iterations a b))
    (interiorOf_rename hrename) order (initialEvidence_rename hrename) id

end

variable (communicators events iterations targetIterations config) in
/-- Under every renumbering each communicator keeps its classification. -/
def RenamingInvariant : Prop :=
  ∀ rename : ℕ → ℕ, Function.Injective rename →
    (cocclTrainingClassifyTrace (communicators.map (TraceComm.rename rename))
      (events.map (TraceEvent.rename rename)) iterations targetIterations config).Perm
        ((cocclTrainingClassifyTrace communicators events iterations targetIterations config).map
          fun result => (rename result.1, result.2))

variable (communicators events iterations targetIterations config) in
/-- The order of the communicators makes no difference to the loop over pairs. -/
def TraceOrderFree : Prop :=
  OrderFree (statsById communicators events iterations)
    (relationOf events iterations targetIterations)
    (interiorOf communicators events iterations targetIterations config)
    (initialEvidence communicators events iterations targetIterations config)
    (traceIds communicators)

/-- Renumberings are orders. -/
theorem renamingInvariant_iff_constant :
    RenamingInvariant communicators events iterations targetIterations config ↔
      ∀ order order', order.Perm (traceIds communicators) →
        order'.Perm (traceIds communicators) → ∀ comm ∈ traceIds communicators,
          traceResult communicators events iterations targetIterations config order comm =
            traceResult communicators events iterations targetIterations config order' comm := by
  constructor
  · intro h
    have hsame : ∀ order, order.Perm (traceIds communicators) → ∀ comm ∈ traceIds communicators,
        traceResult communicators events iterations targetIterations config order comm =
          traceResult communicators events iterations targetIterations config
            (traceIds communicators) comm := by
      intro order horder comm hcomm
      have hnodup := horder.nodup_iff.mpr (@nodup_traceIds communicators)
      have hinj := number_injective order
      have hperm := h (number order) hinj
      rw [classifyTrace_rename hinj (mergeSort_map_number hnodup horder), classifyTrace_eq,
        map_map] at hperm
      obtain ⟨other, -, heq⟩ := mem_map.mp (hperm.mem_iff.mp
        (mem_map_of_mem (horder.mem_iff.mpr hcomm)))
      obtain ⟨hid, hresult⟩ := Prod.mk.inj heq
      obtain rfl : other = comm := hinj hid
      exact hresult.symm
    intro order order' horder horder' comm hcomm
    rw [hsame order horder comm hcomm, hsame order' horder' comm hcomm]
  · intro h rename hrename
    obtain ⟨order, horder, hsorted⟩ := exists_enumeration hrename (traceIds communicators)
    rw [classifyTrace_rename hrename hsorted, classifyTrace_eq, map_map]
    have hresults : (order.map fun id => (rename id, traceResult communicators events iterations
        targetIterations config order id)) = order.map fun id => (rename id,
          traceResult communicators events iterations targetIterations config
            (traceIds communicators) id) := by
      refine map_congr_left fun id hid => ?_
      rw [h order (traceIds communicators) horder (List.Perm.refl _) id (horder.mem_iff.mp hid)]
    rw [hresults]
    exact horder.map _

theorem initialEvidence_unordered :
    Unordered (initialEvidence communicators events iterations targetIterations config) := by
  unfold initialEvidence
  induction communicators using reverseRecOn with
  | nil => exact fun comm => ⟨rfl, rfl⟩
  | append_singleton communicators new ih =>
    intro comm
    rw [foldl_concat]
    by_cases hcomm : comm = new.communicatorId
    · rw [hcomm, update_self]
      unfold evidenceAlone
      split <;> first | exact ih new.communicatorId | (split <;> exact ih new.communicatorId)
    · rw [update_of_ne hcomm]
      exact ih comm

/-- **Classification under renumbering.** Each communicator keeps its classification under every
injective renumbering exactly when the order makes no difference to what the loop over pairs
reads. -/
theorem renamingInvariant_iff :
    RenamingInvariant communicators events iterations targetIterations config ↔
      TraceOrderFree communicators events iterations targetIterations config :=
  renamingInvariant_iff_constant.trans
    (orderedResult_constant_iff initialEvidence_unordered nodup_traceIds)

end

/-! ## Three communicators -/

section

attribute [local instance] exactDoubles

/-- Nothing is known of the communicators but their calls. -/
def ddpConfig : TrainingConfig := ⟨1, 1, 1, 1, .ddp, false⟩

/-- Three communicators of one node. -/
def chainComms : List TraceComm := [⟨1, 8, 1⟩, ⟨2, 8, 1⟩, ⟨3, 8, 1⟩]

def chainCall (communicatorId : ℕ) : TraceEvent := ⟨communicatorId, .allReduce, 1, 0, 0⟩

/-- Three calls of the third one, two of the second, and one of the first. -/
def chainEvents : List TraceEvent :=
  [chainCall 3, chainCall 3, chainCall 3, chainCall 2, chainCall 2, chainCall 1]

/-- What the trace says of the three. -/
def chainStats : ℕ → CommStats := statsById chainComms chainEvents [⟨0, 6⟩]

def chainRelation : ℕ → ℕ → ℚ := relationOf chainEvents [⟨0, 6⟩] 1

def chainStart : ℕ → Evidence := initialEvidence chainComms chainEvents [⟨0, 6⟩] 1 ddpConfig

theorem chainStats_calls : (chainStats 1).callsPerIteration = 1 ∧
    (chainStats 2).callsPerIteration = 2 ∧ (chainStats 3).callsPerIteration = 3 :=
  ⟨median_singleton 1, median_singleton 2, median_singleton 3⟩

theorem chainStats_bytes : (chainStats 1).medianBytes = 1 ∧ (chainStats 2).medianBytes = 1 ∧
    (chainStats 3).medianBytes = 1 := by
  have hsorted : ∀ l : List ℕ, l.Pairwise (· ≤ ·) → l.mergeSort = l := fun l h =>
    mergeSort_of_pairwise (h.imp fun h => by simpa using h)
  refine ⟨median_singleton 1, ?_, ?_⟩
  · show median [1, 1] = 1
    rw [median, hsorted [1, 1] (by decide)]
    rfl
  · show median [1, 1, 1] = 1
    rw [median, hsorted [1, 1, 1] (by decide)]
    rfl

/-- The first one is a sparse tail of the second, and this one of the third. -/
theorem chain_tails : Tail chainStats chainRelation chainStart 1 2 ∧
    Tail chainStats chainRelation chainStart 2 3 := by
  obtain ⟨hcalls, hcalls', hcalls''⟩ := chainStats_calls
  obtain ⟨hbytes, hbytes', hbytes''⟩ := chainStats_bytes
  refine ⟨⟨by decide +kernel, ?_⟩, by decide +kernel, ?_⟩
  · rw [tailOf, sparseTail, hcalls, hcalls', hbytes, hbytes']
    decide +kernel
  · rw [tailOf, sparseTail, hcalls', hcalls'', hbytes', hbytes'']
    decide +kernel

/-- If the row of the first one comes before that of the second, the second one is not taken for a
data-parallel communicator. -/
theorem chain_not_renamingInvariant :
    ¬ RenamingInvariant chainComms chainEvents [⟨0, 6⟩] 1 ddpConfig := by
  intro h
  have hfree := (orderedResult_constant_iff initialEvidence_unordered nodup_traceIds).mp
    (renamingInvariant_iff_constant.mp h)
  have hmem : ∀ id ∈ [1, 2, 3], id ∈ traceIds chainComms := fun id hid => mem_traceIds.mpr hid
  have hlate : ∀ id other, Tail chainStats chainRelation chainStart id other →
      (chainStart id).pp < ppEvidenceThreshold ∧ (chainStart id).dp < roleEvidenceThreshold →
      other ∈ traceIds chainComms →
      Late chainStats chainRelation chainStart (traceIds chainComms) id :=
    fun id other htail hstart hother => ⟨hstart.1, hstart.2, other, hother, htail⟩
  obtain ⟨htail, htail'⟩ := chain_tails
  have hfirst := hlate 1 2 htail (by decide +kernel) (hmem 2 (by decide))
  have hsecond := hlate 2 3 htail' (by decide +kernel) (hmem 3 (by decide))
  have hdecided := (hfree.late 2 (hmem 2 (by decide)) hsecond).decided 3 (hmem 3 (by decide)) 3
    (hmem 3 (by decide)) htail' htail'
  have hdense : denseEnough (chainStats 2) = true := by
    rw [denseEnough, chainStats_calls.2.1]
    decide +kernel
  have hraiser : 1 ∈ allRaisers chainStats chainRelation chainStart (traceIds chainComms) 2 :=
    mem_allRaisers.mpr ⟨hdense, hmem 1 (by decide), marks_of_late hfirst, htail.1⟩
  have hraised : maxFrom (chainStart 2).tp ((allRaisers chainStats chainRelation chainStart
      (traceIds chainComms) 2).map (chainRelation · 2)) = 1 := by
    refine le_antisymm (maxFrom_le_iff.mpr ⟨by decide +kernel, fun a ha => ?_⟩)
      ((show (1 : ℚ) ≤ chainRelation 1 2 by decide +kernel).trans
        (le_maxFrom_of_mem (mem_map_of_mem hraiser)))
    obtain ⟨row, -, rfl⟩ := mem_map.mp ha
    exact relationOf_le_one _ _ _ _ _
  have hrelation : chainRelation 2 3 = 1 := by decide +kernel
  have hstart : (chainStart 2).tp = 0 := by decide +kernel
  have hboth : decideRole (chainRelation 2 3) (chainStart 2).tp =
      decideRole (chainRelation 2 3) 1 := hraised ▸ hdecided
  rw [hrelation, hstart] at hboth
  exact absurd hboth (by decide +kernel)

end

end Coccl
