import Coccl.Training.Evidence

/-!
# Orders of the communicators

How the classification of a communicator depends on the order in which the loop over pairs visits
the communicators. A late communicator depends on the first one it is a sparse tail of and on the
rows before its own, a plain one on the rows that come to a sparse tail before they come to it.
-/

namespace Coccl

open Enumerations List

variable {evidence : Evidence}

section

variable [Doubles] (coverage : ℚ) (stats : ℕ → CommStats) (relation : ℕ → ℕ → ℚ)
  (interior : ℕ → ℚ) (start : ℕ → Evidence)

/-- The classification for an order of the communicators. -/
def orderedResult (ids : List ℕ) (comm : ℕ) : Classification :=
  classificationOf (stats comm)
    (orderedEvidence coverage stats relation interior start ids comm)

/-- `comm` is paired with `other` as its sparse tail. -/
def Tail (comm other : ℕ) : Prop :=
  eligible stats relation start comm other = true ∧ tailOf stats comm other = true

instance (comm other : ℕ) : Decidable (Tail stats relation start comm other) :=
  inferInstanceAs (Decidable (_ ∧ _))

/-- The row of a communicator pairs it with others. -/
def Marks (ids : List ℕ) (comm : ℕ) : Prop :=
  (start comm).pp < ppEvidenceThreshold ∧
    (roleEvidenceThreshold ≤ (start comm).dp ∨ Late stats relation start ids comm)

/-- What the rows that raise a communicator raise it to. -/
def raised (order : List ℕ) (comm : ℕ) : List ℚ :=
  (raisers stats relation start order order comm).map (relation · comm)

variable {coverage stats relation interior start} {ids order : List ℕ} {comm other : ℕ}

theorem marks_of_late (h : Late stats relation start ids comm) :
    Marks stats relation start ids comm := ⟨h.1, .inr h⟩

theorem late_of_perm (hperm : order.Perm ids) :
    Late stats relation start order comm ↔ Late stats relation start ids comm := by
  simp only [Late, hperm.mem_iff]

theorem marks_of_perm (hperm : order.Perm ids) :
    Marks stats relation start order comm ↔ Marks stats relation start ids comm := by
  simp only [Marks, late_of_perm hperm]

/-! ## Partners -/

theorem partners_of_seeded (hpp : (start comm).pp < ppEvidenceThreshold)
    (hdp : roleEvidenceThreshold ≤ (start comm).dp) :
    partners stats relation start order comm =
      order.filter (eligible stats relation start comm) := by
  simp only [partners, if_neg (not_le.mpr hpp), if_pos hdp]

theorem partners_of_unseeded (hpp : (start comm).pp < ppEvidenceThreshold)
    (hdp : (start comm).dp < roleEvidenceThreshold) :
    partners stats relation start order comm =
      fromFirst (tailOf stats comm) (order.filter (eligible stats relation start comm)) := by
  simp only [partners, if_neg (not_le.mpr hpp), if_neg (not_le.mpr hdp)]

theorem partners_of_not_marks (h : ¬ Marks stats relation start order comm) :
    partners stats relation start order comm = [] := by
  by_cases hpp : (start comm).pp < ppEvidenceThreshold
  · have hdp : (start comm).dp < roleEvidenceThreshold :=
      not_le.mp fun hle => h ⟨hpp, .inl hle⟩
    rw [partners_of_unseeded hpp hdp, fromFirst_eq_nil_iff]
    intro other hother
    obtain ⟨hmem, heligible⟩ := mem_filter.mp hother
    by_contra htail
    exact h (marks_of_late ⟨hpp, hdp, other, hmem, heligible, by simpa using htail⟩)
  · exact if_pos (not_lt.mp hpp)

theorem eligible_of_mem_partners (h : other ∈ partners stats relation start order comm) :
    other ∈ order ∧ eligible stats relation start comm other = true := by
  unfold partners at h
  split at h
  · cases h
  · simp only at h
    split at h
    · exact mem_filter.mp h
    · exact mem_filter.mp (fromFirst_subset h)

theorem marks_of_mem_partners (h : other ∈ partners stats relation start order comm) :
    Marks stats relation start order comm := by
  by_contra hnot
  rw [partners_of_not_marks hnot] at h
  cases h

theorem mem_partners_of_tail (hpp : (start comm).pp < ppEvidenceThreshold) (hmem : other ∈ order)
    (h : Tail stats relation start comm other) :
    other ∈ partners stats relation start order comm := by
  by_cases hdp : (start comm).dp < roleEvidenceThreshold
  · rw [partners_of_unseeded hpp hdp]
    exact mem_fromFirst (mem_filter.mpr ⟨hmem, h.1⟩) h.2
  · rw [partners_of_seeded hpp (not_lt.mp hdp)]
    exact mem_filter.mpr ⟨hmem, h.1⟩

variable {rest : List ℕ}

/-- The last communicator is a partner wherever it can be. -/
theorem mem_partners_concat (hmarks : Marks stats relation start (rest ++ [other]) comm)
    (h : eligible stats relation start comm other = true) :
    other ∈ partners stats relation start (rest ++ [other]) comm := by
  have hmem : other ∈ rest ++ [other] := by simp
  obtain ⟨hpp, hdp | ⟨-, hdp, tail, htail, heligible, hof⟩⟩ := hmarks
  · rw [partners_of_seeded hpp hdp]
    exact mem_filter.mpr ⟨hmem, h⟩
  · rcases mem_append.mp htail with hrest | hlast
    · rw [partners_of_unseeded hpp hdp, filter_append, fromFirst_append_of_exists
        ⟨tail, mem_filter.mpr ⟨hrest, heligible⟩, hof⟩]
      exact mem_append_right _ (by simp [h])
    · rw [mem_singleton.mp hlast] at hof
      exact mem_partners_of_tail hpp hmem ⟨h, hof⟩

/-- The first communicator is a partner only where it must be. -/
theorem not_mem_partners_cons (hnodup : (other :: rest).Nodup)
    (hdp : (start comm).dp < roleEvidenceThreshold) (htail : tailOf stats comm other = false) :
    other ∉ partners stats relation start (other :: rest) comm := by
  intro hmem
  have hpp : (start comm).pp < ppEvidenceThreshold := (marks_of_mem_partners hmem).1
  have heligible := (eligible_of_mem_partners hmem).2
  rw [partners_of_unseeded hpp hdp, filter_cons_of_pos heligible,
    fromFirst_cons_of_neg htail] at hmem
  exact (nodup_cons.mp hnodup).1 (mem_filter.mp (fromFirst_subset hmem)).1

/-! ## Evidence -/

theorem markedDp_of_head {first : ℕ} (hdp : (start comm).dp < roleEvidenceThreshold)
    (h : (partners stats relation start order comm).head? = some first) :
    markedDp stats relation start order comm = relation comm first := by
  rw [markedDp, if_neg (not_le.mpr hdp), h]
  rfl

/-- A late communicator has the evidence of the first one it is a sparse tail of. -/
theorem markedDp_of_late (h : Late stats relation start order comm) :
    ∃ first ∈ order, Tail stats relation start comm first ∧
      (partners stats relation start order comm).head? = some first ∧
      markedDp stats relation start order comm = relation comm first := by
  obtain ⟨hpp, hdp, tail, htail, heligible, hof⟩ := h
  have hsome : ((order.filter (eligible stats relation start comm)).find?
      (tailOf stats comm)).isSome = true :=
    find?_isSome.mpr ⟨tail, mem_filter.mpr ⟨htail, heligible⟩, hof⟩
  obtain ⟨first, hfirst⟩ := Option.isSome_iff_exists.mp hsome
  obtain ⟨hmem, hlooked⟩ := mem_filter.mp (mem_of_find?_eq_some hfirst)
  have hhead : (partners stats relation start order comm).head? = some first := by
    rw [partners_of_unseeded hpp hdp, head?_fromFirst, hfirst]
  exact ⟨first, hmem, ⟨hlooked, find?_some hfirst⟩, hhead, markedDp_of_head hdp hhead⟩

theorem markedDp_of_not_late (h : ¬ Late stats relation start order comm) :
    markedDp stats relation start order comm = (start comm).dp := by
  unfold markedDp
  split
  · rfl
  · next hdp =>
    rw [partners_of_not_marks fun hmarks => h (hmarks.2.resolve_left hdp)]
    rfl

/-- Data-parallel evidence is seen early or late. -/
theorem threshold_le_markedDp_iff :
    roleEvidenceThreshold ≤ markedDp stats relation start order comm ↔
      roleEvidenceThreshold ≤ (start comm).dp ∨ Late stats relation start order comm := by
  by_cases hlate : Late stats relation start order comm
  · obtain ⟨first, -, htail, -, hdp⟩ := markedDp_of_late hlate
    rw [hdp]
    exact iff_of_true (eligible_iff.mp htail.1).2.2.2 (.inr hlate)
  · rw [markedDp_of_not_late hlate, or_iff_left hlate]

theorem mem_raisers_of_late (h : Late stats relation start order comm) :
    other ∈ raisers stats relation start order order comm ↔
      denseEnough (stats comm) = true ∧ other ∈ before comm order ∧
        comm ∈ partners stats relation start order other := by
  have hmarked := not_lt.mpr (threshold_le_markedDp_iff.mpr (.inr h))
  simp only [raisers, h.2.1, true_and, if_neg hmarked]
  split
  · next hdense => simp [hdense]
  · next hdense => simp [hdense]

theorem mem_raisers_of_plain (hdp : (start comm).dp < roleEvidenceThreshold)
    (h : ¬ Late stats relation start order comm) :
    other ∈ raisers stats relation start order order comm ↔
      denseEnough (stats comm) = true ∧ other ∈ order ∧
        comm ∈ partners stats relation start order other := by
  have hmarked : markedDp stats relation start order comm < roleEvidenceThreshold := by
    rw [markedDp_of_not_late h]
    exact hdp
  simp only [raisers, hdp, true_and, if_pos hmarked]
  split
  · next hdense => simp [hdense]
  · next hdense => simp [hdense]

/-- Pipeline-parallel evidence is left alone. -/
theorem orderedEvidence_of_pp (hnodup : order.Nodup) (hpp : ppEvidenceThreshold ≤ (start comm).pp) :
    orderedEvidence coverage stats relation interior start order comm = start comm := by
  have hpartners : partners stats relation start order comm = [] := if_pos hpp
  have hlate : ¬ Late stats relation start order comm := fun h => absurd h.1 (not_lt.mpr hpp)
  have hraisers : raisers stats relation start order order comm = [] := by
    rw [eq_nil_iff_forall_not_mem]
    intro row hrow
    unfold raisers at hrow
    split at hrow
    · have hmem := (mem_filter.mp hrow).2
      have heligible := (eligible_of_mem_partners (of_decide_eq_true hmem)).2
      exact absurd (eligible_iff.mp heligible).2.1 (not_lt.mpr hpp)
    · cases hrow
  rw [orderedEvidence_of_marked hnodup (.inl hpp), afterRows, hraisers, hpartners,
    markedDp_of_not_late hlate]
  simp

theorem orderedEvidence_of_seeded (hnodup : order.Nodup) (hmem : comm ∈ order)
    (hpp : (start comm).pp < ppEvidenceThreshold)
    (hdp : roleEvidenceThreshold ≤ (start comm).dp) :
    orderedEvidence coverage stats relation interior start order comm = { start comm with
      orderAsDp := maxFrom (start comm).orderAsDp
        ((order.filter (eligible stats relation start comm)).map (relation comm)) } := by
  have hafter := @afterRows_of_seeded _ stats relation start order comm hmem hdp
  have hmarked : roleEvidenceThreshold ≤ (afterRows stats relation start order order comm).dp := by
    rw [hafter]
    exact hdp
  rw [orderedEvidence_of_marked hnodup (.inr hmarked), hafter, partners_of_seeded hpp hdp]

theorem orderedEvidence_of_late (hnodup : order.Nodup) (hmem : comm ∈ order)
    (h : Late stats relation start order comm) :
    orderedEvidence coverage stats relation interior start order comm =
      { dp := markedDp stats relation start order comm
        pp := (start comm).pp
        tp := maxFrom (start comm).tp (raised stats relation start order comm)
        orderAsDp := maxFrom (start comm).orderAsDp
          ((partners stats relation start order comm).map (relation comm))
        orderAsTp := maxFrom (start comm).orderAsTp (raised stats relation start order comm) } := by
  have hdp : (afterRows stats relation start order order comm).dp =
      markedDp stats relation start order comm := if_pos hmem
  have hmarked := threshold_le_markedDp_iff.mpr (.inr h)
  rw [orderedEvidence_of_marked hnodup (.inr (hdp ▸ hmarked))]
  simp only [afterRows, if_pos hmem, raised]

/-- The last two loops on a communicator with no data-parallel evidence. -/
def raisedEvidence (coverage : ℚ) (stats : CommStats) (interior : ℚ) (beside : Bool)
    (raises : List ℚ) (evidence : Evidence) : Evidence :=
  let evidence := interiorEvidence stats interior { evidence with
    tp := maxFrom evidence.tp raises
    orderAsTp := maxFrom evidence.orderAsTp raises }
  if beside then besideDpEvidence coverage stats evidence else evidence

theorem orderedEvidence_of_plain (hnodup : order.Nodup)
    (h : ¬ Marks stats relation start order comm) :
    orderedEvidence coverage stats relation interior start order comm =
      raisedEvidence coverage (stats comm) (interior comm)
        (order.any fun id => roleEvidenceThreshold ≤ markedDp stats relation start order id)
        (raised stats relation start order comm) (start comm) := by
  have hlate : ¬ Late stats relation start order comm := fun hlate => h (marks_of_late hlate)
  have hafter : afterRows stats relation start order order comm = { start comm with
      tp := maxFrom (start comm).tp (raised stats relation start order comm)
      orderAsTp := maxFrom (start comm).orderAsTp (raised stats relation start order comm) } := by
    simp only [afterRows, raised, markedDp_of_not_late hlate, partners_of_not_marks h, map_nil,
      maxFrom_nil, ite_self]
  have hany : (order.any fun id => decide (roleEvidenceThreshold ≤
      (afterRows stats relation start order order id).dp)) =
        order.any fun id => roleEvidenceThreshold ≤ markedDp stats relation start order id := by
    refine Bool.eq_iff_iff.mpr ?_
    simp only [any_eq_true, decide_eq_true_eq]
    refine exists_congr fun id => and_congr_right fun hid => ?_
    rw [show (afterRows stats relation start order order id).dp =
      markedDp stats relation start order id from if_pos hid]
  rw [orderedEvidence_eq hnodup, hany, hafter]
  rfl

theorem any_markedDp_of_perm (hperm : order.Perm ids) :
    (order.any fun id => roleEvidenceThreshold ≤ markedDp stats relation start order id) =
      ids.any fun id => roleEvidenceThreshold ≤ markedDp stats relation start ids id := by
  refine Bool.eq_iff_iff.mpr ?_
  simp only [any_eq_true, decide_eq_true_eq, threshold_le_markedDp_iff, hperm.mem_iff,
    late_of_perm hperm]

variable {stats : CommStats} {beside : Bool}

theorem raisedEvidence_of_dense {coverage interior : ℚ} {raises : List ℚ}
    (hnodes : stats.descriptor.nNodes ≤ 1) (hdense : denseEnough stats = true)
    (hpp : evidence.pp < ppEvidenceThreshold) (hdp : evidence.dp < roleEvidenceThreshold) :
    raisedEvidence coverage stats interior beside raises evidence =
      let evidence := { evidence with
        tp := max (maxFrom evidence.tp raises) interior
        orderAsTp := max (maxFrom evidence.orderAsTp raises) interior }
      if beside then besideDpEvidence coverage stats evidence else evidence := by
  refine congrArg (fun evidence =>
    if beside then besideDpEvidence coverage stats evidence else evidence) (if_neg ?_)
  rintro (h | h | h | h)
  · exact absurd h (not_lt.mpr hnodes)
  · exact absurd hpp (not_lt.mpr h)
  · exact absurd hdp (not_lt.mpr h)
  · rw [hdense] at h
    cases h

/-- Raises that are at most the interior evidence or other raises make no difference. -/
theorem raisedEvidence_congr {coverage interior : ℚ} {raises raises' : List ℚ}
    (hle : ∀ a ∈ raises, a ≤ interior ∨ ∃ b ∈ raises', a ≤ b)
    (hle' : ∀ a ∈ raises', a ≤ interior ∨ ∃ b ∈ raises, a ≤ b)
    (hnone : 1 < stats.descriptor.nNodes ∨ !denseEnough stats → raises = [] ∧ raises' = [])
    (hunmarked : evidence.pp < ppEvidenceThreshold ∧ evidence.dp < roleEvidenceThreshold) :
    raisedEvidence coverage stats interior beside raises evidence =
      raisedEvidence coverage stats interior beside raises' evidence := by
  have hmax : ∀ {raises raises' : List ℚ} (base : ℚ),
      (∀ a ∈ raises, a ≤ interior ∨ ∃ b ∈ raises', a ≤ b) →
      max (maxFrom base raises) interior ≤ max (maxFrom base raises') interior := by
    intro raises raises' base hle
    refine max_le (maxFrom_le_iff.mpr ⟨le_max_of_le_left (le_maxFrom _ _), fun a ha => ?_⟩)
      (le_max_right _ _)
    rcases hle a ha with hinterior | ⟨b, hb, hab⟩
    · exact le_max_of_le_right hinterior
    · exact le_max_of_le_left (hab.trans (le_maxFrom_of_mem hb))
  by_cases hskip : 1 < stats.descriptor.nNodes ∨ !denseEnough stats
  · rw [(hnone hskip).1, (hnone hskip).2]
  · push Not at hskip
    obtain ⟨hpp, hdp⟩ := hunmarked
    rw [raisedEvidence_of_dense hskip.1 (by simpa using hskip.2) hpp hdp,
      raisedEvidence_of_dense hskip.1 (by simpa using hskip.2) hpp hdp,
      le_antisymm (hmax evidence.tp hle) (hmax _ hle'),
      le_antisymm (hmax evidence.orderAsTp hle) (hmax _ hle')]

end

/-! ## Decisions -/

section

variable [Doubles] {dp tp : ℚ}

/-- A margin stays when the amounts move apart. -/
theorem margin_le_mono {dp' tp' : ℚ} (hdp : dp ≤ dp') (htp : tp' ≤ tp)
    (h : roleConflictMargin ≤ toDouble (dp - tp)) : roleConflictMargin ≤ toDouble (dp' - tp') :=
  h.trans (Doubles.toDouble_mono (by linarith))

/-- The decision where there is data-parallel evidence. -/
theorem decideRole_of_threshold_le (hdp : roleEvidenceThreshold ≤ dp) : decideRole dp tp =
      if tp < roleEvidenceThreshold ∨ roleConflictMargin ≤ toDouble (dp - tp) then
        (.dataParallel, .dataParallel, dp)
      else if roleConflictMargin ≤ toDouble (tp - dp) then (.tensorParallel, .tensorParallel, tp)
      else (.unknown, if tp ≤ dp then .dataParallel else .tensorParallel, max dp tp) := by
  have hpos : 0 < dp := roleEvidenceThreshold_pos.trans_le hdp
  simp only [decideRole, hdp, true_and, not_lt.mpr hdp, false_or, hpos, if_true]
  by_cases hagree : tp < roleEvidenceThreshold ∨ roleConflictMargin ≤ toDouble (dp - tp)
  · have hle : tp ≤ dp := hagree.elim (fun h => h.le.trans hdp) fun h => (lt_of_margin_le h).le
    rw [if_pos hagree, if_pos hagree, if_pos hle]
  · have htp : roleEvidenceThreshold ≤ tp := not_lt.mp fun h => hagree (.inl h)
    rw [if_neg hagree, if_neg hagree]
    by_cases hconflict : roleConflictMargin ≤ toDouble (tp - dp)
    · rw [if_pos ⟨htp, hconflict⟩, if_pos hconflict,
        if_neg (not_le.mpr (lt_of_margin_le hconflict))]
    · rw [if_neg fun h => hconflict h.2, if_neg hconflict]

/-- Between two amounts of tensor-parallel evidence with one decision there is no other one. -/
theorem decideRole_between {low high : ℚ} (hdp : roleEvidenceThreshold ≤ dp) (hlow : low ≤ tp)
    (hhigh : tp ≤ high) (h : decideRole dp low = decideRole dp high) :
    decideRole dp tp = decideRole dp low := by
  rw [decideRole_of_threshold_le hdp, decideRole_of_threshold_le hdp] at h ⊢
  by_cases hagree : high < roleEvidenceThreshold ∨ roleConflictMargin ≤ toDouble (dp - high)
  · have hbelow : ∀ {x}, x ≤ high →
        x < roleEvidenceThreshold ∨ roleConflictMargin ≤ toDouble (dp - x) :=
      fun hx => hagree.imp hx.trans_lt (margin_le_mono le_rfl hx)
    rw [if_pos (hbelow hhigh), if_pos (hbelow (hlow.trans hhigh))]
  · rw [if_neg hagree] at h
    have hagreeLow :
        ¬ (low < roleEvidenceThreshold ∨ roleConflictMargin ≤ toDouble (dp - low)) := by
      intro hbelow
      rw [if_pos hbelow] at h
      split at h <;> simp at h
    have hagreeTp : ¬ (tp < roleEvidenceThreshold ∨ roleConflictMargin ≤ toDouble (dp - tp)) :=
      fun hbelow => hagreeLow (hbelow.imp hlow.trans_lt (margin_le_mono le_rfl hlow))
    rw [if_neg hagreeLow] at h ⊢
    rw [if_neg hagreeTp]
    by_cases hconflict : roleConflictMargin ≤ toDouble (low - dp)
    · rw [if_pos hconflict, if_pos (margin_le_mono (hlow.trans hhigh) le_rfl hconflict)] at h
      obtain rfl : low = high := by simpa using h
      rw [le_antisymm hhigh hlow]
    · rw [if_neg hconflict] at h ⊢
      have hconflictHigh : ¬ roleConflictMargin ≤ toDouble (high - dp) := by
        intro hconflictHigh
        rw [if_pos hconflictHigh] at h
        simp at h
      rw [if_neg hconflictHigh] at h
      rw [if_neg fun hconflictTp => hconflictHigh (margin_le_mono hhigh le_rfl hconflictTp)]
      simp only [Prod.mk.injEq, true_and] at h ⊢
      by_cases hle : high ≤ dp
      · rw [if_pos (hhigh.trans hle), if_pos (hlow.trans (hhigh.trans hle)),
          max_eq_left (hhigh.trans hle), max_eq_left (hlow.trans (hhigh.trans hle))]
        exact ⟨rfl, rfl⟩
      · have heq : low = high := by
          have hmax := h.2
          rw [max_eq_right (not_le.mp hle).le] at hmax
          rcases max_choice dp low with hdp | hlow'
          · exact absurd (hdp.symm.trans hmax) (ne_of_lt (not_le.mp hle))
          · exact hlow'.symm.trans hmax
        subst heq
        rw [le_antisymm hhigh hlow]
        exact ⟨rfl, rfl⟩

theorem classificationOf_eq_iff {evidence' : Evidence} (hnodes : stats.descriptor.nNodes ≤ 1)
    (hpp : evidence.pp < ppEvidenceThreshold) (hpp' : evidence'.pp < ppEvidenceThreshold) :
    classificationOf stats evidence = classificationOf stats evidence' ↔
      decideRole evidence.dp evidence.tp = decideRole evidence'.dp evidence'.tp ∧
        max evidence.orderAsDp evidence.orderAsTp =
          max evidence'.orderAsDp evidence'.orderAsTp := by
  simp only [classificationOf, if_neg (not_le.mpr hpp), if_neg (not_le.mpr hpp'),
    if_neg (not_lt.mpr hnodes), Classification.mk.injEq, Prod.ext_iff]
  tauto

end

end Coccl
