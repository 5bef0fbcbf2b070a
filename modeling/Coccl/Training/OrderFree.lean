import Coccl.Training.Orders

/-!
# When the order of the communicators does not matter

`OrderFree` says when every order of the communicators gives the same classifications. Every order
is compared with the extreme ones: the communicator in question first, or last.
-/

namespace Coccl

open Enumerations List

section

variable [Doubles] (coverage : ℚ) (stats : ℕ → CommStats) (relation : ℕ → ℕ → ℚ)
  (interior : ℕ → ℚ) (start : ℕ → Evidence) (ids : List ℕ)

instance (comm : ℕ) : Decidable (Late stats relation start ids comm) :=
  inferInstanceAs (Decidable (_ ∧ _ ∧ ∃ other ∈ ids, _ ∧ _))

instance (comm : ℕ) : Decidable (Marks stats relation start ids comm) :=
  inferInstanceAs (Decidable (_ ∧ (_ ∨ _)))

/-- The rows that raise a communicator if its own one comes last. -/
def allRaisers (comm : ℕ) : List ℕ :=
  if denseEnough (stats comm) then
    ids.filter fun row => Marks stats relation start ids row ∧
      eligible stats relation start row comm
  else []

/-- The role of a late communicator. -/
def lateRole (order : List ℕ) (comm : ℕ) : TrainingRole × TrainingRole × ℚ :=
  decideRole (markedDp stats relation start order comm)
    (maxFrom (start comm).tp (raised stats relation start order comm))

/-- The order evidence of a late communicator. -/
def lateSupport (order : List ℕ) (comm : ℕ) : ℚ :=
  max (maxFrom (start comm).orderAsDp
      ((partners stats relation start order comm).map (relation comm)))
    (maxFrom (start comm).orderAsTp (raised stats relation start order comm))

/-- A late communicator is decided in one way whichever sparse tail comes first and whatever rows
come before its own one, and the relation to a sparse tail is the strongest of its relations. -/
structure LateFree (comm : ℕ) : Prop where
  decided : ∀ first ∈ ids, ∀ first' ∈ ids, Tail stats relation start comm first →
    Tail stats relation start comm first' →
      decideRole (relation comm first) (start comm).tp =
        decideRole (relation comm first') (maxFrom (start comm).tp
          ((allRaisers stats relation start ids comm).map (relation · comm)))
  pairs : ∀ other ∈ ids, eligible stats relation start comm other = true →
    ∃ tail ∈ ids, Tail stats relation start comm tail ∧ relation comm other ≤ relation comm tail
  raises : ∀ row ∈ allRaisers stats relation start ids comm,
    ∃ tail ∈ ids, Tail stats relation start comm tail ∧ relation row comm ≤ relation comm tail

/-- What a late row that need not come to a communicator would raise it to, it has anyway: from
inside the pipeline, or by a row that comes to it in every order. -/
def PlainFree (comm : ℕ) : Prop :=
  denseEnough (stats comm) = true → ∀ row ∈ ids, Late stats relation start ids row →
    eligible stats relation start row comm = true → tailOf stats row comm = false →
      relation row comm ≤ interior comm ∨
        ∃ row' ∈ ids, Marks stats relation start ids row' ∧
          eligible stats relation start row' comm = true ∧
          (roleEvidenceThreshold ≤ (start row').dp ∨ tailOf stats row' comm = true) ∧
          relation row comm ≤ relation row' comm

/-- The order of the communicators makes no difference. -/
structure OrderFree : Prop where
  late : ∀ comm ∈ ids, Late stats relation start ids comm →
    LateFree stats relation start ids comm
  plain : ∀ comm ∈ ids, (start comm).pp < ppEvidenceThreshold →
    ¬ Marks stats relation start ids comm → PlainFree stats relation interior start ids comm

variable {coverage stats relation interior start ids} {order : List ℕ} {comm : ℕ}

/-! ## Every order -/

variable {row : ℕ}

theorem mem_allRaisers : row ∈ allRaisers stats relation start ids comm ↔
      denseEnough (stats comm) = true ∧ row ∈ ids ∧ Marks stats relation start ids row ∧
        eligible stats relation start row comm = true := by
  unfold allRaisers
  split
  · next hdense => simp [hdense]
  · next hdense => simp [hdense]

theorem raisers_subset_allRaisers (hperm : order.Perm ids)
    (h : Late stats relation start ids comm) :
    raisers stats relation start order order comm ⊆ allRaisers stats relation start ids comm := by
  intro row hrow
  obtain ⟨hdense, hbefore, hpartner⟩ :=
    (mem_raisers_of_late ((late_of_perm hperm).mpr h)).mp hrow
  exact mem_allRaisers.mpr ⟨hdense, hperm.mem_iff.mp (before_subset hbefore),
    (marks_of_perm hperm).mp (marks_of_mem_partners hpartner),
    (eligible_of_mem_partners hpartner).2⟩

theorem nNodes_of_tail {other : ℕ} (h : Tail stats relation start comm other) :
    (stats comm).descriptor.nNodes = 1 := by
  have htail := h.2
  simp only [tailOf, sparseTail, Bool.and_eq_true, decide_eq_true_eq] at htail
  exact htail.1.1.1.1

variable {order' : List ℕ}

/-- A late communicator is classified by what it has for and against it, and by its order
evidence. -/
theorem orderedResult_eq_iff_of_late (hnodup : ids.Nodup) (hmem : comm ∈ ids)
    (hperm : order.Perm ids) (hperm' : order'.Perm ids)
    (hlate : Late stats relation start ids comm) :
    orderedResult coverage stats relation interior start order comm =
        orderedResult coverage stats relation interior start order' comm ↔
      lateRole stats relation start order comm = lateRole stats relation start order' comm ∧
        lateSupport stats relation start order comm =
          lateSupport stats relation start order' comm := by
  obtain ⟨tail, -, htail⟩ := hlate.2.2
  have hnodes := (nNodes_of_tail (show Tail stats relation start comm tail from htail)).le
  rw [orderedResult, orderedResult, orderedEvidence_of_late (hperm.nodup_iff.mpr hnodup)
      (hperm.mem_iff.mpr hmem) ((late_of_perm hperm).mpr hlate),
    orderedEvidence_of_late (hperm'.nodup_iff.mpr hnodup) (hperm'.mem_iff.mpr hmem)
      ((late_of_perm hperm').mpr hlate)]
  exact classificationOf_eq_iff hnodes hlate.1 hlate.1

/-- A row that comes to a communicator in every order. -/
theorem mem_partners_of_forced (hmem : comm ∈ order) (hmarks : Marks stats relation start ids row)
    (heligible : eligible stats relation start row comm = true)
    (hforced : roleEvidenceThreshold ≤ (start row).dp ∨ tailOf stats row comm = true) :
    comm ∈ partners stats relation start order row := by
  rcases hforced with hdp | htail
  · rw [partners_of_seeded hmarks.1 hdp]
    exact mem_filter.mpr ⟨hmem, heligible⟩
  · exact mem_partners_of_tail hmarks.1 hmem ⟨heligible, htail⟩

variable (stats relation start ids) in
/-- The strongest relation of a communicator to one it is a sparse tail of. -/
def tailSupport (comm : ℕ) : ℚ :=
  maxFrom 0 ((ids.filter fun other => Tail stats relation start comm other).map (relation comm))

theorem le_tailSupport {other : ℕ} {x : ℚ} (hmem : other ∈ ids)
    (htail : Tail stats relation start comm other) (h : x ≤ relation comm other) :
    x ≤ tailSupport stats relation start ids comm :=
  h.trans (le_maxFrom_of_mem (mem_map_of_mem (mem_filter.mpr ⟨hmem, decide_eq_true htail⟩)))

theorem tailSupport_le_partners (hperm : order.Perm ids)
    (hpp : (start comm).pp < ppEvidenceThreshold) :
    tailSupport stats relation start ids comm ≤
      maxFrom 0 ((partners stats relation start order comm).map (relation comm)) := by
  refine maxFrom_mono (map_subset _ fun other hother => ?_)
  obtain ⟨hmem, htail⟩ := mem_filter.mp hother
  exact mem_partners_of_tail hpp (hperm.mem_iff.mpr hmem) (of_decide_eq_true htail)

/-- The order of calls is no evidence yet. -/
def Unordered (start : ℕ → Evidence) : Prop :=
  ∀ comm, (start comm).orderAsDp = 0 ∧ (start comm).orderAsTp = 0

/-- The order evidence of a late communicator is that of its sparse tails. -/
theorem orderSupport_of_lateFree (hzero : Unordered start) (hperm : order.Perm ids)
    (hlate : Late stats relation start ids comm)
    (hfree : LateFree stats relation start ids comm) :
    lateSupport stats relation start order comm = tailSupport stats relation start ids comm := by
  have hnonneg : 0 ≤ tailSupport stats relation start ids comm := le_maxFrom _ _
  rw [lateSupport, (hzero comm).1, (hzero comm).2]
  refine le_antisymm (max_le (maxFrom_le_iff.mpr ⟨hnonneg, fun x hx => ?_⟩)
    (maxFrom_le_iff.mpr ⟨hnonneg, fun x hx => ?_⟩))
    (le_max_of_le_left (tailSupport_le_partners hperm hlate.1))
  · obtain ⟨other, hother, rfl⟩ := mem_map.mp hx
    obtain ⟨hmem, heligible⟩ := eligible_of_mem_partners hother
    obtain ⟨tail, htail, hof, hle⟩ := hfree.pairs other (hperm.mem_iff.mp hmem) heligible
    exact le_tailSupport htail hof hle
  · obtain ⟨row, hrow, rfl⟩ := mem_map.mp hx
    obtain ⟨tail, htail, hof, hle⟩ :=
      hfree.raises row (raisers_subset_allRaisers hperm hlate hrow)
    exact le_tailSupport htail hof hle

variable {tail : ℕ}

/-- The decision on a late communicator lies between the extreme ones. -/
theorem decideRole_of_lateFree (hperm : order.Perm ids) (hlate : Late stats relation start ids comm)
    (hfree : LateFree stats relation start ids comm) (hmem : tail ∈ ids)
    (htail : Tail stats relation start comm tail) :
    lateRole stats relation start order comm = decideRole (relation comm tail) (start comm).tp := by
  obtain ⟨first, hfirst, hof, -, hdp⟩ := markedDp_of_late ((late_of_perm hperm).mpr hlate)
  have hfirst' := hperm.mem_iff.mp hfirst
  have hsame := hfree.decided first hfirst' first hfirst' hof hof
  rw [lateRole, raised, hdp, decideRole_between (eligible_iff.mp hof.1).2.2.2 (le_maxFrom _ _)
    (maxFrom_mono (map_subset _ (raisers_subset_allRaisers hperm hlate))) hsame, hsame]
  exact (hfree.decided tail hmem first hfirst' htail hof).symm

/-- What raises a plain communicator in one order is its interior evidence, or raises it in
another one. -/
theorem raises_of_plainFree (hperm : order.Perm ids) (hperm' : order'.Perm ids) (hmem : comm ∈ ids)
    (hpp : (start comm).pp < ppEvidenceThreshold) (hplain : ¬ Marks stats relation start ids comm)
    (hfree : PlainFree stats relation interior start ids comm) :
    ∀ a ∈ raised stats relation start order comm, a ≤ interior comm ∨
      ∃ b ∈ raised stats relation start order' comm, a ≤ b := by
  have hdp : (start comm).dp < roleEvidenceThreshold :=
    not_le.mp fun hle => hplain ⟨hpp, .inl hle⟩
  have hlate : ∀ {order : List ℕ}, order.Perm ids → ¬ Late stats relation start order comm :=
    fun hperm hlate => hplain (marks_of_late ((late_of_perm hperm).mp hlate))
  have hforced : ∀ row ∈ ids, denseEnough (stats comm) = true →
      Marks stats relation start ids row → eligible stats relation start row comm = true →
      roleEvidenceThreshold ≤ (start row).dp ∨ tailOf stats row comm = true →
      relation row comm ∈ raised stats relation start order' comm := by
    intro row hrow hdense hmarks heligible hforced
    exact mem_map_of_mem ((mem_raisers_of_plain hdp (hlate hperm')).mpr ⟨hdense,
      hperm'.mem_iff.mpr hrow,
      mem_partners_of_forced (hperm'.mem_iff.mpr hmem) hmarks heligible hforced⟩)
  intro a ha
  obtain ⟨row, hrow, rfl⟩ := mem_map.mp ha
  obtain ⟨hdense, hrowmem, hpartner⟩ := (mem_raisers_of_plain hdp (hlate hperm)).mp hrow
  have hrowids := hperm.mem_iff.mp hrowmem
  have hmarks := (marks_of_perm hperm).mp (marks_of_mem_partners hpartner)
  have heligible := (eligible_of_mem_partners hpartner).2
  by_cases hin : roleEvidenceThreshold ≤ (start row).dp ∨ tailOf stats row comm = true
  · exact .inr ⟨_, hforced row hrowids hdense hmarks heligible hin, le_rfl⟩
  · push Not at hin
    have hrowlate := hmarks.2.resolve_left (not_le.mpr hin.1)
    rcases hfree hdense row hrowids hrowlate heligible (by simpa using hin.2) with
      hinterior | ⟨row', hrow', hmarks', heligible', hin', hle⟩
    · exact .inl hinterior
    · exact .inr ⟨_, hforced row' hrow' hdense hmarks' heligible' hin', hle⟩

theorem raised_eq_nil_of_plain (hpp : (start comm).pp < ppEvidenceThreshold)
    (hplain : ¬ Marks stats relation start order comm)
    (h : 1 < (stats comm).descriptor.nNodes ∨ !denseEnough (stats comm)) :
    raised stats relation start order comm = [] := by
  rw [raised, map_eq_nil_iff, eq_nil_iff_forall_not_mem]
  intro row hrow
  obtain ⟨hdense, -, hpartner⟩ := (mem_raisers_of_plain
    (not_le.mp fun hle => hplain ⟨hpp, .inl hle⟩) fun hlate => hplain (marks_of_late hlate)).mp hrow
  have hlocal := (eligible_iff.mp (eligible_of_mem_partners hpartner).2).2.2.1
  rcases h with hnodes | hsparse
  · exact absurd hnodes (not_lt.mpr hlocal)
  · rw [hdense] at hsparse
    cases hsparse

theorem orderedResult_of_orderFree (hzero : Unordered start) (hnodup : ids.Nodup)
    (hfree : OrderFree stats relation interior start ids) (hperm : order.Perm ids)
    (hperm' : order'.Perm ids) (hmem : comm ∈ ids) :
    orderedResult coverage stats relation interior start order comm =
      orderedResult coverage stats relation interior start order' comm := by
  have hnd := hperm.nodup_iff.mpr hnodup
  have hnd' := hperm'.nodup_iff.mpr hnodup
  have hin := hperm.mem_iff.mpr hmem
  have hin' := hperm'.mem_iff.mpr hmem
  by_cases hlate : Late stats relation start ids comm
  · have hcomm := hfree.late comm hmem hlate
    obtain ⟨tail, htail, hof⟩ := hlate.2.2
    exact (orderedResult_eq_iff_of_late hnodup hmem hperm hperm' hlate).mpr
      ⟨(decideRole_of_lateFree hperm hlate hcomm htail hof).trans
        (decideRole_of_lateFree hperm' hlate hcomm htail hof).symm,
      (orderSupport_of_lateFree hzero hperm hlate hcomm).trans
        (orderSupport_of_lateFree hzero hperm' hlate hcomm).symm⟩
  unfold orderedResult
  rcases le_or_gt ppEvidenceThreshold (start comm).pp with hpp | hpp
  · rw [orderedEvidence_of_pp hnd hpp, orderedEvidence_of_pp hnd' hpp]
  · by_cases hmarks : Marks stats relation start ids comm
    · have hdp := hmarks.2.resolve_right hlate
      rw [orderedEvidence_of_seeded hnd hin hpp hdp, orderedEvidence_of_seeded hnd' hin' hpp hdp,
        maxFrom_congr fun a => (((hperm.trans hperm'.symm).filter _).map _).mem_iff]
    · have hplain := fun h => hmarks ((marks_of_perm hperm).mp h)
      have hplain' := fun h => hmarks ((marks_of_perm hperm').mp h)
      have hcomm := hfree.plain comm hmem hpp hmarks
      rw [orderedEvidence_of_plain hnd hplain, orderedEvidence_of_plain hnd' hplain',
        any_markedDp_of_perm hperm, any_markedDp_of_perm hperm', raisedEvidence_congr
          (raises_of_plainFree hperm hperm' hmem hpp hmarks hcomm)
          (raises_of_plainFree hperm' hperm hmem hpp hmarks hcomm)
          (fun hskip => ⟨raised_eq_nil_of_plain hpp hplain hskip,
            raised_eq_nil_of_plain hpp hplain' hskip⟩)
          ⟨hpp, not_le.mp fun hle => hmarks ⟨hpp, .inl hle⟩⟩]

/-! ## The extreme orders -/

variable (stats relation start ids) in
/-- The communicator first, and a given sparse tail of it before the others. -/
def earlyOrder (comm tail : ℕ) : List ℕ :=
  (comm :: ids.filter fun other => other ≠ comm ∧ ¬ Tail stats relation start comm other) ++
    tail :: ids.filter fun other => other ≠ tail ∧ Tail stats relation start comm other

variable (ids) in
/-- A given sparse tail first and the communicator last. -/
def lateOrder (comm tail : ℕ) : List ℕ :=
  (tail :: ids.filter fun other => other ≠ tail ∧ other ≠ comm) ++ [comm]

theorem ne_of_tail (h : Tail stats relation start comm tail) : tail ≠ comm :=
  (eligible_iff.mp h.1).1.symm

theorem earlyOrder_perm (hnodup : ids.Nodup) (hmem : comm ∈ ids) (htail : tail ∈ ids)
    (h : Tail stats relation start comm tail) :
    (earlyOrder stats relation start ids comm tail).Perm ids := by
  have hself : ¬ Tail stats relation start comm comm := fun hself => ne_of_tail hself rfl
  refine (perm_ext_iff_of_nodup ?_ hnodup).mpr fun other => ?_
  · refine nodup_append.mpr ⟨nodup_cons.mpr ⟨by simp, hnodup.filter _⟩,
      nodup_cons.mpr ⟨by simp, hnodup.filter _⟩, ?_⟩
    rintro a ha b hb rfl
    have htails : Tail stats relation start comm a := by
      rcases mem_cons.mp hb with rfl | hb
      · exact h
      · exact (of_decide_eq_true (mem_filter.mp hb).2).2
    rcases mem_cons.mp ha with rfl | ha
    · exact hself htails
    · exact (of_decide_eq_true (mem_filter.mp ha).2).2 htails
  · by_cases hcomm : other = comm
    · simp [earlyOrder, hcomm, hmem]
    · by_cases hof : Tail stats relation start comm other
      · by_cases hfirst : other = tail
        · simp [earlyOrder, hfirst, htail]
        · simp [earlyOrder, hcomm, hof, hfirst]
      · have hne : other ≠ tail := fun heq => hof (heq ▸ h)
        simp [earlyOrder, hcomm, hof, hne]

omit [Doubles] in
theorem lateOrder_perm (hnodup : ids.Nodup) (hmem : comm ∈ ids) (htail : tail ∈ ids)
    (hne : tail ≠ comm) : (lateOrder ids comm tail).Perm ids := by
  refine (perm_ext_iff_of_nodup ?_ hnodup).mpr fun other => ?_
  · refine nodup_append.mpr ⟨nodup_cons.mpr ⟨by simp, hnodup.filter _⟩, nodup_singleton _, ?_⟩
    rintro a ha b hb rfl
    obtain rfl := mem_singleton.mp hb
    rcases mem_cons.mp ha with rfl | ha
    · exact hne rfl
    · simpa using (mem_filter.mp ha).2
  · by_cases hcomm : other = comm
    · simp [lateOrder, hcomm, hmem]
    · by_cases hfirst : other = tail
      · simp [lateOrder, hfirst, htail]
      · simp [lateOrder, hcomm, hfirst]

/-- In the early order a late communicator is paired with those it is a sparse tail of. -/
theorem partners_earlyOrder (hlate : Late stats relation start ids comm)
    (h : Tail stats relation start comm tail) :
    partners stats relation start (earlyOrder stats relation start ids comm tail) comm =
      tail :: (ids.filter fun other => other ≠ tail ∧ Tail stats relation start comm other).filter
        (eligible stats relation start comm) := by
  rw [partners_of_unseeded hlate.1 hlate.2.1, earlyOrder, filter_append,
    filter_cons_of_pos h.1, fromFirst_append_of_forall, fromFirst_cons_of_pos h.2]
  intro other hother
  obtain ⟨hmem, heligible⟩ := mem_filter.mp hother
  rcases mem_cons.mp hmem with rfl | hmem
  · exact absurd rfl (eligible_iff.mp heligible).1
  · have hnot := (of_decide_eq_true (mem_filter.mp hmem).2).2
    exact Bool.eq_false_iff.mpr fun htail => hnot ⟨heligible, htail⟩

theorem raisers_earlyOrder (tail : ℕ) (hlate : Late stats relation start
      (earlyOrder stats relation start ids comm tail) comm) :
    raisers stats relation start (earlyOrder stats relation start ids comm tail)
      (earlyOrder stats relation start ids comm tail) comm = [] := by
  rw [eq_nil_iff_forall_not_mem]
  intro row hrow
  have hbefore := ((mem_raisers_of_late hlate).mp hrow).2.1
  rw [earlyOrder, cons_append, before_cons_self] at hbefore
  cases hbefore

/-- In the late order a late communicator is paired with all that it can be paired with. -/
theorem partners_lateOrder (hlate : Late stats relation start ids comm)
    (h : Tail stats relation start comm tail) :
    partners stats relation start (lateOrder ids comm tail) comm =
      (lateOrder ids comm tail).filter (eligible stats relation start comm) := by
  rw [partners_of_unseeded hlate.1 hlate.2.1, lateOrder, cons_append,
    filter_cons_of_pos h.1, fromFirst_cons_of_pos h.2]

theorem mem_raisers_lateOrder (hne : tail ≠ comm) (hperm : (lateOrder ids comm tail).Perm ids)
    (hlate : Late stats relation start ids comm) :
    row ∈ raisers stats relation start (lateOrder ids comm tail)
        (lateOrder ids comm tail) comm ↔ row ∈ allRaisers stats relation start ids comm := by
  refine ⟨fun h => raisers_subset_allRaisers hperm hlate h, fun h => ?_⟩
  obtain ⟨hdense, hmem, hmarks, heligible⟩ := mem_allRaisers.mp h
  refine (mem_raisers_of_late ((late_of_perm hperm).mpr hlate)).mpr ⟨hdense, ?_,
    mem_partners_concat ((marks_of_perm hperm).mpr hmarks) heligible⟩
  have hbefore : before comm (lateOrder ids comm tail) =
      tail :: ids.filter fun other => other ≠ tail ∧ other ≠ comm :=
    before_concat_self (by simp [hne.symm])
  have hrow : row ≠ comm := (eligible_iff.mp heligible).1
  rw [hbefore]
  by_cases hfirst : row = tail
  · simp [hfirst]
  · simp [hfirst, hmem, hrow]

variable (hzero : Unordered start) (hnodup : ids.Nodup) (hmem : comm ∈ ids)
  (hconst : ∀ order order', order.Perm ids → order'.Perm ids →
    orderedResult coverage stats relation interior start order comm =
      orderedResult coverage stats relation interior start order' comm)

include hzero hnodup hmem hconst in
/-- What the two orders say of a late communicator, if they agree. -/
theorem lateFree_of_constant (hlate : Late stats relation start ids comm) :
    LateFree stats relation start ids comm := by
  have hagree : ∀ first ∈ ids, ∀ first' ∈ ids, Tail stats relation start comm first →
      Tail stats relation start comm first' →
      decideRole (relation comm first) (start comm).tp =
          decideRole (relation comm first') (maxFrom (start comm).tp
            ((allRaisers stats relation start ids comm).map (relation · comm))) ∧
        maxFrom 0 ((partners stats relation start
            (earlyOrder stats relation start ids comm first) comm).map (relation comm)) =
          max (maxFrom 0 ((partners stats relation start (lateOrder ids comm first')
              comm).map (relation comm)))
            (maxFrom 0 ((allRaisers stats relation start ids comm).map (relation · comm))) := by
    intro first hfirst first' hfirst' hof hof'
    have hearly := earlyOrder_perm hnodup hmem hfirst hof
    have hlast := lateOrder_perm hnodup hmem hfirst' (ne_of_tail hof')
    have hraises : ∀ base, maxFrom base ((raisers stats relation start (lateOrder ids comm first')
        (lateOrder ids comm first') comm).map (relation · comm)) =
          maxFrom base ((allRaisers stats relation start ids comm).map (relation · comm)) :=
      fun base => maxFrom_congr fun a => by
        simp only [mem_map, mem_raisers_lateOrder (ne_of_tail hof') hlast hlate]
    have hdp : markedDp stats relation start (earlyOrder stats relation start ids comm first)
        comm = relation comm first := markedDp_of_head hlate.2.1
      (by rw [partners_earlyOrder hlate hof, head?_cons])
    have hdp' : markedDp stats relation start (lateOrder ids comm first') comm =
        relation comm first' := markedDp_of_head hlate.2.1
      (by rw [partners_lateOrder hlate hof', lateOrder, cons_append,
        filter_cons_of_pos hof'.1, head?_cons])
    have hsame := (orderedResult_eq_iff_of_late hnodup hmem hearly hlast hlate).mp
      (hconst _ _ hearly hlast)
    simp only [lateRole, lateSupport, raised] at hsame
    rw [hdp, hdp', raisers_earlyOrder first ((late_of_perm hearly).mpr hlate), hraises, hraises,
      (hzero comm).1, (hzero comm).2, map_nil, maxFrom_nil, maxFrom_nil,
      max_eq_left (le_maxFrom _ _)] at hsame
    exact hsame
  obtain ⟨tail, htail, hof⟩ := hlate.2.2
  -- a positive number that the late order gives is the relation to a sparse tail
  have hattained : ∀ x : ℚ, 0 < x →
      x ≤ max (maxFrom 0 ((partners stats relation start (lateOrder ids comm tail)
          comm).map (relation comm)))
        (maxFrom 0 ((allRaisers stats relation start ids comm).map (relation · comm))) →
      ∃ other ∈ ids, Tail stats relation start comm other ∧ x ≤ relation comm other := by
    intro x hpos hle
    rw [← (hagree tail htail tail htail hof hof).2, le_maxFrom_iff] at hle
    obtain ⟨a, ha, hxa⟩ := hle.resolve_left (not_le.mpr hpos)
    obtain ⟨other, hother, rfl⟩ := mem_map.mp ha
    rw [partners_earlyOrder hlate hof] at hother
    rcases mem_cons.mp hother with rfl | hother
    · exact ⟨other, htail, hof, hxa⟩
    · obtain ⟨hids, hprop⟩ := mem_filter.mp (mem_filter.mp hother).1
      exact ⟨other, hids, (of_decide_eq_true hprop).2, hxa⟩
  have hpositive : ∀ {a b : ℕ}, eligible stats relation start a b = true → 0 < relation a b :=
    fun heligible => roleEvidenceThreshold_pos.trans_le (eligible_iff.mp heligible).2.2.2
  refine ⟨fun first hfirst first' hfirst' hof hof' =>
    (hagree first hfirst first' hfirst' hof hof').1, fun other hother heligible => ?_,
    fun row hrow => ?_⟩
  · refine hattained _ (hpositive heligible) (le_max_of_le_left (le_maxFrom_of_mem
      (mem_map_of_mem ?_)))
    rw [partners_lateOrder hlate hof]
    exact mem_filter.mpr
      ⟨(lateOrder_perm hnodup hmem htail (ne_of_tail hof)).mem_iff.mpr hother, heligible⟩
  · exact hattained _ (hpositive (mem_allRaisers.mp hrow).2.2.2)
      (le_max_of_le_right (le_maxFrom_of_mem (mem_map_of_mem hrow)))

/-- The order evidence of a plain communicator that can be raised. -/
theorem orderSupport_raisedEvidence {coverage interior : ℚ} {stats : CommStats} {beside : Bool}
    {raises : List ℚ} {evidence : Evidence} (hdense : denseEnough stats = true)
    (hnodes : stats.descriptor.nNodes ≤ 1) (hpp : evidence.pp < ppEvidenceThreshold)
    (hdp : evidence.dp < roleEvidenceThreshold) :
    (classificationOf stats
      (raisedEvidence coverage stats interior beside raises evidence)).orderSupport =
        max evidence.orderAsDp (max (maxFrom evidence.orderAsTp raises) interior) := by
  rw [raisedEvidence_of_dense hnodes hdense hpp hdp]
  simp only
  split
  · unfold besideDpEvidence
    split <;> rfl
  · rfl

include hzero hnodup hmem hconst in
/-- What two orders say of a plain communicator, if they agree. -/
theorem plainFree_of_constant (hpp : (start comm).pp < ppEvidenceThreshold)
    (hplain : ¬ Marks stats relation start ids comm) :
    PlainFree stats relation interior start ids comm := by
  intro hdense row hrow hrowlate heligible htail
  have hdp : (start comm).dp < roleEvidenceThreshold :=
    not_le.mp fun hle => hplain ⟨hpp, .inl hle⟩
  have hnodes := (eligible_iff.mp heligible).2.2.1
  have hpositive : 0 < relation row comm :=
    roleEvidenceThreshold_pos.trans_le (eligible_iff.mp heligible).2.2.2
  have hfirst : (comm :: ids.erase comm).Perm ids := (perm_cons_erase hmem).symm
  have hlast : (ids.erase comm ++ [comm]).Perm ids :=
    (perm_append_singleton _ _).trans hfirst
  have hsupport : ∀ {order : List ℕ}, order.Perm ids →
      (orderedResult coverage stats relation interior start order comm).orderSupport =
        max 0 (max (maxFrom 0 (raised stats relation start order comm)) (interior comm)) := by
    intro order hperm
    rw [orderedResult, orderedEvidence_of_plain (hperm.nodup_iff.mpr hnodup)
      fun h => hplain ((marks_of_perm hperm).mp h),
      orderSupport_raisedEvidence hdense hnodes hpp hdp, (hzero comm).1, (hzero comm).2]
  have hraisers : ∀ {order : List ℕ}, order.Perm ids → ∀ other,
      other ∈ raisers stats relation start order order comm ↔ denseEnough (stats comm) = true ∧
        other ∈ order ∧ comm ∈ partners stats relation start order other :=
    fun hperm other => mem_raisers_of_plain hdp fun hlate =>
      hplain (marks_of_late ((late_of_perm hperm).mp hlate))
  -- the row raises it if it comes last
  have hle : relation row comm ≤ (orderedResult coverage stats relation interior start
      (ids.erase comm ++ [comm]) comm).orderSupport := by
    rw [hsupport hlast]
    refine le_max_of_le_right (le_max_of_le_left (le_maxFrom_of_mem (mem_map_of_mem
      ((hraisers hlast row).mpr ⟨hdense, hlast.mem_iff.mpr hrow, mem_partners_concat
        ((marks_of_perm hlast).mpr (marks_of_late hrowlate)) heligible⟩))))
  rw [hconst _ _ hlast hfirst, hsupport hfirst] at hle
  rcases le_max_iff.mp ((le_max_iff.mp hle).resolve_left (not_le.mpr hpositive)) with
    hraised | hinterior
  · -- what raises it if it comes first does so in every order
    obtain ⟨a, ha, hrowa⟩ := (le_maxFrom_iff.mp hraised).resolve_left (not_le.mpr hpositive)
    obtain ⟨row', hrow', rfl⟩ := mem_map.mp ha
    obtain ⟨-, hmem', hpartner⟩ := (hraisers hfirst row').mp hrow'
    refine .inr ⟨row', hfirst.mem_iff.mp hmem',
      (marks_of_perm hfirst).mp (marks_of_mem_partners hpartner),
      (eligible_of_mem_partners hpartner).2, ?_, hrowa⟩
    by_contra hnot
    push Not at hnot
    exact not_mem_partners_cons (hfirst.nodup_iff.mpr hnodup) hnot.1 (by simpa using hnot.2)
      hpartner
  · exact .inl hinterior

/-- Every order gives the same classifications exactly if the order makes no difference to what the
loop over pairs reads. -/
theorem orderedResult_constant_iff (hzero : Unordered start) (hnodup : ids.Nodup) :
    (∀ order order', order.Perm ids → order'.Perm ids → ∀ comm ∈ ids,
      orderedResult coverage stats relation interior start order comm =
        orderedResult coverage stats relation interior start order' comm) ↔
      OrderFree stats relation interior start ids := by
  refine ⟨fun h => ⟨fun comm hmem hlate => ?_, fun comm hmem hpp hplain => ?_⟩,
    fun h order order' hperm hperm' comm hmem =>
      orderedResult_of_orderFree hzero hnodup h hperm hperm' hmem⟩
  · exact lateFree_of_constant hzero hnodup hmem
      (fun order order' hperm hperm' => h order order' hperm hperm' comm hmem) hlate
  · exact plainFree_of_constant hzero hnodup hmem
      (fun order order' hperm hperm' => h order order' hperm hperm' comm hmem) hpp hplain

end

end Coccl
