import Coccl.Training.Classify
import Coccl.Foundations.Enumerations

/-!
# What the loop over pairs computes

The loop over pairs of communicators reads what it has written. `pairLoop_eq` says how its outcome
depends on the order: a row takes effect on the `partners` of its communicator, which begin with the
first one it is a sparse tail of; a communicator is raised to tensor-parallel evidence by its
`raisers`, the rows it is a partner in, up to its own row if that gives it data-parallel evidence.
-/

namespace Coccl

open Enumerations List Function

section

variable [Doubles] (stats : ℕ → CommStats) (relation : ℕ → ℕ → ℚ)

/-! ## One row -/

/-- `tpComm` is looked at in the row of `dpComm`. -/
def eligible (start : ℕ → Evidence) (dpComm tpComm : ℕ) : Bool :=
  decide (dpComm ≠ tpComm ∧ (start tpComm).pp < ppEvidenceThreshold ∧
    (stats tpComm).descriptor.nNodes ≤ 1 ∧ roleEvidenceThreshold ≤ relation dpComm tpComm)

/-- The calls of `dpComm` are a sparse tail of those of `tpComm`. -/
def tailOf (dpComm tpComm : ℕ) : Bool := sparseTail (stats dpComm) (stats tpComm)

/-- Tensor-parallel evidence by the order of calls. -/
def Evidence.raiseTp (evidence : Evidence) (relation : ℚ) : Evidence :=
  { evidence with
    tp := max evidence.tp relation
    orderAsTp := max evidence.orderAsTp relation }

/-- The evidence after a row that paired `dpComm` with `others`. -/
def afterRow (evidence : ℕ → Evidence) (dpComm : ℕ) (others : List ℕ) (dp : ℚ) (comm : ℕ) :
    Evidence :=
  if comm = dpComm then { evidence dpComm with
    dp := dp
    orderAsDp := maxFrom (evidence dpComm).orderAsDp (others.map (relation dpComm)) }
  else if comm ∈ others ∧ (evidence comm).dp < roleEvidenceThreshold ∧
      denseEnough (stats comm) then (evidence comm).raiseTp (relation dpComm comm)
  else evidence comm

variable {stats relation} {evidence : ℕ → Evidence} {dpComm tpComm : ℕ}

theorem afterRow_self (others : List ℕ) (dp : ℚ) :
    afterRow stats relation evidence dpComm others dp dpComm = { evidence dpComm with
      dp := dp
      orderAsDp := maxFrom (evidence dpComm).orderAsDp (others.map (relation dpComm)) } :=
  if_pos rfl

variable {others : List ℕ} {dp : ℚ}

theorem afterRow_of_ne {comm : ℕ} (h : comm ≠ dpComm) :
    afterRow stats relation evidence dpComm others dp comm =
      if comm ∈ others ∧ (evidence comm).dp < roleEvidenceThreshold ∧ denseEnough (stats comm) then
        (evidence comm).raiseTp (relation dpComm comm)
      else evidence comm :=
  if_neg h

theorem afterRow_nil :
    afterRow stats relation evidence dpComm [] (evidence dpComm).dp = evidence := by
  funext comm
  unfold afterRow
  split
  · next h =>
    subst h
    rfl
  · simp

theorem pp_afterRow (others : List ℕ) (dp : ℚ) (comm : ℕ) :
    (afterRow stats relation evidence dpComm others dp comm).pp = (evidence comm).pp := by
  unfold afterRow
  split
  · next h => rw [h]
  · split <;> rfl

theorem dp_afterRow {comm : ℕ} (h : comm ≠ dpComm) :
    (afterRow stats relation evidence dpComm others dp comm).dp = (evidence comm).dp := by
  rw [afterRow_of_ne h]
  split <;> rfl

/-- A row step by step. -/
theorem afterRow_cons (dp' : ℚ) (hne : tpComm ≠ dpComm) :
    afterRow stats relation (afterRow stats relation evidence dpComm [tpComm] dp') dpComm others
      dp = afterRow stats relation evidence dpComm (tpComm :: others) dp := by
  funext comm
  by_cases hself : comm = dpComm
  · subst hself
    rw [afterRow_self, afterRow_self, afterRow_self]
    rfl
  · have hdp := @dp_afterRow _ stats relation evidence dpComm [tpComm] dp' comm hself
    rw [afterRow_of_ne hself, hdp, afterRow_of_ne hself, afterRow_of_ne hself]
    by_cases hdense : (evidence comm).dp < roleEvidenceThreshold ∧ denseEnough (stats comm)
    · simp only [hdense, and_true, mem_cons]
      by_cases hhead : comm = tpComm
      · subst hhead
        by_cases htail : comm ∈ others <;> simp [htail, Evidence.raiseTp]
      · by_cases htail : comm ∈ others <;> simp [hhead, htail]
    · simp [hdense]

theorem eligible_congr {evidence' : ℕ → Evidence}
    (h : ∀ comm, (evidence' comm).pp = (evidence comm).pp) :
    eligible stats relation evidence' = eligible stats relation evidence := by
  funext a b
  simp only [eligible, h b]

theorem eligible_iff : eligible stats relation evidence dpComm tpComm = true ↔
    dpComm ≠ tpComm ∧ (evidence tpComm).pp < ppEvidenceThreshold ∧
      (stats tpComm).descriptor.nNodes ≤ 1 ∧ roleEvidenceThreshold ≤ relation dpComm tpComm :=
  decide_eq_true_iff

theorem pairStep_of_not_eligible (h : eligible stats relation evidence dpComm tpComm = false) :
    pairStep stats relation dpComm evidence tpComm = evidence := by
  refine if_pos ?_
  by_contra hnot
  push Not at hnot
  rw [eligible_iff.mpr hnot] at h
  cases h

/-- The writes of the loop's body. -/
theorem update_eq_afterRow (hne : dpComm ≠ tpComm) (dp : ℚ) :
    (let own := evidence dpComm
      let evidence := Function.update evidence dpComm { own with
        dp := dp
        orderAsDp := max own.orderAsDp (relation dpComm tpComm) }
      let other := evidence tpComm
      if other.dp < roleEvidenceThreshold ∧ denseEnough (stats tpComm) then
        Function.update evidence tpComm { other with
          tp := max other.tp (relation dpComm tpComm)
          orderAsTp := max other.orderAsTp (relation dpComm tpComm) }
      else evidence) = afterRow stats relation evidence dpComm [tpComm] dp := by
  funext comm
  simp only [update_of_ne hne.symm]
  by_cases hself : comm = dpComm
  · subst hself
    rw [afterRow_self]
    split
    · rw [update_of_ne hne, update_self]
      rfl
    · rw [update_self]
      rfl
  · rw [afterRow_of_ne hself]
    by_cases hother : comm = tpComm
    · subst hother
      split
      · next h =>
        rw [if_pos ⟨mem_singleton_self _, h⟩, update_self]
        rfl
      · next h =>
        rw [if_neg fun hall => h hall.2, update_of_ne hself]
    · have hout : ¬ (comm ∈ [tpComm] ∧ (evidence comm).dp < roleEvidenceThreshold ∧
          denseEnough (stats comm)) := fun hall => hother (mem_singleton.mp hall.1)
      rw [if_neg hout]
      split
      · rw [update_of_ne hother, update_of_ne hself]
      · rw [update_of_ne hself]

theorem pairStep_of_eligible (h : eligible stats relation evidence dpComm tpComm = true) :
    pairStep stats relation dpComm evidence tpComm =
      if roleEvidenceThreshold ≤ (evidence dpComm).dp then
        afterRow stats relation evidence dpComm [tpComm] (evidence dpComm).dp
      else if tailOf stats dpComm tpComm then
        afterRow stats relation evidence dpComm [tpComm] (relation dpComm tpComm)
      else evidence := by
  have hlooked : ¬ (dpComm = tpComm ∨ ppEvidenceThreshold ≤ (evidence tpComm).pp ∨
      1 < (stats tpComm).descriptor.nNodes ∨
      relation dpComm tpComm < roleEvidenceThreshold) := by
    push Not
    exact eligible_iff.mp h
  rw [pairStep, if_neg hlooked]
  simp only [← update_eq_afterRow (eligible_iff.mp h).1]
  by_cases hseeded : roleEvidenceThreshold ≤ (evidence dpComm).dp
  · simp only [hseeded, not_true_eq_false, false_and, if_false, if_true]
  · unfold tailOf
    cases sparseTail (stats dpComm) (stats tpComm) with
    | true => simp only [hseeded, Bool.not_true, Bool.false_eq_true, and_false, if_false, if_true]
    | false => simp only [hseeded, not_false_eq_true, Bool.not_false, and_self, if_true,
        Bool.false_eq_true, if_false]

/-- The rest of a row whose communicator has data-parallel evidence. -/
theorem foldl_pairStep_of_seeded (ids : List ℕ) (h : roleEvidenceThreshold ≤ (evidence dpComm).dp) :
    ids.foldl (pairStep stats relation dpComm) evidence = afterRow stats relation evidence dpComm
        (ids.filter (eligible stats relation evidence dpComm))
        (evidence dpComm).dp := by
  induction ids generalizing evidence with
  | nil => exact afterRow_nil.symm
  | cons tpComm ids ih =>
    rw [foldl_cons]
    cases hlooked : eligible stats relation evidence dpComm tpComm with
    | true =>
      have hself := @afterRow_self _ stats relation evidence dpComm [tpComm] (evidence dpComm).dp
      rw [pairStep_of_eligible hlooked, if_pos h, ih (by rw [hself]; exact h),
        eligible_congr (pp_afterRow _ _), hself, afterRow_cons _ (eligible_iff.mp hlooked).1.symm,
        filter_cons_of_pos hlooked]
    | false =>
      rw [pairStep_of_not_eligible hlooked, ih h, filter_cons_of_neg (by simp [hlooked])]

/-- A row whose communicator has no data-parallel evidence waits for the first sparse tail. -/
theorem foldl_pairStep_of_not_seeded (ids : List ℕ)
    (h : ¬ roleEvidenceThreshold ≤ (evidence dpComm).dp) :
    ids.foldl (pairStep stats relation dpComm) evidence =
      let others := fromFirst (tailOf stats dpComm)
        (ids.filter (eligible stats relation evidence dpComm))
      afterRow stats relation evidence dpComm others
        ((others.head?.map (relation dpComm)).getD (evidence dpComm).dp) := by
  induction ids with
  | nil => exact afterRow_nil.symm
  | cons tpComm ids ih =>
    rw [foldl_cons]
    cases hlooked : eligible stats relation evidence dpComm tpComm with
    | true =>
      rw [pairStep_of_eligible hlooked, if_neg h, filter_cons_of_pos hlooked]
      cases hsparse : tailOf stats dpComm tpComm with
      | true =>
        have hself := @afterRow_self _ stats relation evidence dpComm [tpComm]
          (relation dpComm tpComm)
        have hne := (eligible_iff.mp hlooked).1
        rw [if_pos rfl,
          foldl_pairStep_of_seeded _ (by rw [hself]; exact (eligible_iff.mp hlooked).2.2.2),
          eligible_congr (pp_afterRow _ _), hself, afterRow_cons _ hne.symm,
          fromFirst_cons_of_pos hsparse]
        rfl
      | false =>
        rw [if_neg (by simp), ih, fromFirst_cons_of_neg hsparse]
    | false =>
      rw [pairStep_of_not_eligible hlooked, ih, filter_cons_of_neg (by simp [hlooked])]

/-! ## The loop -/

variable (stats relation) (start : ℕ → Evidence) (ids : List ℕ)

/-- The communicators that the row of `dpComm` pairs it with. -/
def partners (dpComm : ℕ) : List ℕ :=
  if ppEvidenceThreshold ≤ (start dpComm).pp then []
  else
    let looked := ids.filter (eligible stats relation start dpComm)
    if roleEvidenceThreshold ≤ (start dpComm).dp then looked
    else fromFirst (tailOf stats dpComm) looked

/-- The data-parallel evidence that its row leaves a communicator with. -/
def markedDp (dpComm : ℕ) : ℚ :=
  if roleEvidenceThreshold ≤ (start dpComm).dp then (start dpComm).dp
  else ((partners stats relation start ids dpComm).head?.map (relation dpComm)).getD
    (start dpComm).dp

/-- The rows of a list that raise the tensor-parallel evidence of `tpComm`. -/
def raisers (rows : List ℕ) (tpComm : ℕ) : List ℕ :=
  if (start tpComm).dp < roleEvidenceThreshold ∧ denseEnough (stats tpComm) then
    (if markedDp stats relation start ids tpComm < roleEvidenceThreshold then rows
      else before tpComm rows).filter
        fun dpComm => tpComm ∈ partners stats relation start ids dpComm
  else []

/-- The evidence after some rows. -/
def afterRows (rows : List ℕ) (comm : ℕ) : Evidence :=
  let raises := (raisers stats relation start ids rows comm).map (relation · comm)
  { dp := if comm ∈ rows then markedDp stats relation start ids comm else (start comm).dp
    pp := (start comm).pp
    tp := maxFrom (start comm).tp raises
    orderAsDp :=
      if comm ∈ rows then maxFrom (start comm).orderAsDp
        ((partners stats relation start ids comm).map (relation comm))
      else (start comm).orderAsDp
    orderAsTp := maxFrom (start comm).orderAsTp raises }

variable {stats relation start ids}

theorem pairRow_eq {evidence : ℕ → Evidence} (hpp : ∀ comm, (evidence comm).pp = (start comm).pp)
    (hdp : (evidence dpComm).dp = (start dpComm).dp) :
    pairRow stats relation ids evidence dpComm =
      afterRow stats relation evidence dpComm (partners stats relation start ids dpComm)
        (markedDp stats relation start ids dpComm) := by
  unfold pairRow markedDp partners
  rw [hpp dpComm]
  by_cases hactive : ppEvidenceThreshold ≤ (start dpComm).pp
  · simp only [if_pos hactive, head?_nil, Option.map_none, Option.getD_none, ite_self]
    rw [← hdp, afterRow_nil]
  · simp only [if_neg hactive, ← hdp]
    by_cases hseeded : roleEvidenceThreshold ≤ (evidence dpComm).dp
    · simp only [if_pos hseeded, foldl_pairStep_of_seeded ids hseeded, eligible_congr hpp]
    · simp only [if_neg hseeded, foldl_pairStep_of_not_seeded ids hseeded, eligible_congr hpp]

theorem partners_self (comm : ℕ) : comm ∉ partners stats relation start ids comm := by
  intro hmem
  have hlooked : comm ∈ ids.filter (eligible stats relation start comm) := by
    unfold partners at hmem
    split at hmem
    · cases hmem
    · split at hmem
      · exact hmem
      · exact fromFirst_subset hmem
  exact (eligible_iff.mp (mem_filter.mp hlooked).2).1 rfl

theorem markedDp_of_seeded {comm : ℕ} (h : roleEvidenceThreshold ≤ (start comm).dp) :
    markedDp stats relation start ids comm = (start comm).dp :=
  if_pos h

variable {rows : List ℕ} {row : ℕ}

/-- One more row raises what is its partner and has no data-parallel evidence yet. -/
theorem raisers_concat (h : row ∉ rows) (comm : ℕ) :
    raisers stats relation start ids (rows ++ [row]) comm =
      raisers stats relation start ids rows comm ++
        if comm ∈ partners stats relation start ids row ∧
            (afterRows stats relation start ids rows comm).dp < roleEvidenceThreshold ∧
            denseEnough (stats comm) then [row] else [] := by
  have hrow : [row].filter (fun dpComm => comm ∈ partners stats relation start ids dpComm) =
      if comm ∈ partners stats relation start ids row then [row] else [] := by
    simp [filter_cons]
  unfold raisers afterRows
  by_cases hdense : (start comm).dp < roleEvidenceThreshold ∧ denseEnough (stats comm)
  · simp only [hdense, and_true, if_true]
    by_cases hmarked : markedDp stats relation start ids comm < roleEvidenceThreshold
    · have hdp : (if comm ∈ rows then markedDp stats relation start ids comm
          else (start comm).dp) < roleEvidenceThreshold := by
        split
        · exact hmarked
        · exact hdense.1
      simp only [if_pos hmarked, filter_append, hrow, hdp, and_true]
    · -- the rows before its own one count
      simp only [if_neg hmarked]
      by_cases hmem : comm ∈ rows
      · simp only [if_pos hmem, hmarked, and_false, if_false, append_nil, before_append_of_mem hmem]
      · simp only [if_neg hmem, hdense.1, and_true, before_of_not_mem hmem]
        by_cases hself : row = comm
        · subst hself
          rw [before_concat_self h, if_neg (partners_self row), append_nil]
        · rw [before_of_not_mem (by simpa [hmem] using Ne.symm hself), filter_append, hrow]
  · have hdp : ¬ ((if comm ∈ rows then markedDp stats relation start ids comm
        else (start comm).dp) < roleEvidenceThreshold ∧ denseEnough (stats comm)) := by
      rintro ⟨hlt, hcomm⟩
      refine hdense ⟨?_, hcomm⟩
      by_contra hseeded
      rw [markedDp_of_seeded (not_lt.mp hseeded), ite_self] at hlt
      exact hseeded hlt
    simp only [if_neg hdense, hdp, and_false, if_false, append_nil]

theorem afterRows_concat (h : row ∉ rows) :
    afterRow stats relation (afterRows stats relation start ids rows) row
        (partners stats relation start ids row) (markedDp stats relation start ids row) =
      afterRows stats relation start ids (rows ++ [row]) := by
  funext comm
  by_cases hself : comm = row
  · subst hself
    have hraisers := @raisers_concat _ stats relation start ids rows comm h comm
    rw [if_neg fun hall => partners_self comm hall.1, append_nil] at hraisers
    rw [afterRow_self]
    simp [afterRows, h, hraisers]
  · have hmem : comm ∈ rows ++ [row] ↔ comm ∈ rows := by simp [hself]
    rw [afterRow_of_ne hself]
    have hraisers := @raisers_concat _ stats relation start ids rows row h comm
    split
    · next hraised =>
      rw [if_pos hraised] at hraisers
      simp only [afterRows, hraisers, hmem, map_append, map_cons, map_nil,
        maxFrom_concat, Evidence.raiseTp]
    · next hraised =>
      rw [if_neg hraised, append_nil] at hraisers
      simp only [afterRows, hraisers, hmem]

theorem foldl_pairRow_eq (h : rows.Nodup) :
    rows.foldl (pairRow stats relation ids) start = afterRows stats relation start ids rows := by
  induction rows using reverseRecOn with
  | nil =>
    funext comm
    simp [afterRows, raisers, before]
  | append_singleton rows row ih =>
    obtain ⟨hrows, -, hdisjoint⟩ := nodup_append.mp h
    have hrow : row ∉ rows := fun hmem => hdisjoint row hmem row mem_cons_self rfl
    have hpp : ∀ comm, (afterRows stats relation start ids rows comm).pp = (start comm).pp :=
      fun _ => rfl
    have hdp : (afterRows stats relation start ids rows row).dp = (start row).dp := if_neg hrow
    rw [foldl_concat, ih hrows, pairRow_eq hpp hdp, afterRows_concat hrow]

/-- **The loop over pairs.** -/
theorem pairLoop_eq (h : ids.Nodup) :
    pairLoop stats relation ids start = afterRows stats relation start ids ids :=
  foldl_pairRow_eq h

end

end Coccl
