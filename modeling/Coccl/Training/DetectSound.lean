import Coccl.Training.Detect

/-!
# Iterations that are detected

A detected period repeats: the ranges are adjacent, of one length, end with the trace, and nine in
ten of their events agree with the first range (`SoundIterations`). For the first pass this needs
that no period has blocks of one hash that are not the same (`NoCollision`).
-/

namespace Coccl

open RollingHash List

section

variable {events : List TraceEvent} {iterations : ℕ}

/-! ## The search -/

theorem boundaryGapScore_nonneg (start period : ℕ) :
    0 ≤ boundaryGapScore events iterations start period := by
  unfold boundaryGapScore
  split
  · exact zero_le_one
  · simp only
    split
    · exact zero_le_one
    · positivity

/-- What a search has found among the periods it has looked at. -/
def Found (events : List TraceEvent) (iterations : ℕ) (accept : ℕ → Bool) (seen : List ℕ)
    (best : CandidatePeriod) : Prop :=
  best = noPeriod ∧ (∀ period ∈ seen, accept period = false) ∨
    best.period ∈ seen ∧ accept best.period = true ∧
      best = candidatePeriod events iterations best.period

variable {accept : ℕ → Bool}

theorem considerPeriod_found {seen : List ℕ} {best : CandidatePeriod}
    (h : Found events iterations accept seen best) (period : ℕ) :
    Found events iterations accept (seen ++ [period])
      (considerPeriod events iterations accept best period) := by
  unfold considerPeriod
  cases haccept : accept period with
  | false =>
    rcases h with ⟨hnone, hall⟩ | ⟨hmem, hbest⟩
    · refine .inl ⟨hnone, fun q hq => ?_⟩
      rcases mem_append.mp hq with hq | hq
      · exact hall q hq
      · rw [mem_singleton.mp hq, haccept]
    · exact .inr ⟨mem_append_left _ hmem, hbest⟩
  | true =>
    simp only [Bool.not_true, Bool.false_eq_true, if_false]
    split
    · exact .inr ⟨by simp [candidatePeriod], haccept, rfl⟩
    · next hnot =>
      rcases h with ⟨rfl, -⟩ | ⟨hmem, hbest⟩
      · -- any score beats the initial one
        have hscore : 0 ≤ (candidatePeriod events iterations period).gapScore :=
          boundaryGapScore_nonneg _ _
        refine absurd ?_ hnot
        have hlt : noPeriod.gapScore + 1 / 1000000000 <
            (candidatePeriod events iterations period).gapScore := by
          simp only [noPeriod]
          linarith
        rw [CandidatePeriod.better, decide_eq_true hlt, Bool.true_or]
      · exact .inr ⟨mem_append_left _ hmem, hbest⟩

theorem foldl_found (periods : List ℕ) {seen : List ℕ} {best : CandidatePeriod}
    (h : Found events iterations accept seen best) :
    Found events iterations accept (seen ++ periods)
      (periods.foldl (considerPeriod events iterations accept) best) := by
  induction periods generalizing seen best with
  | nil => rwa [append_nil]
  | cons period periods ih =>
    rw [foldl_cons, append_cons]
    exact ih (considerPeriod_found h period)

variable {period : ℕ}

theorem mem_candidatePeriods (hiterations : 0 < iterations) :
    period ∈ candidatePeriods events iterations ↔
      2 ≤ period ∧ iterations * period ≤ events.length := by
  rw [candidatePeriods, mem_range'_1, minimumCycleEvents, mul_comm,
    ← Nat.le_div_iff_mul_le hiterations]
  omega

/-- **A pass** finds a period it accepts, or there is none. -/
theorem searchPeriods_found (accept : ℕ → Bool) :
    Found events iterations accept (candidatePeriods events iterations)
      (searchPeriods events iterations accept) :=
  @foldl_found events iterations accept (candidatePeriods events iterations) [] noPeriod
    (.inl ⟨rfl, by simp⟩)

theorem searchPeriods_eq_zero (hiterations : 0 < iterations) :
    (searchPeriods events iterations accept).period = 0 ↔
      ∀ period, 2 ≤ period → iterations * period ≤ events.length → accept period = false := by
  rcases @searchPeriods_found events iterations accept with ⟨hnone, hall⟩ | ⟨hmem, haccept, -⟩
  · refine ⟨fun _ period htwo hroom => hall period ?_, fun _ => by rw [hnone]; rfl⟩
    exact (mem_candidatePeriods hiterations).mpr ⟨htwo, hroom⟩
  · obtain ⟨htwo, hroom⟩ := (mem_candidatePeriods hiterations).mp hmem
    refine ⟨fun hzero => by omega, fun hall => ?_⟩
    rw [hall _ htwo hroom] at haccept
    cases haccept

/-! ## Blocks -/

variable (events iterations) in
/-- The events of one iteration at a period. -/
def block (period iteration : ℕ) : List TraceEvent :=
  (events.drop (periodStart events iterations period + iteration * period)).take period

variable (events iterations) in
/-- Every block has the events of the first one. -/
def BlocksEqual (period : ℕ) : Prop :=
  ∀ iteration < iterations, ∀ offset < period,
    sameCanonicalEvent (eventAt events (periodStart events iterations period + offset))
      (eventAt events (periodStart events iterations period + iteration * period + offset)) = true

variable (events iterations) in
/-- Blocks whose tokens have one value as polynomials in the base are the same. -/
def NoCollision : Prop :=
  ∀ period, 2 ≤ period → iterations * period ≤ events.length →
    (∀ iteration < iterations,
      hash hashBase ((block events iterations period iteration).map canonicalToken) =
        hash hashBase ((block events iterations period 0).map canonicalToken)) →
    BlocksEqual events iterations period

section

variable {iteration offset : ℕ} (hroom : iterations * period ≤ events.length)

include hroom

/-- The blocks are inside the trace. -/
theorem block_le (h : iteration < iterations) :
    periodStart events iterations period + iteration * period + period ≤ events.length := by
  have hmul : (iteration + 1) * period ≤ iterations * period := Nat.mul_le_mul_right _ h
  rw [Nat.succ_mul] at hmul
  unfold periodStart
  omega

theorem block_getElem? (hoffset : offset < period) (h : iteration < iterations) :
    (block events iterations period iteration)[offset]? = some (eventAt events
      (periodStart events iterations period + iteration * period + offset)) := by
  have hle := block_le hroom h
  rw [block, getElem?_take_of_lt hoffset, getElem?_drop, eventAt,
    getD_eq_getElem?_getD, getElem?_eq_getElem (by omega), Option.getD_some]

theorem length_block (h : iteration < iterations) :
    (block events iterations period iteration).length = period := by
  have hle := block_le hroom h
  rw [block, length_take, length_drop]
  omega

/-- The difference of two beginnings' hashes is the hash of the block. -/
theorem blockHash_eq (h : iteration < iterations) :
    blockHash events (periodStart events iterations period + iteration * period) period =
      hash hashBase ((block events iterations period iteration).map canonicalToken) := by
  rw [blockHash, prefixHash, prefixHash, block, map_take, map_take, map_take, map_drop]
  refine hash_block hashBase _ ?_
  rw [length_map]
  exact block_le hroom h

/-- Equal blocks have equal hashes. -/
theorem BlocksEqual.hash_eq (h : BlocksEqual events iterations period)
    (hiterations : 0 < iterations) (hlt : iteration < iterations) :
    (block events iterations period iteration).map canonicalToken =
      (block events iterations period 0).map canonicalToken := by
  refine ext_getElem? fun offset => ?_
  rw [getElem?_map, getElem?_map]
  rcases Nat.lt_or_ge offset period with hoffset | hoffset
  · rw [block_getElem? hroom hoffset hlt, block_getElem? hroom hoffset hiterations, zero_mul,
      add_zero]
    exact congrArg some (canonicalToken_congr (h iteration hlt offset hoffset)).symm
  · rw [getElem?_eq_none (by rw [length_block hroom hlt]; exact hoffset),
      getElem?_eq_none (by rw [length_block hroom hiterations]; exact hoffset)]

end

variable (hobserved : ∀ e ∈ events, e.operation.isObservedOperation)

include hobserved in
theorem candidateHasWork_of_observed {start : ℕ} (hperiod : 0 < period)
    (h : start + period ≤ events.length) :
    candidateHasWork events start (start + period) = true := by
  rw [candidateHasWork, any_eq_true]
  refine ⟨start, mem_range'_1.mpr ⟨le_refl _, by omega⟩, hobserved _ ?_⟩
  rw [eventAt, getD_eq_getElem?_getD, getElem?_eq_getElem (by omega), Option.getD_some]
  exact getElem_mem _

include hobserved in
/-- What the first pass looks at: the hashes of all blocks. -/
theorem exactPeriod_iff (hiterations : 0 < iterations) (htwo : 2 ≤ period)
    (hroom : iterations * period ≤ events.length) :
    exactPeriod events iterations period = true ↔ ∀ iteration < iterations,
      hash hashBase ((block events iterations period iteration).map canonicalToken) =
        hash hashBase ((block events iterations period 0).map canonicalToken) := by
  have hfirst := block_le hroom hiterations
  have hwork : candidateHasWork events (periodStart events iterations period)
      (periodStart events iterations period + period) = true :=
    candidateHasWork_of_observed hobserved (by omega) (by omega)
  have hreference := @blockHash_eq events iterations period 0 hroom hiterations
  rw [zero_mul, add_zero] at hreference
  simp only [exactPeriod, hwork, Bool.true_and, all_eq_true, mem_range'_1,
    decide_eq_true_eq, hreference]
  constructor
  · intro h iteration hlt
    rcases eq_zero_or_pos iteration with rfl | hpos
    · rfl
    · rw [← blockHash_eq hroom hlt]
      exact h iteration ⟨hpos, by omega⟩
  · intro h iteration hmem
    rw [blockHash_eq hroom (by omega)]
    exact h iteration (by omega)

/-! ## Ranges -/

variable (events) in
/-- The offsets at which a range has the event of another one. -/
def rangeMatches (first later : IterationRange) : ℕ :=
  (List.range (later.stop - later.start)).countP fun offset =>
    sameCanonicalEvent (eventAt events (first.start + offset))
      (eventAt events (later.start + offset))

/-- What detected iterations have to be. -/
structure SoundIterations (events : List TraceEvent) (iterations : ℕ)
    (ranges : List IterationRange) : Prop where
  count : ranges.length = iterations
  adjacent : ranges.IsChain fun range next => range.stop = next.start
  size : ∃ period, 2 ≤ period ∧ ∀ range ∈ ranges, range.stop = range.start + period
  last : ∃ range ∈ ranges.getLast?, range.stop = events.length
  /-- Nine in ten events of the later ranges are those of the first. -/
  agree : ∀ first ∈ ranges.head?,
    9 * (ranges.tail.map fun range => range.stop - range.start).sum ≤
      10 * (ranges.tail.map (rangeMatches events first)).sum

variable (iterations) in
/-- The ranges of a period from a start. -/
def rangesOf (start period : ℕ) : List IterationRange :=
  (List.range iterations).map fun iteration =>
    ⟨start + iteration * period, start + iteration * period + period⟩

theorem rangesOf_succ (start period : ℕ) :
    rangesOf (iterations + 1) start period = ⟨start, start + period⟩ ::
      (List.range' 1 iterations).map fun iteration =>
        ⟨start + iteration * period, start + iteration * period + period⟩ := by
  rw [rangesOf, range_eq_range', range'_succ, map_cons, zero_mul, add_zero]

variable (events iterations) in
/-- Nine in ten events of the later blocks are those of the first. -/
def BlocksAgree (period : ℕ) : Prop :=
  9 * ((iterations - 1) * period) ≤ 10 * sameEvents events iterations
    (periodStart events iterations period) period (List.range period)

theorem rangesOf_sound (hiterations : 0 < iterations) (htwo : 2 ≤ period)
    (hroom : iterations * period ≤ events.length) (hagree : BlocksAgree events iterations period) :
    SoundIterations events iterations
      (rangesOf iterations (periodStart events iterations period) period) := by
  obtain ⟨k, rfl⟩ : ∃ k, iterations = k + 1 := ⟨iterations - 1, by omega⟩
  refine ⟨?_, ?_, ⟨period, htwo, ?_⟩, ?_, ?_⟩
  · rw [rangesOf, length_map, length_range]
  · rw [rangesOf, isChain_map, isChain_range]
    intro iteration _
    show _ + iteration * period + period = _ + (iteration + 1) * period
    rw [Nat.succ_mul]
    omega
  · intro range hrange
    obtain ⟨iteration, -, rfl⟩ := mem_map.mp hrange
    rfl
  · refine ⟨⟨periodStart events (k + 1) period + k * period,
      periodStart events (k + 1) period + k * period + period⟩, ?_, ?_⟩
    · rw [rangesOf, range_succ, map_append, map_singleton, getLast?_concat]
      rfl
    · rw [Nat.succ_mul] at hroom
      simp only [periodStart, Nat.succ_mul]
      omega
  · rw [rangesOf_succ]
    rintro first ⟨⟩
    simp only [tail_cons, map_map, Function.comp_def, Nat.add_sub_cancel_left,
      map_const', length_range', sum_replicate, smul_eq_mul]
    simp only [BlocksAgree, Nat.add_sub_cancel] at hagree
    refine hagree.trans (le_of_eq ?_)
    unfold sameEvents rangeMatches
    simp only [Nat.add_sub_cancel, Nat.add_sub_cancel_left]

/-- Equal blocks agree everywhere. -/
theorem BlocksEqual.agree (h : BlocksEqual events iterations period) :
    BlocksAgree events iterations period := by
  unfold BlocksAgree sameEvents
  have hcount : ∀ iteration ∈ List.range' 1 (iterations - 1),
      ((List.range period).countP fun offset =>
        sameCanonicalEvent (eventAt events (periodStart events iterations period + offset))
          (eventAt events (periodStart events iterations period + iteration * period + offset))) =
        period := by
    intro iteration hmem
    have hlt : iteration < iterations := by
      have := mem_range'_1.mp hmem
      omega
    rw [countP_eq_length.mpr, length_range]
    intro offset hoffset
    exact h iteration hlt offset (mem_range.mp hoffset)
  rw [map_congr_left hcount, map_const', sum_replicate, length_range', smul_eq_mul]
  omega

/-- The second pass looks at the events themselves. -/
theorem tolerantPeriod_agree (h : tolerantPeriod events iterations period = true) :
    BlocksAgree events iterations period := by
  simp only [tolerantPeriod, Bool.and_eq_true, decide_eq_true_eq] at h
  have hsimilarity := h.2
  unfold candidateSimilarity at hsimilarity
  simp only at hsimilarity
  split at hsimilarity
  · norm_num at hsimilarity
  · next hne =>
    have hpos : (0 : ℚ) < ((iterations - 1) * period : ℕ) := by
      exact_mod_cast pos_of_ne_zero hne
    rw [div_le_div_iff₀ (by norm_num) hpos] at hsimilarity
    have hcast : (9 * ((iterations - 1) * period) : ℕ) ≤ ((sameEvents events iterations
        (periodStart events iterations period) period (List.range period) * 10 : ℕ) : ℚ) := by
      push_cast at hsimilarity ⊢
      exact hsimilarity
    rw [BlocksAgree, mul_comm 10]
    exact_mod_cast hcast

end

/-! ## Detection -/

/-- What is expected of detection on one trace. -/
structure DetectionSound (events : List TraceEvent) (targetIterations : ℤ) : Prop where
  ranges : ∀ ranges, cocclTrainingDetectIterations events targetIterations = some ranges →
    SoundIterations events targetIterations.toNat ranges
  exact : ∀ period, 2 ≤ period → targetIterations.toNat * period ≤ events.length →
    (exactPeriod events targetIterations.toNat period = true ↔
      BlocksEqual events targetIterations.toNat period)
  /-- The second pass runs only if there is no exact cycle. -/
  tolerant : (searchPeriods events targetIterations.toNat
      (exactPeriod events targetIterations.toNat)).period = 0 →
    ∀ period, 2 ≤ period → targetIterations.toNat * period ≤ events.length →
      ¬ BlocksEqual events targetIterations.toNat period

section

variable {events : List TraceEvent} {targetIterations : ℤ}

theorem bestPeriod_sound {iterations : ℕ}
    (hobserved : ∀ e ∈ events, e.operation.isObservedOperation) (hiterations : 0 < iterations)
    (hcollision : NoCollision events iterations)
    (hfound : (bestPeriod events iterations).period ≠ 0) :
    SoundIterations events iterations (rangesOf iterations (bestPeriod events iterations).start
      (bestPeriod events iterations).period) := by
  -- either pass returns a period that it accepts, and that one agrees
  have hpass : ∀ accept : ℕ → Bool, (∀ period, 2 ≤ period → iterations * period ≤ events.length →
      accept period = true → BlocksAgree events iterations period) →
      (searchPeriods events iterations accept).period ≠ 0 →
      SoundIterations events iterations (rangesOf iterations
        (searchPeriods events iterations accept).start
        (searchPeriods events iterations accept).period) := by
    intro accept hagree hne
    rcases @searchPeriods_found events iterations accept with ⟨hnone, -⟩ | ⟨hmem, haccept, hbest⟩
    · exact absurd (congrArg CandidatePeriod.period hnone) hne
    · obtain ⟨htwo, hroom⟩ := (mem_candidatePeriods hiterations).mp hmem
      rw [congrArg CandidatePeriod.start hbest]
      exact rangesOf_sound hiterations htwo hroom (hagree _ htwo hroom haccept)
  unfold bestPeriod at hfound ⊢
  simp only at hfound ⊢
  split
  · next hzero =>
    rw [if_pos hzero] at hfound
    exact hpass _ (fun period _ _ h => tolerantPeriod_agree h) hfound
  · next hne =>
    refine hpass _ (fun period htwo hroom h => ?_) hne
    exact (hcollision period htwo hroom
      ((exactPeriod_iff hobserved hiterations htwo hroom).mp h)).agree

/-- **Detection of iterations.** On a trace of observed operations detection is sound exactly when
no candidate period has blocks of one polynomial value that are not the same. -/
theorem detection_sound_iff (hobserved : ∀ e ∈ events, e.operation.isObservedOperation)
    (htarget : 2 ≤ targetIterations) :
    DetectionSound events targetIterations ↔ NoCollision events targetIterations.toNat := by
  have hiterations : 0 < targetIterations.toNat := by omega
  constructor
  · intro h period htwo hroom hhash
    exact (h.exact period htwo hroom).mp
      ((exactPeriod_iff hobserved hiterations htwo hroom).mpr hhash)
  · intro h
    have hexact : ∀ period, 2 ≤ period → targetIterations.toNat * period ≤ events.length →
        (exactPeriod events targetIterations.toNat period = true ↔
          BlocksEqual events targetIterations.toNat period) := by
      intro period htwo hroom
      rw [exactPeriod_iff hobserved hiterations htwo hroom]
      exact ⟨h period htwo hroom, fun hequal iteration hlt =>
        congrArg (hash hashBase) (hequal.hash_eq hroom hiterations hlt)⟩
    refine ⟨fun ranges hranges => ?_, hexact, fun hzero period htwo hroom hequal => ?_⟩
    · unfold cocclTrainingDetectIterations at hranges
      simp only at hranges
      split at hranges
      · cases hranges
      · split at hranges
        · cases hranges
        · next hfound =>
          obtain rfl := Option.some.inj hranges
          exact bestPeriod_sound hobserved hiterations h fun hzero => hfound (.inl hzero)
    · have hnot := (searchPeriods_eq_zero hiterations).mp hzero period htwo hroom
      rw [(hexact period htwo hroom).mpr hequal] at hnot
      cases hnot

end

/-! ## Two all-reduces -/

/-- An AllReduce of one communicator. -/
def allReduceOf (logicalBytes : ℕ) : TraceEvent := ⟨1, .allReduce, logicalBytes, 0, 0⟩

/-- Two sizes in turn. -/
theorem alternating_sound :
    DetectionSound [allReduceOf 1, allReduceOf 2, allReduceOf 1, allReduceOf 2] 2 := by
  refine (detection_sound_iff (by decide) (by decide)).mpr fun period htwo hroom _ => ?_
  obtain rfl : period = 2 := by
    have hlength : 2 * period ≤ 4 := hroom
    omega
  unfold BlocksEqual
  decide

/-- The two sizes in the order of a Thue-Morse word. -/
def thueMorseHalf : List TraceEvent := thueMorse (allReduceOf 1) (allReduceOf 2) 10

/-- The other size, ten nanoseconds later. -/
def exchanged (event : TraceEvent) : TraceEvent :=
  { event with logicalBytes := 3 - event.logicalBytes, timestampNs := 10 }

def thueMorseTrace : List TraceEvent := thueMorseHalf ++ thueMorseHalf.map exchanged

theorem prod_hashBase : ∏ i ∈ Finset.range 10, (hashBase ^ 2 ^ i - 1) = 0 := by
  decide +kernel

theorem length_thueMorseHalf : thueMorseHalf.length = 1024 := length_thueMorse _ _ 10

theorem length_thueMorseTrace : thueMorseTrace.length = 2048 := by
  rw [thueMorseTrace, length_append, length_map, length_thueMorseHalf]

theorem mem_thueMorseHalf {event : TraceEvent} (h : event ∈ thueMorseHalf) :
    event = allReduceOf 1 ∨ event = allReduceOf 2 := mem_thueMorse h

/-- An event of the first half, and the one that many events later. -/
theorem eventAt_thueMorseTrace {offset : ℕ} (h : offset < 1024) :
    eventAt thueMorseTrace offset ∈ thueMorseHalf ∧
      eventAt thueMorseTrace (1024 + offset) = exchanged (eventAt thueMorseTrace offset) := by
  have hlt : offset < thueMorseHalf.length := by rwa [length_thueMorseHalf]
  obtain ⟨event, hevent⟩ : ∃ event, thueMorseHalf[offset]? = some event :=
    ⟨_, getElem?_eq_getElem hlt⟩
  have hfirst : eventAt thueMorseTrace offset = event := by
    rw [eventAt, getD_eq_getElem?_getD, thueMorseTrace, getElem?_append_left hlt, hevent,
      Option.getD_some]
  have hsecond : eventAt thueMorseTrace (1024 + offset) = exchanged event := by
    rw [eventAt, getD_eq_getElem?_getD, thueMorseTrace,
      getElem?_append_right (by rw [length_thueMorseHalf]; omega), length_thueMorseHalf,
      Nat.add_sub_cancel_left, getElem?_map, hevent, Option.map_some, Option.getD_some]
  rw [hfirst, hsecond]
  exact ⟨mem_of_getElem? hevent, rfl⟩

theorem timestamp_thueMorseTrace {i : ℕ} (h : i < 2048) :
    (eventAt thueMorseTrace i).timestampNs = if i < 1024 then 0 else 10 := by
  by_cases hhalf : i < 1024
  · rw [if_pos hhalf]
    rcases mem_thueMorseHalf (eventAt_thueMorseTrace hhalf).1 with heq | heq <;> rw [heq] <;> rfl
  · rw [if_neg hhalf, show i = 1024 + (i - 1024) by omega, (eventAt_thueMorseTrace (by omega)).2]
    rfl

/-- Time passes only between the halves. -/
theorem gapBefore_thueMorseTrace {i : ℕ} (hpos : 0 < i) (h : i < 2048) :
    gapBefore thueMorseTrace i = some (if i = 1024 then 10 else 0) := by
  rw [gapBefore, timestamp_thueMorseTrace h, timestamp_thueMorseTrace (by omega)]
  split_ifs <;> first | rfl | omega

theorem median_gaps_thueMorseTrace :
    median ((List.range' 1 (thueMorseTrace.length - 1)).filterMap (gapBefore thueMorseTrace)) =
      0 := by
  have hgaps : (List.range' 1 (thueMorseTrace.length - 1)).filterMap (gapBefore thueMorseTrace) =
      (List.range' 1 2047).map fun i => if i = 1024 then 10 else 0 := by
    rw [length_thueMorseTrace, ← filterMap_eq_map]
    refine filterMap_congr fun i hi => ?_
    obtain ⟨hpos, hlt⟩ := mem_range'_1.mp hi
    exact gapBefore_thueMorseTrace hpos (by omega)
  rw [hgaps]
  exact median_eq_zero (by decide +kernel)

/-- The score of a period is the gap before the second of its two blocks. -/
theorem boundaryGapScore_thueMorseTrace (htwo : 2 ≤ period) (h : period ≤ 1024) :
    boundaryGapScore thueMorseTrace 2 (periodStart thueMorseTrace 2 period) period =
      if period = 1024 then 10 else 0 := by
  have hstart : periodStart thueMorseTrace 2 period + 1 * period = 2048 - period := by
    rw [periodStart, length_thueMorseTrace]
    omega
  have hgap := @gapBefore_thueMorseTrace (2048 - period) (by omega) (by omega)
  unfold boundaryGapScore
  rw [if_neg (by rw [length_thueMorseTrace]; omega), median_gaps_thueMorseTrace]
  simp only [Nat.add_one_sub_one, range'_one, map_cons, map_nil, hstart]
  rw [filter_cons_of_pos (by rw [length_thueMorseTrace]; simp; omega), filter_nil,
    filterMap_cons_some hgap, filterMap_nil, if_neg (cons_ne_nil _ _),
    median_singleton, if_pos trivial]
  by_cases hlast : period = 1024
  · rw [if_pos hlast, if_pos (by omega)]
    norm_num
  · rw [if_neg hlast, if_neg (by omega)]
    norm_num

theorem thueMorseTrace_observed : ∀ e ∈ thueMorseTrace, e.operation.isObservedOperation := by
  intro e he
  rcases mem_append.mp he with he | he
  · rcases mem_thueMorseHalf he with rfl | rfl <;> rfl
  · obtain ⟨event, hevent, rfl⟩ := mem_map.mp he
    rcases mem_thueMorseHalf hevent with rfl | rfl <;> rfl

theorem periodStart_thueMorseTrace : periodStart thueMorseTrace 2 1024 = 0 := by
  rw [periodStart, length_thueMorseTrace]

/-- The halves have one hash. -/
theorem exactPeriod_thueMorseTrace : exactPeriod thueMorseTrace 2 1024 = true := by
  have hfirst : block thueMorseTrace 2 1024 0 = thueMorseHalf := by
    rw [block, periodStart_thueMorseTrace, thueMorseTrace, Nat.zero_mul, drop_zero,
      take_left' length_thueMorseHalf]
  have hsecond : block thueMorseTrace 2 1024 1 = thueMorseHalf.map exchanged := by
    rw [block, periodStart_thueMorseTrace, thueMorseTrace, one_mul, zero_add,
      drop_left' length_thueMorseHalf,
      take_of_length_le (by rw [length_map, length_thueMorseHalf])]
  refine (exactPeriod_iff thueMorseTrace_observed (by decide) (by decide)
    (by rw [length_thueMorseTrace])).mpr fun iteration hlt => ?_
  obtain rfl | rfl : iteration = 0 ∨ iteration = 1 := by omega
  · rfl
  · rw [hfirst, hsecond, thueMorseHalf, map_thueMorse, map_thueMorse, map_thueMorse]
    -- the time of an event is not in its token
    refine sub_eq_zero.mp ((hash_sub_hash hashBase (canonicalToken (allReduceOf 2))
      (canonicalToken (allReduceOf 1)) 10).trans ?_)
    rw [prod_hashBase, mul_zero]

/-- The first pass settles on the halves: all other periods have no gap at their boundary. -/
theorem bestPeriod_thueMorseTrace : bestPeriod thueMorseTrace 2 = ⟨1024, 0, 10⟩ := by
  have hcandidate : candidatePeriod thueMorseTrace 2 1024 = ⟨1024, 0, 10⟩ := by
    rw [candidatePeriod, boundaryGapScore_thueMorseTrace (by decide) le_rfl,
      periodStart_thueMorseTrace, if_pos rfl]
  have hperiods : candidatePeriods thueMorseTrace 2 = List.range' 2 1022 ++ [1024] := by
    rw [candidatePeriods, length_thueMorseTrace]
    exact range'_concat
  have hsearch : searchPeriods thueMorseTrace 2 (exactPeriod thueMorseTrace 2) = ⟨1024, 0, 10⟩ := by
    rw [searchPeriods, hperiods, foldl_append, foldl_cons, foldl_nil, considerPeriod,
      exactPeriod_thueMorseTrace, hcandidate]
    have hfound := @foldl_found thueMorseTrace 2 (exactPeriod thueMorseTrace 2)
      (List.range' 2 1022) [] noPeriod (.inl ⟨rfl, by simp⟩)
    generalize (List.range' 2 1022).foldl _ noPeriod = best at hfound ⊢
    have hscore : best.gapScore ≤ 0 := by
      rcases hfound with ⟨rfl, -⟩ | ⟨hmem, -, hbest⟩
      · simp [noPeriod]
      · obtain ⟨htwo, hlt⟩ := mem_range'_1.mp hmem
        rw [hbest, candidatePeriod, boundaryGapScore_thueMorseTrace htwo (by omega),
          if_neg (by omega)]
    have hbetter : best.gapScore + 1 / 1000000000 < 10 := by linarith
    simp only [Bool.not_true, Bool.false_eq_true, if_false, CandidatePeriod.better,
      decide_eq_true hbetter, Bool.true_or, if_true]
  rw [bestPeriod, hsearch]
  rfl

/-- The halves agree nowhere. -/
theorem rangeMatches_thueMorseTrace :
    rangeMatches thueMorseTrace ⟨0, 1024⟩ ⟨1024, 2048⟩ = 0 := by
  refine countP_eq_zero.mpr fun offset hoffset => ?_
  obtain ⟨hmem, hsecond⟩ := eventAt_thueMorseTrace (mem_range.mp hoffset)
  rw [zero_add, hsecond]
  rcases mem_thueMorseHalf hmem with heq | heq <;> rw [heq] <;> decide

/-- **A collision.** The two halves of the trace differ everywhere and have one hash. The first pass
takes them for an exact cycle and detection returns them. -/
theorem thueMorseTrace_not_sound :
    (∀ e ∈ thueMorseTrace, e.operation.isObservedOperation) ∧
      cocclTrainingDetectIterations thueMorseTrace 2 = some [⟨0, 1024⟩, ⟨1024, 2048⟩] ∧
      ¬ DetectionSound thueMorseTrace 2 := by
  have hdetect : cocclTrainingDetectIterations thueMorseTrace 2 =
      some [⟨0, 1024⟩, ⟨1024, 2048⟩] := by
    rw [cocclTrainingDetectIterations, if_neg (by rw [length_thueMorseTrace]; decide)]
    simp only [show (2 : ℤ).toNat = 2 from rfl, bestPeriod_thueMorseTrace]
    rw [if_neg (by norm_num)]
    rfl
  refine ⟨thueMorseTrace_observed, hdetect, fun h => ?_⟩
  have hagree := (h.ranges _ hdetect).agree ⟨0, 1024⟩ rfl
  simp only [tail_cons, map_cons, map_nil, rangeMatches_thueMorseTrace] at hagree
  exact absurd hagree (by decide)

end Coccl
