import Coccl.Pipeline.OverlapConflicts

/-!
# An ordered program is correct

Every legal order of a program with the executor's order is as good as the serial run
(`Prepared.overlapCorrect_of_ordered`).
-/

namespace Coccl

open Streams PipelineContext Footprint List

section

variable {κ : Type} {context : PipelineContext κ} {s k : ℕ} {c : Step}

/-! ## The serial run as a list -/

theorem serialWorks_pair {x y : WorkOp} (h : [x, y].Sublist context.serialWorks) :
    ∃ s t a b, x = .at s a ∧ y = .at t b ∧ t < context.depth ∧ a ∈ context.sliceSteps ∧
      b ∈ context.sliceSteps ∧ (s < t ∨ s = t ∧ [a, b].Sublist context.sliceSteps) := by
  rcases pair_sublist_flatMap_iff.mp h with ⟨s, t, hst, hx, hy⟩ | ⟨s, hs, hpair⟩
  · obtain ⟨hlt, ht⟩ := pair_sublist_range_iff.mp hst
    obtain ⟨a, ha, rfl⟩ := mem_map.mp hx
    obtain ⟨b, hb, rfl⟩ := mem_map.mp hy
    exact ⟨s, t, a, b, rfl, rfl, ht, ha, hb, .inl hlt⟩
  · obtain ⟨l, hl, heq⟩ := sublist_map_iff.mp hpair
    rcases l with _ | ⟨a, _ | ⟨b, _ | ⟨c, l⟩⟩⟩ <;> simp only [map_cons, map_nil,
      List.cons.injEq, reduceCtorEq, and_false] at heq
    obtain ⟨rfl, rfl, -⟩ := heq
    exact ⟨s, s, a, b, rfl, rfl, mem_range.mp hs, hl.subset (by simp), hl.subset (by simp),
      .inr ⟨rfl, hl⟩⟩

theorem mem_serialWorks {x : WorkOp} : x ∈ context.serialWorks ↔
    ∃ s < context.depth, ∃ a ∈ context.sliceSteps, x = .at s a := by
  simp only [serialWorks, mem_flatMap, mem_range, mem_map, eq_comm]

theorem serialWorks_nodup : (context.serialWorks ++ [WorkOp.resume]).Nodup := by
  refine nodup_append.mpr ⟨?_, by simp, ?_⟩
  · refine nodup_flatMap.mpr ⟨fun s _ => ?_, ?_⟩
    · exact sliceSteps_nodup.map fun a b h => by simpa using h
    · refine nodup_range.imp fun {s t} hst => ?_
      intro x hx hy
      obtain ⟨a, -, rfl⟩ := mem_map.mp hx
      obtain ⟨b, -, h⟩ := mem_map.mp hy
      simp only [WorkOp.at.injEq] at h
      exact hst h.1.symm
  · intro x hx y hy
    obtain ⟨s, -, a, -, rfl⟩ := mem_serialWorks.mp hx
    simp_all

/-- A feed joins two steps of a slice through memory that nothing between them writes. -/
structure FeedKept (context : PipelineContext κ) (s : ℕ) (step : Step) (feed : Feed) : Prop where
  mem : feed.producer ∈ context.sliceSteps
  key : context.stepKey feed.producer < context.stepKey step
  region : feed.region ⊆ feed.written
  writes : feed.written ⊆ context.stepWrites s feed.producer
  reads : feed.region ⊆ context.stepReads s step
  apart : ∀ c ∈ context.sliceSteps, context.stepKey feed.producer < context.stepKey c →
    context.stepKey c ≤ context.stepKey step → Disjoint (context.stepWrites s c) feed.region

namespace Prepared

theorem mem_stageSteps_of_key (hc : c ∈ context.sliceSteps) (hk : k < context.stageCount)
    (hlo : 2 * k < context.stepKey c) (hhi : context.stepKey c ≤ 2 * k + 2) :
    c ∈ context.stageSteps k := by
  rcases mem_sliceSteps.mp hc with ⟨rfl, -⟩ | ⟨j, -, hmem⟩ | ⟨rfl, -⟩
  · simp [stepKey] at hlo
  · have := stageSteps_key hmem
    obtain rfl : j = k := by omega
    exact hmem
  · simp only [stepKey] at hhi
    omega

theorem payloadLocs_subset :
    context.payloadLocs s k ⊆ context.stepWrites s (context.payloadWriter k) := by
  unfold payloadWriter
  split
  · exact subset_rfl
  · exact Set.subset_union_left

variable {prog : List PipelineItem} {order : List ℕ} (O : context.Ordered prog)

include O in
theorem hostWorks_nodup : (hostWorks prog).Nodup :=
  O.works_perm.nodup_iff.mpr serialWorks_nodup

include O in
theorem mem_works (hlegal : Legal prog order) {op : WorkOp} :
    op ∈ works prog order ↔ op ∈ context.serialWorks ∨ op = .resume := by
  rw [hlegal.works_perm.mem_iff, O.works_perm.mem_iff, mem_append, mem_singleton]

variable [DecidableEq κ] {plugins : κ → Plugin} {spec : PipelineSpec κ} {requestedDepth : ℤ}
  {chunks : List ℕ} {requireSerial : Bool} {logical : PipelinePlan}
  (P : Prepared plugins spec requestedDepth context chunks requireSerial logical)

include P

/-! ## Pipelines without frames -/

/-- No edge of a pipeline without a framed compressor has metadata. -/
theorem frameMetadata_none (h : pipelineUsesFramedCompressor plugins spec = false)
    (hs : s < context.depth) (hk : k < context.stageCount) : context.frameMetadata s k = none := by
  rcases ht : context.outputTemp k with _ | t
  · simp [frameMetadata, ht]
  · obtain ⟨plan, input, final, outputs, hslice, hcovers, -, -, hlen⟩ := P.slicePlan hs
    have houtput : outputs[k]? = some (outputs.get ⟨k, by omega⟩) := by simp
    have hunframed : (outputs.get ⟨k, by omega⟩).framed = false := by
      refine hslice.chain.unframed hslice.input_framed.1 (fun stage hstage => ?_) _
        (mem_of_getElem? houtput)
      have hmem : stage.1 ∈ spec.stages := (of_mem_zip hstage).1
      simpa using any_eq_false.mp h stage.1 hmem
    obtain ⟨-, -, -, item, -, htempFor, -, hframes⟩ :=
      P.stageTempFor hslice hcovers hlen houtput ht
    have hzero : (context.temp t).frameMetadataBytes = 0 := by
      rw [hframes, htempFor.frameMetadataBytes, hunframed]
      rfl
    simp [frameMetadata, ht, hzero]

theorem usesFrameExchange_eq_false (h : pipelineUsesFramedCompressor plugins spec = false)
    (hk : k < context.stageCount) : context.usesFrameExchange k = false := by
  rcases k with _ | k
  · rfl
  · simp [usesFrameExchange, P.frameMetadata_none h P.depth_pos.1 (show k < _ by omega)]

/-- The last stage before an unpack exchanges no frames. -/
theorem exchange_free (safe : OverlapSafe plugins context) (hout : context.stagesOutput = true) :
    context.usesFrameExchange (context.stageCount - 1) = false := by
  have hpos := P.stageCount_pos
  cases hframed : pipelineUsesFramedCompressor plugins spec with
  | false => exact P.usesFrameExchange_eq_false hframed (by omega)
  | true => exact (safe.framed hout (by rw [P.spec_eq]; exact hframed)).2

/-! ## The steps of one slice -/

/-- Neighbouring stages write to places apart. -/
theorem outputs_apart (hs : s < context.depth) (hk : k + 1 < context.stageCount) :
    Disjoint (context.payloadLocs s (k + 1) ∪ context.frameLocs s (k + 1))
      (context.payloadLocs s k ∪ context.frameLocs s k) := by
  refine Set.disjoint_left.mpr fun l hl hl' => ?_
  obtain ⟨-, hmem⟩ := P.inner_cases hs hk hl'
  rcases P.output_cases hs hk hl with ⟨huser, -⟩ | ⟨hlt, hmem'⟩
  · exact tempLocs_not_user hmem huser
  · exact Set.disjoint_left.mp (P.tempLocs_adjacent s hlt) hmem hmem'

variable {step : Step}

theorem payloadFeed_kept (hs : s < context.depth) (hk : k + 1 < context.stageCount)
    (hstep : step ∈ context.stageSteps (k + 1))
    (hreads : context.payloadLocs s k ⊆ context.stepReads s step) :
    FeedKept context s step (context.payloadFeed s k) where
  mem := payloadWriter_mem (by omega)
  key := by
    have := stageSteps_key hstep
    show context.stepKey (context.payloadWriter k) < _
    rw [payloadWriter_key]
    omega
  region := subset_rfl
  writes := payloadLocs_subset
  reads := hreads
  apart := fun c hc hlo hhi => by
    have := stageSteps_key hstep
    have hlo : 2 * k + 2 < context.stepKey c := by
      have := @payloadWriter_key _ context k
      exact this ▸ hlo
    have hmem := mem_stageSteps_of_key hc hk (by omega) (by omega)
    exact (P.outputs_apart hs hk).mono (stageSteps_writes hmem) Set.subset_union_left

theorem framesFeed_kept (hs : s < context.depth) (hk : k + 1 < context.stageCount)
    (hstep : step ∈ context.stageSteps (k + 1))
    (hreads : context.frameLocs s k ⊆ context.stepReads s step) :
    FeedKept context s step (context.framesFeed s k) := by
  have hstepKey := stageSteps_key hstep
  have hmem : context.framesWriter k ∈ context.stageSteps k := by
    rw [mem_stageSteps]
    unfold framesWriter
    cases context.usesFrameExchange k <;> simp
  have hkey := stageSteps_key hmem
  refine ⟨mem_sliceSteps.mpr (.inr (.inl ⟨k, by omega, hmem⟩)), ?_, subset_rfl, ?_, hreads, ?_⟩
  · show context.stepKey (context.framesWriter k) < _
    omega
  · show context.frameLocs s k ⊆ context.stepWrites s (context.framesWriter k)
    unfold framesWriter
    split
    · exact subset_rfl
    · exact Set.subset_union_right
  · intro c hc hlo hhi
    change context.stepKey (context.framesWriter k) < context.stepKey c at hlo
    by_cases hnext : 2 * (k + 1) < context.stepKey c
    · have hmem := mem_stageSteps_of_key hc hk hnext (by omega)
      exact (P.outputs_apart hs hk).mono (stageSteps_writes hmem) Set.subset_union_right
    · -- an exchange writes the payload after the metadata
      have hmem := mem_stageSteps_of_key hc (show k < _ by omega) (by omega) (by omega)
      have hcommit : c = .commit k := by
        unfold framesWriter at hlo
        rcases mem_stageSteps.mp hmem with ⟨hex, rfl | rfl⟩ | ⟨hex, rfl⟩
        · simp [hex, stepKey] at hlo
        · rfl
        · simp [hex] at hlo
      rw [hcommit]
      exact P.payload_frames_disjoint hs (by omega)

/-- The first stage reads what the pack step left. -/
theorem packFeed_kept {t : ℕ} (hs : s < context.depth)
    (ht : context.plan.inputStagingTemp = some t) :
    FeedKept context s (.stage 0)
      ⟨.pack, (context.packedInput s t).locs, (context.packedInput s t).locs⟩ := by
  have hin : context.stagesInput = true := by simp [stagesInput, ht]
  obtain ⟨rfl, -, hsub⟩ := P.packed_subset hs ht
  refine ⟨mem_sliceSteps.mpr (.inl ⟨rfl, hin⟩), by simp [stepKey], subset_rfl, ?_, ?_, ?_⟩
  · simp [stepWrites, ht]
  · simp [stepReads, stageInput, ht]
  · intro c hc hlo hhi
    have hmem := mem_stageSteps_of_key hc P.stageCount_pos hlo (by simpa [stepKey] using hhi)
    refine Set.disjoint_left.mpr fun l hl hl' => ?_
    rcases P.output_cases hs P.stageCount_pos (stageSteps_writes hmem hl) with
      ⟨huser, -⟩ | ⟨hlt, hmem'⟩
    · exact tempLocs_not_user (hsub hl') huser
    · have hfirst : context.firstTemp = 1 := by simp [firstTemp, hin]
      rw [hfirst] at hlt hmem'
      exact Set.disjoint_left.mp (P.tempLocs_adjacent s hlt) (hsub hl') hmem'

theorem unpackFeed_kept (safe : OverlapSafe plugins context) (hs : s < context.depth)
    (hout : context.stagesOutput = true) :
    FeedKept context s .unpack ⟨context.finalStep, (context.unpackSource s).locs,
      context.payloadLocs s (context.stageCount - 1)⟩ := by
  have hpos := P.stageCount_pos
  have hsub := unpackSource_subset.mpr (safe.rows hout s hs)
  refine ⟨P.finalStep_mem, ?_, hsub, payloadLocs_subset, subset_rfl, ?_⟩
  · show context.stepKey context.finalStep < context.stepKey .unpack
    rw [finalStep, payloadWriter_key]
    simp only [stepKey]
    omega
  · intro c hc hlo hhi
    change context.stepKey context.finalStep < context.stepKey c at hlo
    rw [finalStep, payloadWriter_key] at hlo
    have hunpack : c = .unpack := by
      refine stepKey_inj hc (mem_sliceSteps.mpr (.inr (.inr ⟨rfl, hout⟩))) (le_antisymm hhi ?_)
      show 2 * context.stageCount + 1 ≤ context.stepKey c
      omega
    subst hunpack
    refine Set.disjoint_left.mpr fun l hl hl' => ?_
    rcases P.output_cases hs (show context.stageCount - 1 < _ by omega) (.inl (hsub hl')) with
      ⟨-, -, hno, -⟩ | ⟨-, hmem⟩
    · simp [hno] at hout
    · exact tempLocs_not_user hmem hl.1

/-- **Every feed of a slice is kept by the steps between its ends.** -/
theorem feed_kept (safe : OverlapSafe plugins context) (hs : s < context.depth)
    (hstep : step ∈ context.sliceSteps) {feed : Feed} (hfeed : feed ∈ context.feeds s step) :
    FeedKept context s step feed := by
  rcases mem_sliceSteps.mp hstep with ⟨rfl, -⟩ | ⟨k, hk, hmem⟩ | ⟨rfl, hout⟩
  · simp [feeds] at hfeed
  · rcases mem_stageSteps.mp hmem with ⟨hex, rfl | rfl⟩ | ⟨hex, rfl⟩
    · obtain ⟨k, rfl⟩ : ∃ j, k = j + 1 := ⟨k - 1, by have := usesFrameExchange_pos hex; omega⟩
      obtain rfl := mem_singleton.mp hfeed
      exact P.framesFeed_kept hs hk hmem subset_rfl
    · obtain ⟨k, rfl⟩ : ∃ j, k = j + 1 := ⟨k - 1, by have := usesFrameExchange_pos hex; omega⟩
      simp only [feeds, mem_cons, not_mem_nil, or_false, Nat.add_sub_cancel] at hfeed
      rcases hfeed with rfl | rfl | rfl
      · exact P.payloadFeed_kept hs hk hmem
          (Set.subset_union_of_subset_left Set.subset_union_left _)
      · exact P.framesFeed_kept hs hk hmem
          (Set.subset_union_of_subset_left Set.subset_union_right _)
      · have hprepare : .prepare (k + 1) ∈ context.stageSteps (k + 1) :=
          mem_stageSteps.mpr (.inl ⟨hex, .inl rfl⟩)
        refine ⟨mem_sliceSteps.mpr (.inr (.inl ⟨k + 1, hk, hprepare⟩)), by simp [stepKey],
          subset_rfl, subset_rfl, Set.subset_union_right, fun c hc hlo hhi => ?_⟩
        obtain rfl : c = .commit (k + 1) := by
          refine stepKey_inj hc hstep ?_
          simp only [stepKey] at hlo hhi ⊢
          omega
        exact P.payload_frames_disjoint hs hk
    · rcases k with _ | k
      · rcases ht : context.plan.inputStagingTemp with _ | t
        · simp [feeds, ht] at hfeed
        · simp only [feeds, ht, mem_singleton] at hfeed
          subst hfeed
          exact P.packFeed_kept hs ht
      · simp only [feeds, mem_cons, not_mem_nil, or_false] at hfeed
        rcases hfeed with rfl | rfl
        · exact P.payloadFeed_kept hs hk hmem Set.subset_union_left
        · exact P.framesFeed_kept hs hk hmem Set.subset_union_right
  · obtain rfl := mem_singleton.mp hfeed
    exact P.unpackFeed_kept safe hs hout

theorem le_lastStep {a : Step} (ha : a ∈ context.sliceSteps) :
    a = context.lastStep ∨ context.stepKey a < context.stepKey context.lastStep := by
  have hpos := P.stageCount_pos
  have hkey : context.stepKey a ≤ context.stepKey context.lastStep := by
    unfold lastStep
    rcases mem_sliceSteps.mp ha with ⟨rfl, -⟩ | ⟨k, hk, hmem⟩ | ⟨rfl, hout⟩
    · simp [stepKey]
    · have := stageSteps_key hmem
      split
      · simp only [show context.stepKey .unpack = 2 * context.stageCount + 1 from rfl]
        omega
      · rw [finalStep, payloadWriter_key]
        omega
    · simp [hout]
  rcases Nat.eq_or_lt_of_le hkey with h | h
  · exact .inl (stepKey_inj ha P.lastStep_mem h)
  · exact .inr h

/-! ## Assembling the run -/

variable (safe : OverlapSafe plugins context) (hdepth : 1 < context.depth)

include O safe hdepth

/-- A legal order keeps the dependent steps of the serial run in their order. -/
theorem reorders {ops : WorkOp → Op Loc UInt8} (hops : context.Respects ops)
    (hlegal : Legal prog order) :
    Reorders ops (context.serialWorks ++ [.resume]) (works prog order) where
  perm := O.works_perm.symm.trans hlegal.works_perm.symm
  keeps := fun i j hdep hpair => by
    rcases pair_sublist_append_iff.mp hpair with hpair | ⟨-, hj⟩ | hpair
    · obtain ⟨s, t, a, b, rfl, rfl, ht, ha, hb, hst | ⟨rfl, hab⟩⟩ := serialWorks_pair hpair
      · rw [Op.Indep, not_and_or, Set.not_disjoint_iff, Set.not_disjoint_iff] at hdep
        simp only [Op.touches, (hops _).1, (hops _).2, reads, writes] at hdep
        have hconflict := fun l hl => P.conflict_ordered (l := l) O (hostWorks_nodup O) safe hdepth
          hst ht ha hb hl (P.exchange_free safe) order hlegal
        rcases hdep with ⟨l, hl⟩ | ⟨l, hl⟩
        · exact hconflict l (.inl hl)
        · exact hconflict l (.inr hl)
      · exact O.slice s ht a b hab order hlegal
    · obtain rfl := mem_singleton.mp hj
      refine absurd ⟨?_, ?_⟩ hdep <;> simp [Op.touches, (hops _).1, (hops _).2, reads, writes]
    · have := hpair.length_le
      simp at this

/-- What another slice writes does not come between the two ends of a feed. -/
theorem feed_cross_slice (hlegal : Legal prog order) {t : ℕ} (hs : s < context.depth)
    (ht : t < context.depth) (hne : t ≠ s) (hstep : step ∈ context.sliceSteps)
    (hc : c ∈ context.sliceSteps) {feed : Feed} (kept : FeedKept context s step feed)
    (hafter : [.at s feed.producer, .at t c].Sublist (works prog order))
    (hbefore : [.at t c, .at s step].Sublist (works prog order)) :
    Disjoint (context.stepWrites t c) feed.region := by
  have hn := hostWorks_nodup O
  have hnodup := hlegal.works_nodup hn
  refine Set.disjoint_left.mpr fun l hl hl' => ?_
  rcases lt_or_gt_of_ne hne with hlt | hlt
  · -- an earlier slice is done with these bytes when the producer writes them
    have hprec := P.conflict_ordered O hn safe hdepth hlt hs hc kept.mem
      (.inl ⟨hl, .inr (kept.writes (kept.region hl'))⟩) (P.exchange_free safe)
    exact pair_sublist_antisymm hnodup hafter (hprec order hlegal)
  · have hprec := P.conflict_ordered O hn safe hdepth hlt ht hstep hc
      (.inr ⟨hl, .inl (kept.reads hl')⟩) (P.exchange_free safe)
    exact pair_sublist_antisymm hnodup hbefore (hprec order hlegal)

/-- **A program with the executor's order is correct**, if its pipeline is safe to overlap. -/
theorem overlapCorrect_of_ordered : context.OverlapCorrect prog := by
  have hn := hostWorks_nodup O
  refine ⟨?_, ?_, ?_, ?_⟩
  · intro ops hops order hlegal memory l _
    rw [← run_eq_of_order serialWorks_nodup (P.reorders O safe hdepth hops hlegal), run_append]
    refine run_frame ops (fun op hop => ?_) _
    obtain rfl := mem_singleton.mp hop
    rw [(hops _).2]
    exact Set.notMem_empty l
  · intro ops hops order hlegal memory op before after serialBefore serialAfter hworks hserial l hl
    refine (run_agree_before serialWorks_nodup (P.reorders O safe hdepth hops hlegal)
      (b := serialAfter ++ [.resume]) ?_ hworks memory (.inl ?_)).symm
    · rw [hserial, append_assoc, cons_append]
    · rw [(hops _).1]
      exact hl
  · intro order hlegal s step hmem feed hfeed
    have hnodup := hlegal.works_nodup hn
    obtain ⟨s, hs, step, hstep, heq⟩ :=
      mem_serialWorks.mp (((mem_works O hlegal).mp hmem).resolve_right (by simp))
    obtain ⟨rfl, rfl⟩ := WorkOp.at.inj heq
    have kept := P.feed_kept safe hs hstep hfeed
    refine ⟨kept.region, O.slice _ hs _ _ (sliceSteps_pair kept.mem hstep kept.key) order hlegal,
      fun op hafter hbefore => ?_⟩
    have hop : op ∈ works prog order := hafter.subset (by simp)
    rcases (mem_works O hlegal).mp hop with hserial | rfl
    · obtain ⟨t, ht, c, hc, rfl⟩ := mem_serialWorks.mp hserial
      by_cases hts : t = s
      · subst hts
        refine kept.apart c hc ?_ ?_
        · -- a step of the slice that is not after the producer would run before it
          by_contra hle
          rcases Nat.eq_or_lt_of_le (not_lt.mp hle) with heq | hlt
          · obtain rfl := stepKey_inj hc kept.mem heq
            exact pair_sublist_antisymm hnodup hafter hafter
          · exact pair_sublist_antisymm hnodup hafter
              (O.slice _ ht _ _ (sliceSteps_pair hc kept.mem hlt) order hlegal)
        · by_contra hlt
          rcases hbefore with hbefore | heq
          · exact pair_sublist_antisymm hnodup hbefore
              (O.slice _ ht _ _ (sliceSteps_pair hstep hc (not_le.mp hlt)) order hlegal)
          · obtain ⟨-, rfl⟩ := WorkOp.at.inj heq
            exact hlt le_rfl
      · refine P.feed_cross_slice O safe hdepth hlegal hs ht hts hstep hc kept hafter ?_
        exact hbefore.resolve_right fun h => hts (WorkOp.at.inj h).1
    · exact Set.empty_disjoint _
  · intro order hlegal op hop hne
    obtain ⟨s, hs, a, ha, rfl⟩ :=
      mem_serialWorks.mp (((mem_works O hlegal).mp hop).resolve_right hne)
    have hend := O.resumes order hlegal
    have hlast := P.le_lastStep ha
    rcases Nat.eq_or_lt_of_le (show s ≤ context.depth - 1 by omega) with rfl | hlt
    · rcases hlast with rfl | hkey
      · exact hend
      · exact pair_sublist_trans (hlegal.works_nodup hn)
          (O.slice _ hs _ _ (sliceSteps_pair ha P.lastStep_mem hkey) order hlegal) hend
    · exact pair_sublist_trans (hlegal.works_nodup hn)
        (precedes_later O hn hlt (by omega) ha P.lastStep_mem hlast order hlegal) hend

end Prepared

end

end Coccl
