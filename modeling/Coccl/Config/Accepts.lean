import Coccl.Config.Sections

/-!
# Which documents are accepted

A caller without an error sink gets the configuration of every admitted document, one with a sink
only if no table is of the wrong kind. So the two agree exactly on the documents that are not
admitted anyway and on those without such a table (`loadsAlike_iff`).
-/

namespace Coccl

open Reports Toml List

namespace Config

/-! ## Training -/

theorem validateKeys_carries (table : Table) (allowed : List String) (path : String) :
    Carries (validateKeys table allowed path) := by
  unfold validateKeys
  split
  · exact .pure ()
  · exact fun _ _ => .inl rfl

theorem parseClassifier_decides (classifier : Option Table) (required : Bool)
    (training : TrainingConfig) (hstrategy : training.dataParallelStrategy = .sdp) :
    Decides (parseClassifier classifier required training) True
      (∀ table ∈ classifier, ClassifierAdmitted required table)
      { training with
        dataParallelSize :=
          (classifier.getD []).intOr "data_parallel_size" training.dataParallelSize
        tensorParallelSize :=
          (classifier.getD []).intOr "tensor_parallel_size" training.tensorParallelSize
        pipelineParallelSize :=
          (classifier.getD []).intOr "pipeline_parallel_size" training.pipelineParallelSize
        dataParallelStrategy :=
          (parseDataParallelStrategy ((classifier.getD []).stringOr "dp_strategy" "sdp")).getD .sdp
        sequenceParallel :=
          (classifier.getD []).boolOr "sequence_parallel" training.sequenceParallel } := by
  cases classifier with
  | none =>
    obtain ⟨_, _, _, _, strategy, _⟩ := training
    obtain rfl : strategy = .sdp := hstrategy
    exact (Decides.pure trivial).congr (iff_of_true trivial nofun) (fun _ => Iff.rfl) fun _ => rfl
  | some table =>
    apply Decides.congr
    · exact (validateKeys_decides _ _ _).bind ((readParallelSize_decides _ _ _ _).bind
        ((readParallelSize_decides _ _ _ _).bind ((readParallelSize_decides _ _ _ _).bind
          ((readString_optional _ _ _ _).bind ((readBool_decides _ _ _ _).bind
            ((Decides.orFail _ _ .sdp).map _))))))
    · simp only [Option.mem_some_iff, forall_eq']
      exact (classifierAdmitted_iff required table).symm
    · simp
    · intro _
      rfl

theorem parseTrainingPolicies_catches (parent : Table) (threshold : ℕ) :
    Catches (parseTrainingPolicies parent threshold) :=
  .bind (optionalTable_carries _ _ _) fun _ => .bind (optionalTable_carries _ _ _) fun _ =>
    .bind (optionalTable_carries _ _ _) fun _ => .unreported .reject

theorem parseTrainingPolicies_decides (parent : Table) (threshold : ℕ) :
    Decides (parseTrainingPolicies parent threshold) (TrainingPoliciesWellTyped parent)
      (TrainingPoliciesAdmitted parent) (trainingPoliciesOf threshold parent) := by
  apply Decides.congr
  · exact optionalTable_bind (optionalTable_bind (optionalTable_bind (.unreported
      ((parseCollectivePolicies_decides _ _ _).bind ((parseCollectivePolicies_decides _ _ _).bind
        ((validateKeys_decides _ _ _).bind (optionalTable_bind
          ((validateKeys_decides _ _ _).bind (optionalTable_bind (optionalTable_bind
            (.unreported ((parsePrimitivePolicy_decides _ _ _).bind
              ((parsePrimitivePolicy_decides _ _ _).map _)))
            (.unreported .reject))
            (.bind (optionalTable_carries _ _ _) fun _ => .unreported .reject)))
          (.bind (validateKeys_carries _ _ _) fun _ => .bind (optionalTable_carries _ _ _) fun _ =>
            .bind (optionalTable_carries _ _ _) fun _ => .unreported .reject))))))
      (.unreported .reject))
      (.bind (optionalTable_carries _ _ _) fun _ => .unreported .reject))
      (.bind (optionalTable_carries _ _ _) fun _ => .bind (optionalTable_carries _ _ _) fun _ =>
        .unreported .reject)
  · simp [trainingPoliciesAdmitted_iff, PoliciesAdmitted, directionKeys, Table.child, and_assoc]
  · intro _
    simp only [trainingPoliciesWellTyped_iff, PoliciesWellTyped, directionKeys, Table.child,
      forall_mem_cons, not_mem_nil]
    tauto
  · intro _
    rfl

theorem parseTraining_decides (table : Option Table) {config : Config}
    (hdefault : config.training = defaults.training) :
    Decides (parseTraining table config)
      ((table.getD []).TableAt "classifier" ∧ TrainingPoliciesWellTyped (table.getD []))
      (TrainingAdmitted (decide (config.runtime.mode = .training)) table)
      { config with
        training := trainingOf (table.getD [])
        trainingPolicies :=
          trainingPoliciesOf config.runtime.compressionThresholdBytes (table.getD []) } := by
  have hstrategy : config.training.dataParallelStrategy = .sdp := by
    rw [hdefault]
    rfl
  apply Decides.congr
  · exact (Decides.require _ _).bind ((validateKeys_decides _ _ _).bind
      ((readInt_decides _ _ _ _ _ _).bind (optionalTable_bind ((Decides.require _ _).bind
        ((parseClassifier_decides _ _ _ (by exact hstrategy)).bind
          ((parseTrainingPolicies_decides _ _).map _)))
        (.bind (.require _ _) fun _ => .bind (.pure _) fun _ =>
          .bind_left (parseTrainingPolicies_catches _ _)))))
  · exact (trainingAdmitted_iff _ table).symm
  · simp
  · intro _
    rw [hdefault]
    rfl

/-! ## Documents -/

theorem validateCatalogReferences_decides (config : Config) :
    Decides (validateCatalogReferences config) True config.Catalogued () := by
  simp only [validateCatalogReferences]
  split
  next hnone =>
    refine .pure fun policy hpolicy scope hscope henabled => ?_
    have hknown := find?_eq_none.mp hnone scope (mem_flatMap.mpr ⟨policy, hpolicy, hscope⟩)
    simpa [henabled] using hknown
  next scope hsome =>
    refine .fail fun hcatalogued => ?_
    obtain ⟨policy, hpolicy, hscope⟩ := mem_flatMap.mp (mem_of_find?_eq_some hsome)
    have hunknown := find?_some hsome
    simp only [Bool.and_eq_true, Bool.not_eq_true', contains_eq_mem,
      decide_eq_false_iff_not] at hunknown
    exact hunknown.2 (hcatalogued policy hpolicy scope hscope hunknown.1)

theorem parseConfigFileImpl_decides (path : String) (root : Table) :
    Decides (parseConfigFileImpl path (.ok root) defaults) (WellTyped root) (Admitted root)
      (ofDocument path root) := by
  apply Decides.congr
  · -- no section is read before its own function, so each starts from the defaults
    exact (validateKeys_decides _ _ _).bind ((parseRuntime_decides (by rfl)).bind
      ((parsePlugins_decides path (by rfl)).bind ((parsePipeline_decides (by rfl)).bind
        ((parseBuffer_decides (by rfl)).bind ((parseAutotune_decides (by rfl)).bind
          (optionalTable_bind (optionalTable_bind (.unreported
            ((parseNormal_decides _ _).bind ((parseTraining_decides _ (by rfl)).bind
              ((validateCatalogReferences_decides _).map _))))
            (.unreported .reject))
            (.bind (optionalTable_carries _ _ _) fun _ => .unreported .reject)))))))
  · rw [admitted_iff]
    simp only [and_assoc]
    rfl
  · intro _
    simp only [wellTyped_iff, sectionKeys, forall_mem_cons, not_mem_nil]
    tauto
  · intro _
    rfl

end Config

open Config

/-! ## Loading -/

/-- A parsed document is loaded if it is admitted and, for a caller with an error sink, well typed.
A document that is not loaded leaves the caller's configuration. -/
theorem cocclLoadConfigFile_spec (path : String) (root : Table) (config : Config) (error : Sink) :
    let result := cocclLoadConfigFile path (.ok root) (some config) error
    let loaded := path ≠ "" ∧ Admitted root ∧ (error.isSome = true → WellTyped root)
    (loaded → result.accepted = true ∧ result.config = some (ofDocument path root)) ∧
      (¬loaded → result.accepted = false ∧ result.config = some config) := by
  intro result loaded
  have hparse := parseConfigFileImpl_decides path root
  by_cases hpath : path = ""
  · have hresult : result = ⟨false, some config, _⟩ := if_pos hpath
    exact ⟨fun h => absurd hpath h.1, fun _ => by rw [hresult]; exact ⟨rfl, rfl⟩⟩
  · have hstored : result = .store config (parseConfigFileImpl path (.ok root) defaults
        (error.map fun _ => "")) := if_neg hpath
    have hfails : ∀ sink, error.map (fun _ => "") = sink →
        (parseConfigFileImpl path (.ok root) defaults sink).1 = none →
        result.accepted = false ∧ result.config = some config := by
      rintro sink rfl hnone
      rw [hstored, LoadResult.store, hnone]
      exact ⟨rfl, rfl⟩
    cases error with
    | none =>
      refine ⟨fun h => ?_, fun h => hfails _ rfl
        (hparse.quiet_fails fun hok => h ⟨hpath, hok, nofun⟩)⟩
      rw [hstored, Option.map_none, hparse.quiet h.2.1]
      exact ⟨rfl, rfl⟩
    | some text =>
      refine ⟨fun h => ?_, fun h => hfails _ rfl
        (hparse.loud_fails fun hok => h ⟨hpath, hok.1, fun _ => hok.2⟩)⟩
      rw [hstored, Option.map_some, hparse.loud h.2.1 (h.2.2 rfl)]
      exact ⟨rfl, rfl⟩

/-- What a document does to a caller without an error sink and to one with a sink. -/
structure LoadsAlike (path : String) (root : Table) (config : Config) (text : String) : Prop where
  accepted : (cocclLoadConfigFile path (.ok root) (some config) none).accepted =
    (cocclLoadConfigFile path (.ok root) (some config) (some text)).accepted
  same : (cocclLoadConfigFile path (.ok root) (some config) none).accepted = true →
    (cocclLoadConfigFile path (.ok root) (some config) none).config =
      (cocclLoadConfigFile path (.ok root) (some config) (some text)).config
  rejected : ∀ error, (cocclLoadConfigFile path (.ok root) (some config) error).accepted = false →
    (cocclLoadConfigFile path (.ok root) (some config) error).config = some config

/-- **Asking for a message changes what is accepted** exactly for the documents that are admitted
but have a node of the wrong kind in place of a table. -/
theorem loadsAlike_iff (path : String) (root : Table) (config : Config) (text : String) :
    LoadsAlike path root config text ↔ path = "" ∨ WellTyped root ∨ ¬Admitted root := by
  have hquiet := cocclLoadConfigFile_spec path root config none
  have hloud := cocclLoadConfigFile_spec path root config (some text)
  constructor
  · intro h
    by_contra hcondition
    simp only [not_or, not_not] at hcondition
    obtain ⟨hpath, htyped, hok⟩ := hcondition
    have hyes := (hquiet.1 ⟨hpath, hok, nofun⟩).1
    have hno := (hloud.2 fun hloaded => htyped (hloaded.2.2 rfl)).1
    rw [h.accepted, hno] at hyes
    cases hyes
  · intro hcondition
    have hrejected : ∀ error,
        (cocclLoadConfigFile path (.ok root) (some config) error).accepted = false →
        (cocclLoadConfigFile path (.ok root) (some config) error).config = some config := by
      intro error hno
      refine ((cocclLoadConfigFile_spec path root config error).2 fun hloaded => ?_).2
      have hyes := ((cocclLoadConfigFile_spec path root config error).1 hloaded).1
      rw [hno] at hyes
      cases hyes
    by_cases hloaded : path ≠ "" ∧ Admitted root
    · have htyped : WellTyped root :=
        (hcondition.resolve_left hloaded.1).resolve_right (not_not.mpr hloaded.2)
      obtain ⟨hq, hqConfig⟩ := hquiet.1 ⟨hloaded.1, hloaded.2, nofun⟩
      obtain ⟨hl, hlConfig⟩ := hloud.1 ⟨hloaded.1, hloaded.2, fun _ => htyped⟩
      exact ⟨hq.trans hl.symm, fun _ => hqConfig.trans hlConfig.symm, hrejected⟩
    · obtain ⟨hq, hqConfig⟩ := hquiet.2 fun h => hloaded ⟨h.1, h.2.1⟩
      obtain ⟨hl, hlConfig⟩ := hloud.2 fun h => hloaded ⟨h.1, h.2.1⟩
      exact ⟨hq.trans hl.symm, fun _ => hqConfig.trans hlConfig.symm, hrejected⟩

/-- A document with a number in place of the pipeline table is accepted without a sink only. -/
theorem wrongKind_not_loadsAlike :
    ¬LoadsAlike "coccl.toml"
      [("pipeline", .integer 3), ("runtime", .table [("mode", .string "normal")])]
      Config.defaults "" := by
  intro h
  exact absurd h.accepted (by decide +kernel)

end Coccl
