import Coccl.Config.Readers

/-!
# What the sections decide

From the fields of a table to the sections of a document. A table of the wrong kind is caught by the
next look at the message (`optionalTable_bind`).
-/

namespace Coccl

open Reports Toml Decides Table PrimitivePolicy

/-! ## Tables -/

theorem optionalTable_carries (table : Table) (key path : String) :
    Carries (optionalTable table key path) := by
  intro message hmessage
  unfold optionalTable
  cases table.get key with
  | none => exact .inr ⟨message, hmessage, rfl⟩
  | some node =>
    cases hnode : node.asTable with
    | some child => exact .inr ⟨message, hmessage, by simp only [hnode]; rfl⟩
    | none =>
      refine .inr ⟨path ++ "." ++ key ++ " must be a table", ?_, by simp only [hnode]; rfl⟩
      simp

variable {α β : Type} {table : Table} {key path : String} {f : Option Table → Reader β} {w : β}

/-- A table is read, and is absent if it is of the wrong kind; if what follows catches the message,
that is an error for those who asked for messages. -/
theorem optionalTable_bind {typed ok : Prop} (hf : Decides (f (table.table? key)) typed ok w)
    (hcatches : Catches (f none)) :
    Decides (optionalTable table key path >>= f) (table.TableAt key ∧ typed) ok w := by
  unfold optionalTable TableAt
  unfold table? at hf
  generalize table.get key = found at hf ⊢
  cases found with
  | none => exact hf.congr Iff.rfl (fun _ => (and_iff_right (by simp)).symm) fun _ => rfl
  | some node =>
    cases hnode : node.asTable with
    | some child =>
      simp only [hnode, Option.bind_some] at hf ⊢
      exact hf.congr Iff.rfl (fun _ => (and_iff_right (by simp [hnode])).symm) fun _ => rfl
    | none =>
      simp only [hnode, Option.bind_some] at hf ⊢
      have hmessage : path ++ "." ++ key ++ " must be a table" ≠ "" := by simp
      exact (hf.report hmessage hcatches).congr Iff.rfl (fun _ => by simp [hnode]) fun _ => rfl

/-- A table whose message is looked at at once. -/
theorem optionalTable_checked {typed ok : Prop} (hf : Decides (f (table.table? key)) typed ok w) :
    Decides (do
      let found ← optionalTable table key path
      if found.isNone && !(← unreported) then reject else f found)
      (table.TableAt key ∧ typed) ok w := by
  refine optionalTable_bind (.unreported ?_) (.unreported .reject)
  rwa [Bool.not_true, Bool.and_false, if_neg Bool.false_ne_true]

theorem optionalSection_decides {absent : α} {present : Table → Reader α} {ok : Table → Prop}
    {v : Table → α} (hpresent : ∀ t, Decides (present t) True (ok t) (v t)) (hok : ok [])
    (hv : v [] = absent) :
    Decides (optionalSection table key path absent present) (table.TableAt key)
      (ok (table.child key)) (v (table.child key)) := by
  refine Decides.congr (optionalTable_bind (w := v (table.child key)) ?_ (.unreported .reject))
    Iff.rfl (fun _ => Iff.of_eq (and_true _)) fun _ => rfl
  unfold child
  cases table.table? key with
  | none =>
    rw [Option.getD_none, hv]
    exact .unreported (.pure hok)
  | some child => exact hpresent child

/-! ## Policies -/

theorem parseScopeConfig_decides (table : Table) (enabled : Bool) (name path : String) :
    Decides (parseScopeConfig table enabled name path) (enabled = true → table.TableAt "config")
      ((enabled = true → validCompressorName name = true ∧
          ∀ entry ∈ table.child "config", (scalarToString entry.2).isSome = true) ∧
        (enabled = false → name = "" ∧ table.get "config" = none))
      { configured := true, enabled, name,
        values := if enabled then (table.child "config").optionValues else [] } := by
  cases enabled with
  | false =>
    by_cases hoff : name = "" ∧ table.get "config" = none
    · simpa [parseScopeConfig, hoff] using pure trivial
    · have hbad : name ≠ "" ∨ (table.get "config").isSome = true := by
        rcases not_and_or.mp hoff with hname | hconfig
        · exact .inl hname
        · exact .inr (Option.isSome_iff_ne_none.mpr hconfig)
      simpa [parseScopeConfig, hbad, hoff] using fail not_false
  | true =>
    cases hname : validCompressorName name with
    | false => simpa [parseScopeConfig, hname] using fail not_false
    | true =>
      have hvalues : ∀ config, Decides
          (do
            let values ← parseOptionValues (path ++ ".config") config []
            pure ({ configured := true, enabled := true, name, values } : CompressorScopeEntry))
          True (∀ entry ∈ config, (scalarToString entry.2).isSome = true)
          { configured := true, enabled := true, name, values := config.optionValues } :=
        fun config => (parseOptionValues_decides (path ++ ".config") config []).map _
      simp only [parseScopeConfig, hname]
      exact (optionalSection_decides hvalues nofun rfl).congr (by simp) (by simp) fun _ => rfl

/-- A scope with a valid name has one. -/
theorem get_isSome_of_validCompressorName {table : Table} {key : String}
    (h : validCompressorName (table.stringOr key "") = true) : (table.get key).isSome = true := by
  cases hget : table.get key with
  | some node => rfl
  | none => simp [stringOr, hget, validCompressorName] at h

theorem parseCompressorScope_decides (table : Option Table) (path : String) :
    Decides (parseCompressorScope table path) (∀ scope ∈ table, scope.TableAt "config")
      (∀ scope ∈ table, CompressorScopeEntry.Admitted scope)
      ((table.map CompressorScopeEntry.ofTable).getD {}) := by
  cases table with
  | none => exact (pure trivial).congr (by simp) (by simp) fun _ => rfl
  | some table =>
    have hname := readString_decides table "compressor" path "" (table.boolOr "enabled" true)
    refine ((validateKeys_decides table path _).bind
      ((readBool_decides table "enabled" path true).bind
        (hname.bind (parseScopeConfig_decides table _ _ path)))).congr ?_ ?_ fun _ => rfl
    · simp only [Option.mem_some_iff, forall_eq']
      constructor
      · rintro ⟨hkeys, henabled, ⟨-, hcompressor⟩, hon, hoff⟩
        exact ⟨hkeys, henabled, hcompressor, hon, hoff⟩
      · rintro ⟨hkeys, henabled, hcompressor, hon, hoff⟩
        refine ⟨hkeys, henabled, ⟨fun henabled => ?_, hcompressor⟩, hon, hoff⟩
        exact get_isSome_of_validCompressorName (hon henabled).1
    · rintro ⟨-, -, -, -, hoff⟩
      simp only [true_and, Option.mem_some_iff, forall_eq']
      refine ⟨fun htyped => ?_, fun htyped _ => htyped⟩
      cases henabled : table.boolOr "enabled" true with
      | true => exact htyped henabled
      | false => simp [TableAt, (hoff henabled).2]

theorem parsePrimitivePolicy_decides (table : Option Table) (threshold : ℕ) (path : String) :
    Decides (parsePrimitivePolicy table threshold path)
      (WellTyped (table.getD [])) (Admitted (table.getD []))
      (ofTable threshold (table.getD [])) := by
  cases table with
  | none =>
    refine (pure trivial).congr (iff_of_true trivial ?_) (fun _ => ?_) fun _ => rfl
    · exact ⟨nofun, nofun, fun _ _ => nofun⟩
    · exact iff_of_true trivial fun _ _ => ⟨nofun, nofun⟩
  | some table =>
    apply Decides.congr
    · exact (validateKeys_decides table path _).bind
        ((readSize_decides table "threshold_bytes" path threshold).bind
          (optionalTable_bind (optionalTable_bind (optionalTable_bind
            (.unreported ((parseCompressorScope_decides _ _).bind
              ((parseCompressorScope_decides _ _).bind ((parseCompressorScope_decides _ _).map _))))
            (.unreported .reject))
            (.bind (optionalTable_carries _ _ _) fun _ => .unreported .reject))
            (.bind (optionalTable_carries _ _ _) fun _ =>
              .bind (optionalTable_carries _ _ _) fun _ => .unreported .reject)))
    · simp [admitted_iff, scopeKeys]
    · intro _
      simp only [WellTyped, scopeKeys, List.forall_mem_cons, List.not_mem_nil, Option.getD_some]
      tauto
    · intro _
      rfl

theorem parseCollectiveChildren_decides (table : Option Table) (threshold : ℕ) (path : String) :
    Decides (parseCollectiveChildren table threshold path)
      (PoliciesWellTyped collectiveKeys (table.getD []))
      (PoliciesAdmitted collectiveKeys (table.getD []))
      (CollectivePolicies.ofTable threshold (table.getD [])) := by
  apply Decides.congr
  · exact optionalTable_checked (optionalTable_checked (optionalTable_checked
      ((parsePrimitivePolicy_decides _ _ _).bind ((parsePrimitivePolicy_decides _ _ _).bind
        ((parsePrimitivePolicy_decides _ _ _).map _)))))
  · simp [PoliciesAdmitted, collectiveKeys, child]
  · intro _
    simp only [PoliciesWellTyped, collectiveKeys, List.forall_mem_cons, List.not_mem_nil, child]
    tauto
  · intro _
    rfl

theorem parseCollectivePolicies_decides (table : Option Table) (threshold : ℕ) (path : String) :
    Decides (parseCollectivePolicies table threshold path)
      (PoliciesWellTyped collectiveKeys (table.getD []))
      ((table.getD []).KeysIn collectiveKeys ∧ PoliciesAdmitted collectiveKeys (table.getD []))
      (CollectivePolicies.ofTable threshold (table.getD [])) :=
  ((validateKeys_decides _ _ _).bind (parseCollectiveChildren_decides table threshold path)).congr
    Iff.rfl (fun _ => Iff.of_eq (true_and _)) fun _ => rfl

/-! ## Sections -/

namespace Config

theorem parseNormal_decides (table : Option Table) (config : Config) :
    Decides (parseNormal table config) (PoliciesWellTyped normalKeys (table.getD []))
      ((table.getD []).KeysIn normalKeys ∧ PoliciesAdmitted normalKeys (table.getD []))
      { config with
        normal := normalOf config.runtime.compressionThresholdBytes (table.getD []) } := by
  apply Decides.congr
  · exact (validateKeys_decides _ _ _).bind ((parseCollectiveChildren_decides table _ _).bind
      (optionalTable_bind (optionalTable_bind (.unreported
        ((parsePrimitivePolicy_decides _ _ _).bind ((parsePrimitivePolicy_decides _ _ _).map _)))
        (.unreported .reject))
        (.bind (optionalTable_carries _ _ _) fun _ => .unreported .reject)))
  · simp [PoliciesAdmitted, normalKeys, collectiveKeys, child, and_assoc]
  · intro _
    simp only [PoliciesWellTyped, normalKeys, collectiveKeys, List.forall_mem_cons,
      List.not_mem_nil, List.cons_append, List.nil_append, child]
    tauto
  · intro _
    rfl

variable {root : Table} {config : Config}

theorem readRuntime_decides (runtime : Table) (hdefault : config.runtime = defaults.runtime) :
    Decides (readRuntime config runtime) True (Runtime.Admitted runtime)
      { config with runtime := Runtime.ofTable runtime } := by
  apply Decides.congr
  · exact (validateKeys_decides _ _ _).bind ((readString_decides _ _ _ _ _).bind
      ((readSize_decides _ _ _ _).bind ((orFail _ _ .normal).map _)))
  · refine ⟨fun h => ⟨h.1, h.2.1.2, h.2.2.1, h.2.2.2⟩,
      fun h => ⟨h.keys, ⟨fun _ => ?_, h.mode⟩, h.threshold, h.mode_known⟩⟩
    -- without a mode the text is empty, which is no mode
    cases hget : runtime.get "mode" with
    | some node => rfl
    | none => simpa [stringOr, hget, parseRuntimeMode] using h.mode_known
  · simp
  · intro _
    rw [hdefault]
    rfl

theorem parseRuntime_decides (hdefault : config.runtime = defaults.runtime) :
    Decides (parseRuntime root config) (root.TableAt "runtime")
      ((root.table? "runtime").isSome = true ∧ Runtime.Admitted (root.child "runtime"))
      { config with runtime := Runtime.ofTable (root.child "runtime") } := by
  refine Decides.congr (optionalTable_bind ?_ (.unreported .reject)) Iff.rfl
    (fun _ => Iff.of_eq (and_true _)) fun _ => rfl
  unfold child
  cases root.table? "runtime" with
  | none => exact .unreported (.fail fun h => Bool.false_ne_true h.1)
  | some runtime =>
    exact (readRuntime_decides runtime hdefault).congr (by simp) (fun _ => Iff.rfl) fun _ => rfl

theorem readPlugins_decides (path : String) (plugins : Table)
    (hdefault : config.plugins = defaults.plugins) :
    Decides (readPlugins path config plugins) True (PluginCatalog.Admitted plugins)
      { config with plugins := PluginCatalog.ofTable path plugins } := by
  apply Decides.congr
  · exact (validateKeys_decides _ _ _).bind ((readStringArray_decides _ _ _ _).bind
      ((readString_optional _ _ _ _).bind ((Decides.require _ _).map _)))
  · rw [hdefault]
    exact (PluginCatalog.admitted_iff plugins).symm
  · simp
  · intro _
    rw [hdefault]
    rfl

theorem parsePlugins_decides (path : String) (hdefault : config.plugins = defaults.plugins) :
    Decides (parsePlugins root path config) (root.TableAt "compressor_plugins")
      (PluginCatalog.Admitted (root.child "compressor_plugins"))
      { config with plugins := PluginCatalog.ofTable path (root.child "compressor_plugins") } := by
  refine optionalSection_decides (fun t => readPlugins_decides path t hdefault)
    ⟨nofun, nofun, nofun, .inl rfl⟩ ?_
  rw [show PluginCatalog.ofTable path [] = config.plugins from hdefault.symm]

theorem readPipeline_decides (pipeline : Table)
    (hdefault : config.pipelineDepth = defaults.pipelineDepth) :
    Decides (readPipeline config pipeline) True (PipelineAdmitted pipeline)
      { config with pipelineDepth := pipeline.intOr "depth" defaults.pipelineDepth } := by
  rw [← hdefault]
  apply Decides.congr
  · exact (validateKeys_decides _ _ _).bind ((readInt_decides _ _ _ _ _ _).map _)
  · exact (pipelineAdmitted_iff pipeline).symm
  · simp
  · intro _
    rfl

theorem parsePipeline_decides (hdefault : config.pipelineDepth = defaults.pipelineDepth) :
    Decides (parsePipeline root config) (root.TableAt "pipeline")
      (PipelineAdmitted (root.child "pipeline"))
      { config with
        pipelineDepth := (root.child "pipeline").intOr "depth" defaults.pipelineDepth } := by
  refine optionalSection_decides (fun t => readPipeline_decides t hdefault) ⟨nofun, nofun⟩ ?_
  rw [← hdefault]
  rfl

theorem readBuffer_decides (buffer : Table) (hdefault : config.buffer = defaults.buffer) :
    Decides (readBuffer config buffer) True (Buffer.Admitted buffer)
      { config with buffer := Buffer.ofTable buffer } := by
  apply Decides.congr
  · exact (validateKeys_decides _ _ _).bind ((readSize_decides _ _ _ _).bind
      ((readSize_decides _ _ _ _).bind ((readSize_decides _ _ _ _).bind
        ((Decides.require _ _).map _))))
  · rw [hdefault]
    exact (Buffer.admitted_iff buffer).symm
  · simp
  · intro _
    rw [hdefault]
    rfl

theorem parseBuffer_decides (hdefault : config.buffer = defaults.buffer) :
    Decides (parseBuffer root config) (root.TableAt "buffer")
      (Buffer.Admitted (root.child "buffer"))
      { config with buffer := Buffer.ofTable (root.child "buffer") } := by
  refine optionalSection_decides (fun t => readBuffer_decides t hdefault)
    ⟨nofun, nofun, nofun, nofun, by decide⟩ ?_
  rw [show Buffer.ofTable [] = config.buffer from hdefault.symm]

theorem readAutotune_decides (autotune : Table) (hdefault : config.autotune = defaults.autotune) :
    Decides (readAutotune config autotune) True (Autotune.Admitted autotune)
      { config with autotune := Autotune.ofTable autotune } := by
  apply Decides.congr
  · exact (validateKeys_decides _ _ _).bind ((readBool_decides _ _ _ _).bind
      ((readSize_decides _ _ _ _).bind ((readSize_decides _ _ _ _).bind
        ((readInt_decides _ _ _ _ _ _).bind ((readInt_decides _ _ _ _ _ _).bind
          ((Decides.require _ _).bind ((readString_optional _ _ _ _).bind
            ((readString_optional _ _ _ _).bind ((orFail _ _ .auto).bind
              ((orFail _ _ .auto).map _))))))))))
  · rw [hdefault]
    exact (Autotune.admitted_iff autotune).symm
  · simp
  · intro _
    rw [hdefault]
    rfl

theorem parseAutotune_decides (hdefault : config.autotune = defaults.autotune) :
    Decides (parseAutotune root config) (root.TableAt "autotune")
      (Autotune.Admitted (root.child "autotune"))
      { config with autotune := Autotune.ofTable (root.child "autotune") } := by
  refine optionalSection_decides (fun t => readAutotune_decides t hdefault)
    ⟨nofun, nofun, nofun, nofun, nofun, nofun, ⟨by decide, by decide⟩, nofun, nofun, rfl, rfl⟩ ?_
  rw [show Autotune.ofTable [] = config.autotune from hdefault.symm]

end Config

end Coccl
