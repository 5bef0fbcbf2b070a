import Coccl.Config.Accepts

/-!
# Sizes for profiling

`buildSampleSizes` lists the sizes at which transfers are measured, fourfold from the configured
minimum up. All ranks take part in each round, so they go up to the least of the sizes they have
memory for (`commonMax`).
-/

namespace Coccl

open Config List

/-- The sizes `parseAutotune` accepts, in the range of their type. -/
structure Config.Autotune.SizesAccepted (config : Autotune) : Prop where
  min_pos : 0 < config.profileMinBytes
  min_le_max : config.profileMinBytes ≤ config.profileMaxBytes
  max_le : config.profileMaxBytes ≤ sizeMax

theorem Config.Admitted.sizesAccepted {root : Toml.Table} (h : Admitted root) (path : String) :
    (ofDocument path root).autotune.SizesAccepted := by
  refine ⟨h.autotune.sizes.1, h.autotune.sizes.2, ?_⟩
  have hdefault : defaults.autotune.profileMaxBytes ≤ sizeMax := by decide
  show Toml.Table.sizeOr _ _ _ ≤ _
  unfold Toml.Table.sizeOr
  cases ((root.child "autotune").get "profile_max_bytes").bind Toml.Node.valueInt with
  | none => exact hdefault
  | some value =>
    have hlt := value.toInt_lt
    simp only [Option.map_some, Option.getD_some, sizeMax]
    omega

/-- What profiling, the pipeline and the buffers take for granted. -/
structure Config.Usable (config : Config) : Prop where
  sizes : config.autotune.SizesAccepted
  depth : kCocclMinPipelineDepth ≤ config.pipelineDepth ∧
    config.pipelineDepth ≤ kCocclMaxPipelineDepth
  chunk_pos : 0 < config.buffer.physicalChunkBytes

theorem Config.Admitted.usable {root : Toml.Table} (h : Admitted root) (path : String) :
    (ofDocument path root).Usable := by
  refine ⟨h.sizesAccepted path, ?_, h.buffer.chunk_pos⟩
  show _ ≤ Toml.Table.intOr _ _ _ ∧ Toml.Table.intOr _ _ _ ≤ _
  unfold Toml.Table.intOr
  cases hnode : (root.child "pipeline").get "depth" with
  | none => exact ⟨by decide, by decide⟩
  | some node =>
    obtain ⟨value, hvalue, hdepth⟩ := h.pipeline.depth node hnode
    simpa [Option.mem_def.mp hvalue] using hdepth

/-- **Whatever documents are loaded one after the other**, accepted or not, the configuration in
force is usable. -/
theorem cocclLoadConfigFile_usable (loads : List (String × Toml.Table × Reports.Sink)) :
    (loads.foldl (fun config load => (cocclLoadConfigFile load.1 (.ok load.2.1) (some config)
      load.2.2).config.getD config) defaults).Usable := by
  induction loads using reverseRecOn with
  | nil => exact ⟨⟨by decide, by decide, by decide⟩, ⟨by decide, by decide⟩, by decide⟩
  | append_singleton loads load ih =>
    obtain ⟨path, root, error⟩ := load
    rw [foldl_append, foldl_cons, foldl_nil]
    generalize loads.foldl _ defaults = config at ih ⊢
    obtain ⟨hloaded, hkept⟩ := cocclLoadConfigFile_spec path root config error
    by_cases h : path ≠ "" ∧ Admitted root ∧ (error.isSome = true → WellTyped root)
    · simpa [(hloaded h).2] using h.2.1.usable path
    · simpa [(hkept h).2] using ih

/-! ## The exchange -/

variable (config : Autotune) (freeBytes : List ℕ)

/-- What a rank has memory for. -/
def localMax (free : ℕ) : ℕ := min config.profileMaxBytes (free / 4)

/-- `allMax` of a rank before the exchange: its own entry is set. -/
def ownMax (rank : ℕ) : List ℕ :=
  (List.replicate freeBytes.length 0).set rank (localMax config (freeBytes.getD rank 0))

/-- `bootstrapAllGather`: a rank's array receives from each rank the entry at that rank's place. -/
def bootstrapAllGather (arrays : ℕ → List ℕ) (rank : ℕ) : List ℕ :=
  (arrays rank).mapIdx fun other _ => (arrays other).getD other 0

def effectiveMax (rank : ℕ) : ℕ :=
  (bootstrapAllGather (ownMax config freeBytes) rank).foldl min config.profileMaxBytes

/-! ## The list -/

/-- The loop; `none` if it does not end within the fuel or a product is refused. -/
def sampleLoop (multiply : ℕ → ℕ → Option ℕ) (effectiveMax : ℕ) : ℕ → ℕ → Option (List ℕ)
  | 0, _ => none
  | fuel + 1, bytes =>
    if bytes ≤ effectiveMax then
      if effectiveMax / 4 < bytes then some [bytes]
      else do
        let next ← multiply bytes 4
        let rest ← sampleLoop multiply effectiveMax fuel next
        return bytes :: rest
    else some []

/-- The sizes up to the maximum. There is no `back` of an empty list. -/
def samplesUpTo (multiply : ℕ → ℕ → Option ℕ) (fuel configuredMin effectiveMax : ℕ) :
    Option (List ℕ) :=
  if effectiveMax < configuredMin then some []
  else do
    let sizes ← sampleLoop multiply effectiveMax fuel configuredMin
    let last ← sizes.getLast?
    return if last < effectiveMax then sizes ++ [effectiveMax] else sizes

/-- `buildSampleSizes` of a rank. The source multiplies without a check, which is
`uncheckedMultiply`. -/
def buildSampleSizes (multiply : ℕ → ℕ → Option ℕ) (fuel rank : ℕ) : Option (List ℕ) :=
  samplesUpTo multiply fuel config.profileMinBytes (effectiveMax config freeBytes rank)

def uncheckedMultiply (a b : ℕ) : Option ℕ := some (sizeMul a b)

/-! ## The common maximum -/

/-- The largest size that is configured and for which every rank has memory. -/
def commonMax : ℕ := (freeBytes.map (· / 4)).foldr min config.profileMaxBytes

theorem le_commonMax_iff (size : ℕ) : size ≤ commonMax config freeBytes ↔
      size ≤ config.profileMaxBytes ∧ ∀ free ∈ freeBytes, size ≤ free / 4 := by
  unfold commonMax
  induction freeBytes with
  | nil => simp
  | cons free rest ih =>
    rw [map_cons, foldr_cons, le_min_iff, ih, forall_mem_cons]
    tauto

theorem bootstrapAllGather_ownMax (rank : ℕ) :
    bootstrapAllGather (ownMax config freeBytes) rank = freeBytes.map (localMax config) := by
  have hlength : ∀ r, (ownMax config freeBytes r).length = freeBytes.length := by simp [ownMax]
  refine ext_getElem (by simp [bootstrapAllGather, hlength]) fun other h _ => ?_
  have hother : other < freeBytes.length := by simpa [bootstrapAllGather, hlength] using h
  simp only [bootstrapAllGather, getElem_mapIdx, getElem_map]
  simp [ownMax, hother]

/-- All ranks arrive at the common maximum. -/
theorem effectiveMax_eq (rank : ℕ) : effectiveMax config freeBytes rank =
    commonMax config freeBytes := by
  refine eq_of_forall_le_iff fun size => ?_
  have hfold : ∀ (l : List ℕ) (m : ℕ), size ≤ (l.map (localMax config)).foldl min m ↔
        size ≤ m ∧ ∀ free ∈ l, size ≤ localMax config free := by
    intro l
    induction l with
    | nil => simp
    | cons free rest ih =>
      intro m
      rw [map_cons, foldl_cons, ih, le_min_iff, forall_mem_cons, and_assoc]
  rw [effectiveMax, bootstrapAllGather_ownMax, hfold, le_commonMax_iff]
  refine and_congr_right fun hmax => forall₂_congr fun free _ => ?_
  rw [localMax, le_min_iff]
  exact and_iff_right hmax

/-! ## The loop -/

/-- Sizes from `first` to `last` that go up, at most fourfold at a time. -/
structure Ladder (first last : ℕ) (sizes : List ℕ) : Prop where
  head : sizes.head? = some first
  last : sizes.getLast? = some last
  steps : sizes.IsChain fun a b => a < b ∧ b ≤ 4 * a

namespace Ladder

variable {first last next : ℕ} {sizes : List ℕ}

theorem cons (h : Ladder first last sizes) (hlt : next < first) (hle : first ≤ 4 * next) :
    Ladder next last (next :: sizes) := by
  refine ⟨rfl, ?_, isChain_cons.mpr ⟨?_, h.steps⟩⟩
  · rw [getLast?_cons, h.last]
    rfl
  · rw [h.head]
    rintro _ ⟨⟩
    exact ⟨hlt, hle⟩

theorem concat (h : Ladder first last sizes) (hlt : last < next) (hle : next ≤ 4 * last) :
    Ladder first next (sizes ++ [next]) := by
  refine ⟨?_, getLast?_concat, isChain_append.mpr ⟨h.steps, .singleton _, ?_⟩⟩
  · rw [head?_append, h.head]
    rfl
  · rw [h.last]
    rintro _ ⟨⟩ _ ⟨⟩
    exact ⟨hlt, hle⟩

theorem increasing (h : Ladder first last sizes) : sizes.Pairwise (· < ·) :=
  isChain_iff_pairwise.mp (h.steps.imp fun _ _ hstep => hstep.1)

theorem le_last (h : Ladder first last sizes) {size : ℕ} (hmem : size ∈ sizes) : size ≤ last := by
  obtain ⟨init, rfl⟩ := getLast?_eq_some_iff.mp h.last
  rcases mem_append.mp hmem with hinit | hlast
  · exact ((pairwise_append.mp h.increasing).2.2 size hinit last mem_cons_self).le
  · exact (mem_singleton.mp hlast).le

end Ladder

/-- A multiplication that is right for the products the loop makes. -/
def MultipliesTo (top : ℕ) (multiply : ℕ → ℕ → Option ℕ) : Prop :=
  ∀ bytes, bytes * 4 ≤ top → multiply bytes 4 = some (bytes * 4)

/-- The loop ends a fourth below the maximum at most, within as many rounds as it takes from the
first size by fours. -/
theorem sampleLoop_spec {top rounds bytes : ℕ} (hpos : 0 < bytes) (hle : bytes ≤ top)
    (hrounds : top < bytes * 4 ^ rounds) :
    ∃ sizes last, Ladder bytes last sizes ∧ last ≤ top ∧ top < last * 4 ∧
      ∀ multiply fuel, MultipliesTo top multiply → rounds ≤ fuel →
        sampleLoop multiply top fuel bytes = some sizes := by
  induction rounds generalizing bytes with
  | zero => omega
  | succ rounds ih =>
    have hunfold : ∀ multiply fuel, rounds + 1 ≤ fuel → ∃ fuel', rounds ≤ fuel' ∧
        sampleLoop multiply top fuel bytes = if top / 4 < bytes then some [bytes]
          else do
            let next ← multiply bytes 4
            let rest ← sampleLoop multiply top fuel' next
            return bytes :: rest := by
      intro multiply fuel hfuel
      obtain ⟨fuel, rfl⟩ : ∃ f, fuel = f + 1 := ⟨fuel - 1, by omega⟩
      exact ⟨fuel, by omega, by rw [sampleLoop, if_pos hle]⟩
    by_cases hend : top / 4 < bytes
    · refine ⟨[bytes], bytes, ⟨rfl, rfl, .singleton _⟩, hle, by omega, ?_⟩
      intro multiply fuel _ hfuel
      obtain ⟨_, -, hloop⟩ := hunfold multiply fuel hfuel
      rw [hloop, if_pos hend]
    · rw [pow_succ, mul_comm (4 ^ rounds), ← mul_assoc] at hrounds
      obtain ⟨sizes, last, hladder, hlast, htop, hloops⟩ :=
        @ih (bytes * 4) (by omega) (by omega) hrounds
      refine ⟨bytes :: sizes, last, hladder.cons (by omega) (by omega), hlast, htop, ?_⟩
      intro multiply fuel hmultiply hfuel
      obtain ⟨fuel', hfuel', hloop⟩ := hunfold multiply fuel hfuel
      rw [hloop, if_neg hend, hmultiply bytes (by omega), Option.bind_eq_bind, Option.bind_some,
        hloops multiply fuel' hmultiply hfuel']
      rfl

/-- Thirty-two rounds are enough, since sizes have 64 bits. -/
theorem samplesUpTo_spec {first top : ℕ} (hpos : 0 < first) (hle : first ≤ top)
    (hmax : top ≤ sizeMax) :
    ∃ sizes, Ladder first top sizes ∧ ∀ multiply fuel, MultipliesTo top multiply → 32 ≤ fuel →
      samplesUpTo multiply fuel first top = some sizes := by
  have hrounds : top < first * 4 ^ 32 := by
    unfold sizeMax at hmax
    omega
  obtain ⟨sizes, last, hladder, hlast, hfour, hloop⟩ := sampleLoop_spec hpos hle hrounds
  refine ⟨if last < top then sizes ++ [top] else sizes, ?_, fun multiply fuel hmultiply hfuel => ?_⟩
  · split
    · rename_i hlt
      exact hladder.concat hlt (by omega)
    · rename_i hge
      rwa [← le_antisymm hlast (not_lt.mp hge)]
  · rw [samplesUpTo, if_neg hle.not_gt, hloop multiply fuel hmultiply hfuel, Option.bind_eq_bind,
      Option.bind_some, hladder.last]
    rfl

theorem uncheckedMultiply_to {top : ℕ} (h : top ≤ sizeMax) : MultipliesTo top uncheckedMultiply :=
  fun _ hle => congrArg some (sizeMul_eq (hle.trans h))

theorem checkedMul_to {top : ℕ} (h : top ≤ sizeMax) : MultipliesTo top (Checked.mul sizeMax) :=
  fun _ hle => Checked.mul_eq_some.mpr ⟨rfl, hle.trans h⟩

/-- **The sizes are well formed and common to all ranks.** With products that are refused where
they overflow the list is the same, so none overflows. -/
theorem buildSampleSizes_common (h : config.SizesAccepted) :
    ∃ sizes, (∀ rank < freeBytes.length, ∀ fuel ≥ 32,
        buildSampleSizes config freeBytes uncheckedMultiply fuel rank = some sizes ∧
          buildSampleSizes config freeBytes (Checked.mul sizeMax) fuel rank = some sizes) ∧
      (commonMax config freeBytes < config.profileMinBytes → sizes = []) ∧
      (config.profileMinBytes ≤ commonMax config freeBytes →
        sizes.Pairwise (· < ·) ∧ sizes.head? = some config.profileMinBytes ∧
          sizes.getLast? = some (commonMax config freeBytes) ∧
          sizes.IsChain (fun a b => b ≤ 4 * a) ∧
          ∀ size ∈ sizes, ∀ free ∈ freeBytes, size ≤ free / 4) := by
  obtain ⟨hconfigured, hquarter⟩ := (le_commonMax_iff config freeBytes _).mp le_rfl
  have hmax := hconfigured.trans h.max_le
  simp only [buildSampleSizes, effectiveMax_eq]
  by_cases hempty : commonMax config freeBytes < config.profileMinBytes
  · exact ⟨[], fun _ _ _ _ => ⟨if_pos hempty, if_pos hempty⟩, fun _ => rfl,
      fun hle => absurd hempty hle.not_gt⟩
  · obtain ⟨sizes, hladder, hbuild⟩ := samplesUpTo_spec h.min_pos (not_lt.mp hempty) hmax
    exact ⟨sizes, fun _ _ fuel hfuel => ⟨hbuild _ fuel (uncheckedMultiply_to hmax) hfuel,
        hbuild _ fuel (checkedMul_to hmax) hfuel⟩, fun hlt => absurd hlt hempty,
      fun _ => ⟨hladder.increasing, hladder.head, hladder.last,
        hladder.steps.imp fun _ _ hstep => hstep.2,
        fun size hmem free hfree => (hladder.le_last hmem).trans (hquarter free hfree)⟩⟩

/-- The default sizes on two ranks. -/
theorem buildSampleSizes_defaults :
    ∃ sizes, (∀ rank < 2, ∀ fuel ≥ 32,
        buildSampleSizes defaults.autotune [2 ^ 30, 2 ^ 24] uncheckedMultiply fuel rank =
          some sizes) ∧ sizes.getLast? = some (2 ^ 22) := by
  obtain ⟨sizes, hsame, -, hsizes⟩ := buildSampleSizes_common defaults.autotune [2 ^ 30, 2 ^ 24]
    ⟨by decide, by decide, by decide⟩
  exact ⟨sizes, fun rank hrank fuel hfuel => (hsame rank hrank fuel hfuel).1,
    (hsizes (by decide)).2.2.1⟩

end Coccl
