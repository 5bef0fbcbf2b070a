import Coccl.Pipeline.Plan

/-!
# The two workspace layouts

What either layout of `cocclPlanPipelineWorkspace` guarantees (`WorkspaceLayout`): temporaries next
to each other in the pipeline never share bytes, every arena temporary lies inside the slice's
arena, and only the boundary temporaries of the split layout lie in rings, which do not meet.
-/

namespace Coccl

open Checked Option TempPlan

/-! ## The arena of one slice -/

section

variable {sizes : List ℕ} {sliceBytes : ℕ}

theorem adjacentBytes_spec {previous acc : ℕ}
    (h : adjacentBytes previous sizes acc = some sliceBytes) :
    acc ≤ sliceBytes ∧ ∀ i a b, (previous :: sizes)[i]? = some a →
      (previous :: sizes)[i + 1]? = some b → a + b ≤ sliceBytes := by
  induction sizes generalizing previous acc with
  | nil =>
    obtain rfl : acc = sliceBytes := by simpa [adjacentBytes] using h
    exact ⟨le_rfl, fun i a b _ hb => by simp at hb⟩
  | cons bytes rest ih =>
    obtain ⟨adjacent, hadd, hrest⟩ := bind_eq_some_iff.mp h
    obtain rfl := add_le hadd
    obtain ⟨hle, hpairs⟩ := ih hrest
    refine ⟨(le_max_left _ _).trans hle, fun i a b ha hb => ?_⟩
    rcases i with _ | i
    · obtain rfl : previous = a := by simpa using ha
      obtain rfl : bytes = b := by simpa using hb
      exact (le_max_right _ _).trans hle
    · exact hpairs i a b (by simpa using ha) (by simpa using hb)

/-- An arena holds any two adjacent temporaries at once. -/
theorem arenaSliceBytes_pair (h : arenaSliceBytes sizes = some sliceBytes) {i a b : ℕ}
    (ha : sizes[i]? = some a) (hb : sizes[i + 1]? = some b) : a + b ≤ sliceBytes := by
  rcases sizes with _ | ⟨bytes, rest⟩
  · simp at ha
  · exact (adjacentBytes_spec h).2 i a b ha hb

theorem arenaSliceBytes_le (h : arenaSliceBytes sizes = some sliceBytes) {i a : ℕ}
    (ha : sizes[i]? = some a) : a ≤ sliceBytes := by
  rcases i with _ | i
  · rcases sizes with _ | ⟨bytes, rest⟩
    · simp at ha
    · obtain rfl : bytes = a := by simpa using ha
      exact (adjacentBytes_spec h).1
  · have hlt := (List.getElem?_eq_some_iff.mp ha).1
    have hprev : sizes[i]? = some (sizes.get ⟨i, by omega⟩) := by simp
    have := arenaSliceBytes_pair h hprev ha
    omega

theorem arenaOffset_le {position bytes : ℕ} (h : bytes ≤ sliceBytes) :
    arenaOffset sliceBytes position bytes + bytes ≤ sliceBytes := by
  unfold arenaOffset
  split <;> omega

/-- Neighbours sit at opposite ends. -/
theorem arenaOffset_disjoint {position a b : ℕ} (h : a + b ≤ sliceBytes) :
    arenaOffset sliceBytes position a + a ≤ arenaOffset sliceBytes (position + 1) b ∨
      arenaOffset sliceBytes (position + 1) b + b ≤ arenaOffset sliceBytes position a := by
  unfold arenaOffset
  rcases Nat.mod_two_eq_zero_or_one position with hp | hp
  · left
    rw [if_pos hp, if_neg (show ¬(position + 1) % 2 = 0 by omega)]
    omega
  · right
    rw [if_pos (show (position + 1) % 2 = 0 by omega), if_neg (show ¬position % 2 = 0 by omega)]
    omega

end

/-! ## Placements -/

/-- A temporary as placed, its sizes unchanged. -/
def TempPlan.place (item : TempPlan) (storage : TempStorage) (offset : ℕ) : TempPlan :=
  { item with storage := storage, offset := offset }

theorem placeUnified_getElem? (sliceBytes temp : ℕ) (items : List TempPlan) (i : ℕ) :
    (placeUnified sliceBytes temp items)[i]? = items[i]?.map fun item =>
      item.place .registeredArena (arenaOffset sliceBytes (temp + i) item.alignedBytes) := by
  induction items generalizing temp i with
  | nil => simp [placeUnified]
  | cons item rest ih =>
    rcases i with _ | i
    · simp [placeUnified, place]
    · simp only [placeUnified, List.getElem?_cons_succ, ih, add_assoc, add_comm 1 i]

/-- The number of temporaries before `temp` that are not boundary ones. -/
def corePositionOf (boundary : ℕ → Bool) (first : ℕ) : ℕ → ℕ
  | 0 => 0
  | i + 1 => corePositionOf boundary first i + if boundary (first + i) then 0 else 1

theorem corePositionOf_succ_left (boundary : ℕ → Bool) (first i : ℕ) :
    corePositionOf boundary first (i + 1) =
      (if boundary first then 0 else 1) + corePositionOf boundary (first + 1) i := by
  induction i with
  | zero => simp [corePositionOf]
  | succ i ih =>
    rw [corePositionOf, ih, corePositionOf, add_assoc,
      show first + (i + 1) = first + 1 + i by omega]

theorem placeCore_getElem? (boundary : ℕ → Bool) (sliceBytes temp position : ℕ)
    (items : List TempPlan) (i : ℕ) :
    (placeCore boundary sliceBytes temp position items)[i]? = items[i]?.map fun item =>
      if boundary (temp + i) then item
      else item.place .registeredArena (arenaOffset sliceBytes
        (position + corePositionOf boundary temp i) item.alignedBytes) := by
  induction items generalizing temp position i with
  | nil => simp [placeCore]
  | cons item rest ih =>
    by_cases hb : boundary temp
    · rcases i with _ | i
      · simp [placeCore, hb]
      · simp only [placeCore, if_pos hb, List.getElem?_cons_succ, ih, corePositionOf_succ_left,
          zero_add, show temp + (i + 1) = temp + 1 + i by omega]
    · rcases i with _ | i
      · simp [placeCore, hb, place, corePositionOf]
      · simp only [placeCore, if_neg hb, List.getElem?_cons_succ, ih, corePositionOf_succ_left,
          show temp + (i + 1) = temp + 1 + i by omega,
          show ∀ n, position + 1 + n = position + (1 + n) by omega]

variable {item : TempPlan}

theorem coreBytes_getElem? (boundary : ℕ → Bool) (temp : ℕ) (items : List TempPlan) {i : ℕ}
    (hi : items[i]? = some item) (hb : boundary (temp + i) = false) :
    (coreBytes boundary temp items)[corePositionOf boundary temp i]? = some item.alignedBytes := by
  induction items generalizing temp i with
  | nil => simp at hi
  | cons head rest ih =>
    rcases i with _ | i
    · obtain rfl : head = item := by simpa using hi
      simp [coreBytes, show boundary temp = false from hb, corePositionOf]
    · have hrest := ih (temp + 1) (i := i) (by simpa using hi)
        (by rwa [show temp + 1 + i = temp + (i + 1) by omega])
      by_cases hhead : boundary temp
      · simp [coreBytes, hhead, corePositionOf_succ_left, hrest]
      · simp [coreBytes, hhead, corePositionOf_succ_left, add_comm 1, hrest]

theorem coreBytes_ne_nil {boundary : ℕ → Bool} {temp : ℕ} {items : List TempPlan}
    (h : coreBytes boundary temp items ≠ []) : ∃ i < items.length, boundary (temp + i) = false := by
  induction items generalizing temp with
  | nil => exact absurd rfl h
  | cons item items ih =>
    by_cases hb : boundary temp
    · rw [coreBytes, if_pos hb] at h
      obtain ⟨i, hi, hbi⟩ := ih h
      exact ⟨i + 1, by simpa using hi, by rwa [show temp + (i + 1) = temp + 1 + i by omega]⟩
    · exact ⟨0, by simp, by simpa using hb⟩

/-! ## The rings -/

/-- The bytes of a boundary temporary's ring. -/
def ringBytes (plan : PipelinePlan) : Option ℕ → ℕ
  | none => 0
  | some temp => (plan.temps.getD temp default).alignedBytes * kCocclPipelineRawRingSlots

/-- The temporaries with one of them moved to a ring. -/
def ringTemps (plan : PipelinePlan) : Option ℕ → List TempPlan
  | none => plan.temps
  | some temp =>
    plan.temps.set temp ((plan.temps.getD temp default).place .rawRing plan.rawBytes)

theorem ringTemps_getElem? (plan : PipelinePlan) (temp : Option ℕ) (i : ℕ) :
    (ringTemps plan temp)[i]? = plan.temps[i]?.map fun item =>
      if temp = some i then item.place .rawRing plan.rawBytes else item := by
  rcases temp with _ | temp
  · simp [ringTemps]
  · rw [ringTemps, List.getElem?_set]
    by_cases hi : temp = i
    · subst hi
      rcases hlt : plan.temps[temp]? with _ | item
      · simp [List.getElem?_eq_none_iff.mp hlt]
      · obtain ⟨hlen, hitem⟩ := List.getElem?_eq_some_iff.mp hlt
        simp [hlen, hitem, List.getD_eq_getElem?_getD]
    · simp [hi]

theorem ringTemps_sizes (plan : PipelinePlan) (temp : Option ℕ) :
    (ringTemps plan temp).map (·.alignedBytes) = plan.temps.map (·.alignedBytes) := by
  refine List.ext_getElem? fun i => ?_
  rw [List.getElem?_map, List.getElem?_map, ringTemps_getElem?, map_map]
  refine map_congr fun item _ => ?_
  simp only [Function.comp_apply]
  split <;> rfl

theorem ringBytes_congr {plan other : PipelinePlan}
    (h : plan.temps.map (·.alignedBytes) = other.temps.map (·.alignedBytes)) (temp : Option ℕ) :
    ringBytes plan temp = ringBytes other temp := by
  cases temp with
  | none => rfl
  | some t =>
    have hget : ∀ p : PipelinePlan, (p.temps.getD t default).alignedBytes =
        (p.temps.map (·.alignedBytes)).getD t (default : TempPlan).alignedBytes := fun p => by
      rw [List.getD_eq_getElem?_getD, List.getD_eq_getElem?_getD, List.getElem?_map, getD_map]
    simp only [ringBytes, hget, h]

/-- The ring of a temporary has two of its sizes. -/
theorem ringBytes_eq {plan : PipelinePlan} {temp : Option ℕ} {t : ℕ} (ht : temp = some t)
    (hitem : plan.temps[t]? = some item) :
    ringBytes plan temp = item.alignedBytes * kCocclPipelineRawRingSlots := by
  simp [ringBytes, ht, List.getD_eq_getElem?_getD, hitem]

theorem placeRing_cases {plan : PipelinePlan} (hraw : plan.rawBytes ≤ sizeMax) (temp : Option ℕ) :
    placeRing plan temp =
      if plan.rawBytes + ringBytes plan temp ≤ sizeMax then
        some { plan with
          temps := ringTemps plan temp, rawBytes := plan.rawBytes + ringBytes plan temp }
      else none := by
  cases temp with
  | none => simp [placeRing, ringBytes, ringTemps, hraw]
  | some t =>
    have hbytes : (plan.temps.getD t default).alignedBytes * kCocclPipelineRawRingSlots =
        ringBytes plan (some t) := rfl
    simp only [placeRing, cocclPipelineCheckedMultiply, cocclPipelineCheckedAdd, hbytes, mul_eq]
    by_cases hsum : plan.rawBytes + ringBytes plan (some t) ≤ sizeMax
    · rw [if_pos hsum, if_pos (by omega), bind_eq_bind, bind_some,
        add_eq hraw, if_pos hsum]
      rfl
    · rw [if_neg hsum]
      by_cases hring : ringBytes plan (some t) ≤ sizeMax
      · rw [if_pos hring, bind_eq_bind, bind_some, add_eq hraw, if_neg hsum]
        rfl
      · rw [if_neg hring]
        rfl

/-! ## The boundary and the core -/

section

variable (logical : PipelinePlan)

/-- The sizes of the temporaries that are not boundary ones. -/
def coreSizes : List ℕ := coreBytes (boundaryTemp logical) 0 logical.temps

/-- Bytes of the rings of the staged input and the staged output. -/
def ringsBytes : ℕ :=
  ringBytes logical logical.inputStagingTemp + ringBytes logical logical.outputStagingTemp

/-- The plan with the boundary temporaries in their rings. -/
def ringedPlan : PipelinePlan :=
  { logical with
    workspaceKind := .split
    registeredSliceBytes := 0
    registeredBytes := 0
    temps := ringTemps { logical with
      temps := ringTemps { logical with rawBytes := 0 } logical.inputStagingTemp
      rawBytes := ringBytes logical logical.inputStagingTemp } logical.outputStagingTemp
    rawBytes := ringsBytes logical }

end

variable {logical : PipelinePlan}

theorem ringedPlan_sizes :
    (ringedPlan logical).temps.map (·.alignedBytes) = logical.temps.map (·.alignedBytes) := by
  rw [ringedPlan, ringTemps_sizes, ringTemps_sizes]

/-- Both rings are placed, if they fit. -/
theorem placeRings_eq :
    (do
      let withInput ← placeRing { logical with
        workspaceKind := .split, registeredSliceBytes := 0, registeredBytes := 0, rawBytes := 0 }
        logical.inputStagingTemp
      placeRing withInput logical.outputStagingTemp) =
      if ringsBytes logical ≤ sizeMax then some (ringedPlan logical) else none := by
  rw [placeRing_cases (Nat.zero_le _)]
  simp only [Nat.zero_add]
  have hinput : ∀ temp, ringBytes { logical with
      workspaceKind := .split, registeredSliceBytes := 0, registeredBytes := 0, rawBytes := 0 }
      temp = ringBytes logical temp := fun temp => ringBytes_congr rfl temp
  rw [hinput]
  by_cases hfits : ringBytes logical logical.inputStagingTemp ≤ sizeMax
  · rw [if_pos hfits, bind_eq_bind, bind_some, placeRing_cases hfits]
    have houtput : ringBytes { logical with
        workspaceKind := .split
        registeredSliceBytes := 0
        registeredBytes := 0
        temps := ringTemps { logical with
          workspaceKind := .split, registeredSliceBytes := 0, registeredBytes := 0, rawBytes := 0 }
          logical.inputStagingTemp
        rawBytes := ringBytes logical logical.inputStagingTemp } logical.outputStagingTemp =
        ringBytes logical logical.outputStagingTemp :=
      ringBytes_congr (ringTemps_sizes _ _) _
    rw [houtput]
    rfl
  · rw [if_neg hfits, if_neg (by unfold ringsBytes; omega)]
    rfl

/-- The core sizes depend on the sizes only. -/
theorem coreBytes_congr {boundary : ℕ → Bool} {temp : ℕ} {items others : List TempPlan}
    (h : items.map (·.alignedBytes) = others.map (·.alignedBytes)) :
    coreBytes boundary temp items = coreBytes boundary temp others := by
  induction items generalizing temp others with
  | nil =>
    cases others with
    | nil => rfl
    | cons _ _ => cases h
  | cons item items ih =>
    cases others with
    | nil => cases h
    | cons other others =>
      rw [List.map_cons, List.map_cons, List.cons.injEq] at h
      rw [coreBytes, coreBytes, ih h.2, h.1]

@[simp] theorem coreBytes_ringedPlan :
    coreBytes (boundaryTemp (ringedPlan logical)) 0 (ringedPlan logical).temps =
      coreSizes logical :=
  coreBytes_congr ringedPlan_sizes

/-! ## What either layout guarantees -/

/-- The staged input and output of a logical plan are two different temporaries. -/
structure BoundaryDistinct (logical : PipelinePlan) : Prop where
  ne : ∀ temp, logical.inputStagingTemp = some temp → logical.outputStagingTemp ≠ some temp

/-- A workspace for the temporaries of `logical`. -/
structure WorkspaceLayout (logical plan : PipelinePlan) : Prop where
  inputStagingTemp : plan.inputStagingTemp = logical.inputStagingTemp
  outputStagingTemp : plan.outputStagingTemp = logical.outputStagingTemp
  stageOutputTemp : plan.stageOutputTemp = logical.stageOutputTemp
  finalChunks : plan.finalChunks = logical.finalChunks
  temps : ∀ i : ℕ, ∃ storage offset,
    plan.temps[i]? = logical.temps[i]?.map fun item => item.place storage offset
  inside : ∀ (i : ℕ) (item : TempPlan), plan.temps[i]? = some item →
    item.storage = .registeredArena →
    item.offset + item.alignedBytes ≤ plan.registeredSliceBytes
  adjacent : ∀ (i : ℕ) (item next : TempPlan), plan.temps[i]? = some item →
    plan.temps[i + 1]? = some next → item.storage = .registeredArena →
    next.storage = .registeredArena →
    item.offset + item.alignedBytes ≤ next.offset ∨ next.offset + next.alignedBytes ≤ item.offset
  ring : ∀ (i : ℕ) (item : TempPlan), plan.temps[i]? = some item → item.storage = .rawRing →
    plan.workspaceKind = .split ∧ boundaryTemp plan i
  rings : ∀ (i j : ℕ) (item other : TempPlan), i ≠ j → plan.temps[i]? = some item →
    plan.temps[j]? = some other → item.storage = .rawRing → other.storage = .rawRing →
    item.offset + item.alignedBytes * kCocclPipelineRawRingSlots ≤ other.offset ∨
      other.offset + other.alignedBytes * kCocclPipelineRawRingSlots ≤ item.offset
  core : plan.workspaceKind = .split →
    ∃ i < logical.temps.length, boundaryTemp logical i = false

/-- The temporaries of all slices lie inside the two buffers the workspace is made of. -/
structure WorkspaceInside (plan : PipelinePlan) (depth : ℕ) : Prop where
  registered : plan.registeredBytes = plan.registeredSliceBytes * depth
  ring : ∀ (i : ℕ) (item : TempPlan), plan.temps[i]? = some item → item.storage = .rawRing →
    item.offset + item.alignedBytes * kCocclPipelineRawRingSlots ≤ plan.rawBytes

variable {plan : PipelinePlan} {depth : ℕ}

theorem buildUnifiedWorkspace_layout (h : buildUnifiedWorkspace logical depth = some plan) :
    WorkspaceLayout logical plan := by
  obtain ⟨sliceBytes, hslice, h⟩ := bind_eq_some_iff.mp h
  obtain ⟨registeredBytes, -, h⟩ := bind_eq_some_iff.mp h
  obtain rfl := some.inj h
  -- each temporary is where `placeUnified` puts it, and its size is one of the arena's
  have placed : ∀ {i item}, (placeUnified sliceBytes 0 logical.temps)[i]? = some item →
      item.storage = .registeredArena ∧
      item.offset = arenaOffset sliceBytes i item.alignedBytes ∧
      (logical.temps.map (·.alignedBytes))[i]? = some item.alignedBytes := by
    intro i item hi
    rw [placeUnified_getElem?, zero_add] at hi
    obtain ⟨source, hsource, rfl⟩ := map_eq_some_iff.mp hi
    exact ⟨rfl, rfl, by simp [hsource, place]⟩
  refine ⟨rfl, rfl, rfl, rfl, fun i => ⟨.registeredArena, ?_⟩, ?_, ?_, ?_, ?_, nofun⟩
  · rcases hi : logical.temps[i]? with _ | item
    · exact ⟨0, by simp [placeUnified_getElem?, hi]⟩
    · exact ⟨arenaOffset sliceBytes i item.alignedBytes, by simp [placeUnified_getElem?, hi]⟩
  · intro i item hi _
    obtain ⟨-, hoffset, hsize⟩ := placed hi
    rw [hoffset]
    exact arenaOffset_le (arenaSliceBytes_le hslice hsize)
  · intro i item next hi hnext _ _
    obtain ⟨-, hoffset, hsize⟩ := placed hi
    obtain ⟨-, hoffset', hsize'⟩ := placed hnext
    rw [hoffset, hoffset']
    exact arenaOffset_disjoint (arenaSliceBytes_pair hslice hsize hsize')
  · intro i item hi hring
    simp [(placed hi).1] at hring
  · intro i j item other _ hi _ hring _
    simp [(placed hi).1] at hring

theorem buildUnifiedWorkspace_inside (h : buildUnifiedWorkspace logical depth = some plan) :
    WorkspaceInside plan depth := by
  obtain ⟨sliceBytes, -, h⟩ := bind_eq_some_iff.mp h
  obtain ⟨registeredBytes, hbytes, h⟩ := bind_eq_some_iff.mp h
  obtain rfl := some.inj h
  refine ⟨(mul_eq_some.mp hbytes).1, fun i item hi hring => ?_⟩
  rw [placeUnified_getElem?] at hi
  obtain ⟨source, -, rfl⟩ := map_eq_some_iff.mp hi
  cases hring

/-- Where the split layout puts a temporary: the staged input in the first ring, the staged output
in the second, any other in the arena. -/
def splitPlace (logical : PipelinePlan) (sliceBytes i : ℕ) (item : TempPlan) : TempPlan :=
  if logical.inputStagingTemp = some i then item.place .rawRing 0
  else if logical.outputStagingTemp = some i then
    item.place .rawRing (ringBytes logical logical.inputStagingTemp)
  else item.place .registeredArena (arenaOffset sliceBytes
    (corePositionOf (boundaryTemp logical) 0 i) item.alignedBytes)

theorem placeCore_ringedPlan (hdistinct : BoundaryDistinct logical) (sliceBytes i : ℕ) :
    (placeCore (boundaryTemp logical) sliceBytes 0 0 (ringedPlan logical).temps)[i]? =
      logical.temps[i]?.map (splitPlace logical sliceBytes i) := by
  rw [placeCore_getElem?, ringedPlan, ringTemps_getElem?, ringTemps_getElem?, map_map, map_map]
  refine map_congr fun item _ => ?_
  by_cases hin : logical.inputStagingTemp = some i
  · simp [splitPlace, boundaryTemp, hin, hdistinct.ne i hin]
  · by_cases hout : logical.outputStagingTemp = some i
    · simp [splitPlace, boundaryTemp, hin, hout]
    · simp [splitPlace, boundaryTemp, hin, hout]

section

variable {sliceBytes i : ℕ}

/-- A temporary of the split layout that lies in the arena is not a boundary one. -/
theorem splitPlace_arena (h : (splitPlace logical sliceBytes i item).storage = .registeredArena) :
    boundaryTemp logical i = false ∧ splitPlace logical sliceBytes i item =
      item.place .registeredArena (arenaOffset sliceBytes
        (corePositionOf (boundaryTemp logical) 0 i) item.alignedBytes) := by
  unfold splitPlace at h ⊢
  split_ifs at h ⊢ with hin hout
  · simp [place] at h
  · simp [place] at h
  · exact ⟨by simp [boundaryTemp, hin, hout], rfl⟩

/-- One that lies in a ring is a boundary one, in the ring of its own. -/
theorem splitPlace_ring (h : (splitPlace logical sliceBytes i item).storage = .rawRing) :
    (logical.inputStagingTemp = some i ∧
        splitPlace logical sliceBytes i item = item.place .rawRing 0) ∨
      (logical.outputStagingTemp = some i ∧ splitPlace logical sliceBytes i item =
        item.place .rawRing (ringBytes logical logical.inputStagingTemp)) := by
  unfold splitPlace at h ⊢
  split_ifs at h ⊢ with hin hout
  · exact .inl ⟨hin, rfl⟩
  · exact .inr ⟨hout, rfl⟩
  · simp [place] at h

end

theorem buildSplitWorkspace_some (h : buildSplitWorkspace logical depth = some plan) :
    ∃ sliceBytes totalBytes, coreSizes logical ≠ [] ∧
      arenaSliceBytes (coreSizes logical) = some sliceBytes ∧
      plan = { ringedPlan logical with
        registeredSliceBytes := sliceBytes
        temps := placeCore (boundaryTemp logical) sliceBytes 0 0 (ringedPlan logical).temps
        registeredBytes := sliceBytes * depth
        totalBytes := totalBytes } := by
  unfold buildSplitWorkspace at h
  rw [← LawfulMonad.bind_assoc, placeRings_eq] at h
  obtain ⟨candidate, hcandidate, h⟩ := bind_eq_some_iff.mp h
  obtain rfl := some.inj (ite_none_right_eq_some.mp hcandidate).2
  simp only [coreBytes_ringedPlan] at h
  split at h
  · cases h
  obtain ⟨sliceBytes, hslice, h⟩ := bind_eq_some_iff.mp h
  obtain ⟨registeredBytes, hbytes, h⟩ := bind_eq_some_iff.mp h
  obtain ⟨totalBytes, -, h⟩ := bind_eq_some_iff.mp h
  obtain ⟨rfl, -⟩ := mul_eq_some.mp hbytes
  exact ⟨sliceBytes, totalBytes, ‹_›, hslice, (some.inj h).symm⟩

section

variable (hdistinct : BoundaryDistinct logical)

include hdistinct

theorem buildSplitWorkspace_layout (h : buildSplitWorkspace logical depth = some plan) :
    WorkspaceLayout logical plan := by
  obtain ⟨sliceBytes, totalBytes, hcore, hslice, rfl⟩ := buildSplitWorkspace_some h
  have placed : ∀ {i : ℕ} {item : TempPlan},
      (placeCore (boundaryTemp logical) sliceBytes 0 0 (ringedPlan logical).temps)[i]? = some item →
      ∃ source, logical.temps[i]? = some source ∧
        item = splitPlace logical sliceBytes i source := by
    intro i item hi
    rw [placeCore_ringedPlan hdistinct] at hi
    obtain ⟨source, hsource, rfl⟩ := map_eq_some_iff.mp hi
    exact ⟨source, hsource, rfl⟩
  have hsize : ∀ {i : ℕ} {item : TempPlan}, logical.temps[i]? = some item →
      boundaryTemp logical i = false →
      (coreSizes logical)[corePositionOf (boundaryTemp logical) 0 i]? = some item.alignedBytes :=
    fun hi hb => coreBytes_getElem? _ 0 _ hi (by simpa using hb)
  refine ⟨rfl, rfl, rfl, rfl, fun i => ?_, ?_, ?_, ?_, ?_, fun _ => ?_⟩
  · simp only [placeCore_ringedPlan hdistinct]
    unfold splitPlace
    split_ifs
    · exact ⟨_, _, rfl⟩
    · exact ⟨_, _, rfl⟩
    · rcases logical.temps[i]? with _ | item
      · exact ⟨.registeredArena, 0, rfl⟩
      · exact ⟨_, _, rfl⟩
  · intro i item hi hstorage
    obtain ⟨source, hsource, rfl⟩ := placed hi
    obtain ⟨hb, hplace⟩ := splitPlace_arena hstorage
    rw [hplace]
    exact arenaOffset_le (arenaSliceBytes_le hslice (hsize hsource hb))
  · intro i item next hi hnext hstorage hstorage'
    obtain ⟨source, hsource, rfl⟩ := placed hi
    obtain ⟨source', hsource', rfl⟩ := placed hnext
    obtain ⟨hb, hplace⟩ := splitPlace_arena hstorage
    obtain ⟨hb', hplace'⟩ := splitPlace_arena hstorage'
    -- neighbours that are both in the arena have neighbouring core positions
    have hposition : corePositionOf (boundaryTemp logical) 0 (i + 1) =
        corePositionOf (boundaryTemp logical) 0 i + 1 := by
      simp [corePositionOf, hb]
    have hnextSize := hsize hsource' hb'
    rw [hposition] at hnextSize
    rw [hplace, hplace', hposition]
    exact arenaOffset_disjoint (arenaSliceBytes_pair hslice (hsize hsource hb) hnextSize)
  · intro i item hi hstorage
    obtain ⟨source, -, rfl⟩ := placed hi
    refine ⟨rfl, ?_⟩
    rcases splitPlace_ring hstorage with ⟨hin, -⟩ | ⟨hout, -⟩
    · simp [boundaryTemp, ringedPlan, hin]
    · simp [boundaryTemp, ringedPlan, hout]
  · intro i j item other hij hi hj hstorage hstorage'
    obtain ⟨source, hsource, rfl⟩ := placed hi
    obtain ⟨source', hsource', rfl⟩ := placed hj
    rcases splitPlace_ring hstorage with ⟨hin, hplace⟩ | ⟨hout, hplace⟩ <;>
      rcases splitPlace_ring hstorage' with ⟨hin', hplace'⟩ | ⟨hout', hplace'⟩
    · exact absurd (some.inj (hin.symm.trans hin')) hij
    -- the second ring starts where the first one ends
    · left
      simp [hplace, hplace', place, ringBytes_eq hin hsource]
    · right
      simp [hplace, hplace', place, ringBytes_eq hin' hsource']
    · exact absurd (some.inj (hout.symm.trans hout')) hij
  · obtain ⟨i, hi, hb⟩ := coreBytes_ne_nil hcore
    exact ⟨i, hi, by simpa using hb⟩

theorem buildSplitWorkspace_inside (h : buildSplitWorkspace logical depth = some plan) :
    WorkspaceInside plan depth := by
  obtain ⟨sliceBytes, totalBytes, -, -, rfl⟩ := buildSplitWorkspace_some h
  refine ⟨rfl, fun i item hi hring => ?_⟩
  rw [placeCore_ringedPlan hdistinct] at hi
  obtain ⟨source, hsource, rfl⟩ := map_eq_some_iff.mp hi
  show _ ≤ ringsBytes logical
  unfold ringsBytes
  rcases splitPlace_ring hring with ⟨hin, hplace⟩ | ⟨hout, hplace⟩
  · simp only [hplace, place, ringBytes_eq hin hsource]
    omega
  · simp only [hplace, place, ringBytes_eq hout hsource]
    omega

end

/-- A workspace is one of the two layouts. -/
theorem cocclPlanPipelineWorkspace_ok (h : cocclPlanPipelineWorkspace logical depth = .ok plan) :
    buildUnifiedWorkspace logical depth = some plan ∨
      buildSplitWorkspace logical depth = some plan := by
  unfold cocclPlanPipelineWorkspace at h
  split at h
  · cases h
  · next hunified _ =>
    cases h
    exact .inl hunified
  · next hsplit =>
    cases h
    exact .inr hsplit
  · next hunified hsplit =>
    cases h
    split
    · exact .inr hsplit
    · exact .inl hunified

/-- **Either layout keeps neighbours apart, inside the workspace.** -/
theorem cocclPlanPipelineWorkspace_layout (hdistinct : BoundaryDistinct logical)
    (h : cocclPlanPipelineWorkspace logical depth = .ok plan) :
    WorkspaceLayout logical plan ∧ WorkspaceInside plan depth := by
  rcases cocclPlanPipelineWorkspace_ok h with h | h
  · exact ⟨buildUnifiedWorkspace_layout h, buildUnifiedWorkspace_inside h⟩
  · exact ⟨buildSplitWorkspace_layout hdistinct h, buildSplitWorkspace_inside hdistinct h⟩

end Coccl
