import Coccl.Foundations.Blocks
import Coccl.Pipeline.Execute
import Coccl.Pipeline.Layout

/-!
# Choosing a workspace

The two layouts of `cocclPlanPipelineWorkspace` in closed form: each exists exactly when its sizes
fit. The chosen layout is sound and the smaller one.
-/

namespace Coccl

open Checked PipelinePlan List

/-! ## Sizes -/

/-- Bytes of an arena that holds any two neighbours at once. -/
def arenaBytes : List ℕ → ℕ
  | [] => 0
  | [bytes] => bytes
  | bytes :: next :: rest => max (bytes + next) (arenaBytes (next :: rest))

variable {d : ℕ} {sizes : List ℕ}

theorem arenaBytes_dvd (h : ∀ bytes ∈ sizes, d ∣ bytes) : d ∣ arenaBytes sizes := by
  induction sizes using arenaBytes.induct with
  | case1 => exact dvd_zero d
  | case2 bytes => exact h bytes (by simp)
  | case3 bytes next rest ih =>
    have hpair : d ∣ bytes + next := dvd_add (h bytes (by simp)) (h next (by simp))
    have hrest := ih fun b hb => h b (mem_cons_of_mem _ hb)
    rw [arenaBytes]
    rcases max_choice (bytes + next) (arenaBytes (next :: rest)) with heq | heq <;> rw [heq]
    · exact hpair
    · exact hrest

/-- The running maximum of the source is the arena's size, as long as no sum wraps. -/
theorem adjacentBytes_eq {previous acc : ℕ} {rest : List ℕ} (hacc : previous ≤ acc)
    (hle : ∀ bytes ∈ previous :: rest, bytes ≤ sizeMax) :
    adjacentBytes previous rest acc =
      if arenaBytes (previous :: rest) ≤ sizeMax then some (max acc (arenaBytes (previous :: rest)))
      else none := by
  induction rest generalizing previous acc with
  | nil => simp [adjacentBytes, arenaBytes, hle previous (by simp), hacc]
  | cons next rest ih =>
    have hnext : ∀ bytes ∈ next :: rest, bytes ≤ sizeMax :=
      fun b hb => hle b (mem_cons_of_mem _ hb)
    simp only [adjacentBytes, cocclPipelineCheckedAdd, arenaBytes, max_le_iff]
    rw [add_eq (hle previous (by simp))]
    by_cases hfits : previous + next ≤ sizeMax
    · have hmax : next ≤ max acc (previous + next) := (Nat.le_add_left _ _).trans (le_max_right _ _)
      rw [if_pos hfits, Option.bind_eq_bind, Option.bind_some, ih hmax hnext]
      simp only [hfits, true_and, max_assoc]
    · simp [hfits]

theorem arenaSliceBytes_eq (hle : ∀ bytes ∈ sizes, bytes ≤ sizeMax) :
    arenaSliceBytes sizes =
      if arenaBytes sizes ≤ sizeMax then some (arenaBytes sizes) else none := by
  cases sizes with
  | nil => simp [arenaSliceBytes, arenaBytes]
  | cons bytes rest =>
    have hfirst : bytes ≤ arenaBytes (bytes :: rest) := by
      cases rest with
      | nil => exact le_rfl
      | cons next rest => exact (Nat.le_add_right _ _).trans (le_max_left _ _)
    rw [arenaSliceBytes, adjacentBytes_eq le_rfl hle, max_eq_right hfirst]

/-! ## The two candidates -/

section

variable (logical : PipelinePlan) (depth : ℕ)

def tempSizes : List ℕ := logical.temps.map (·.alignedBytes)

/-- Total bytes of the unified layout, without a limit. -/
def unifiedBytes : ℕ := arenaBytes (tempSizes logical) * depth

/-- Total bytes of the split layout, without a limit. -/
def splitBytes : ℕ := arenaBytes (coreSizes logical) * depth + ringsBytes logical

/-- No size of the unified layout overflows. -/
def UnifiedFits : Prop :=
  arenaBytes (tempSizes logical) ≤ sizeMax ∧ unifiedBytes logical depth ≤ sizeMax

/-- The split layout has a temporary in its arena, and none of its sizes overflows. -/
def SplitFits : Prop :=
  coreSizes logical ≠ [] ∧ arenaBytes (coreSizes logical) ≤ sizeMax ∧
    splitBytes logical depth ≤ sizeMax

instance : Decidable (UnifiedFits logical depth) := inferInstanceAs (Decidable (_ ∧ _))

instance : Decidable (SplitFits logical depth) := inferInstanceAs (Decidable (_ ∧ _ ∧ _))

/-- The sizes a layout reports. -/
structure WorkspaceSizes (plan : PipelinePlan) (kind : WorkspaceKind) (arena raw : ℕ) : Prop where
  workspaceKind : plan.workspaceKind = kind
  registeredSliceBytes : plan.registeredSliceBytes = arena
  registeredBytes : plan.registeredBytes = arena * depth
  rawBytes : plan.rawBytes = raw
  totalBytes : plan.totalBytes = arena * depth + raw

variable {logical depth}

theorem mem_coreBytes {boundary : ℕ → Bool} {temp : ℕ} {items : List TempPlan} {bytes : ℕ}
    (h : bytes ∈ coreBytes boundary temp items) : ∃ item ∈ items, item.alignedBytes = bytes := by
  induction items generalizing temp with
  | nil => cases h
  | cons item items ih =>
    rw [coreBytes] at h
    split_ifs at h
    · obtain ⟨other, hother, heq⟩ := ih h
      exact ⟨other, mem_cons_of_mem _ hother, heq⟩
    · cases h with
      | head => exact ⟨item, mem_cons_self, rfl⟩
      | tail _ h =>
        obtain ⟨other, hother, heq⟩ := ih h
        exact ⟨other, mem_cons_of_mem _ hother, heq⟩

variable (hle : ∀ item ∈ logical.temps, item.alignedBytes ≤ sizeMax)

include hle

/-- The unified layout exists exactly when it fits. -/
theorem buildUnifiedWorkspace_cases :
    (UnifiedFits logical depth ∧ ∃ plan, buildUnifiedWorkspace logical depth = some plan ∧
        WorkspaceSizes depth plan .unified (arenaBytes (tempSizes logical)) 0) ∨
      (¬UnifiedFits logical depth ∧ buildUnifiedWorkspace logical depth = none) := by
  have harena := @arenaSliceBytes_eq (tempSizes logical) (by simpa [tempSizes] using hle)
  unfold buildUnifiedWorkspace UnifiedFits unifiedBytes
  rw [← tempSizes, harena]
  simp only [cocclPipelineCheckedMultiply, mul_eq]
  by_cases hfits : arenaBytes (tempSizes logical) ≤ sizeMax
  · by_cases htotal : arenaBytes (tempSizes logical) * depth ≤ sizeMax
    · refine .inl ⟨⟨hfits, htotal⟩, ?_⟩
      simp only [if_pos hfits, if_pos htotal, Option.bind_eq_bind, Option.bind_some]
      exact ⟨_, rfl, rfl, rfl, rfl, rfl, rfl⟩
    · exact .inr ⟨fun h => htotal h.2, by simp [hfits, htotal]⟩
  · exact .inr ⟨fun h => hfits h.1, by simp [hfits]⟩

/-- The split layout exists exactly when it fits. -/
theorem buildSplitWorkspace_cases :
    (SplitFits logical depth ∧ ∃ plan, buildSplitWorkspace logical depth = some plan ∧
        WorkspaceSizes depth plan .split (arenaBytes (coreSizes logical)) (ringsBytes logical)) ∨
      (¬SplitFits logical depth ∧ buildSplitWorkspace logical depth = none) := by
  have harena := @arenaSliceBytes_eq (coreSizes logical) fun bytes hbytes => ?_
  · unfold buildSplitWorkspace
    rw [← bind_assoc, placeRings_eq]
    by_cases hrings : ringsBytes logical ≤ sizeMax
    · rw [if_pos hrings, Option.bind_eq_bind, Option.bind_some]
      simp only [coreBytes_ringedPlan, harena, cocclPipelineCheckedMultiply,
        cocclPipelineCheckedAdd, mul_eq]
      unfold SplitFits splitBytes
      by_cases hnil : coreSizes logical = []
      · exact .inr ⟨fun h => h.1 hnil, by rw [if_pos hnil]⟩
      · by_cases hfits : arenaBytes (coreSizes logical) ≤ sizeMax
        · by_cases harenas : arenaBytes (coreSizes logical) * depth ≤ sizeMax
          · by_cases htotal : arenaBytes (coreSizes logical) * depth + ringsBytes logical ≤ sizeMax
            · refine .inl ⟨⟨hnil, hfits, htotal⟩, ?_⟩
              simp only [if_neg hnil, if_pos hfits, if_pos harenas, Option.bind_eq_bind,
                Option.bind_some, add_eq harenas]
              rw [if_pos (show _ + (ringedPlan logical).rawBytes ≤ sizeMax from htotal)]
              exact ⟨_, rfl, rfl, rfl, rfl, rfl, rfl⟩
            · refine .inr ⟨fun h => htotal h.2.2, ?_⟩
              simp only [if_neg hnil, if_pos hfits, if_pos harenas, Option.bind_eq_bind,
                Option.bind_some, add_eq harenas]
              rw [if_neg (show ¬_ + (ringedPlan logical).rawBytes ≤ sizeMax from htotal)]
              rfl
          · exact .inr ⟨fun h => harenas ((Nat.le_add_right _ _).trans h.2.2),
              by simp [hnil, hfits, harenas]⟩
        · exact .inr ⟨fun h => hfits h.2.1, by simp [hnil, hfits]⟩
    · refine .inr ⟨fun h => hrings ?_, by rw [if_neg hrings]; rfl⟩
      exact (Nat.le_add_left _ _).trans h.2.2
  · obtain ⟨item, hitem, rfl⟩ := mem_coreBytes hbytes
    exact hle item hitem

end

/-! ## Where the temporaries of a slice lie -/

/-- Two regions that do not meet. -/
def Region.Apart (a b : Region) : Prop :=
  a.space ≠ b.space ∨ a.start + a.bytes ≤ b.start ∨ b.start + b.bytes ≤ a.start

/-- `a` lies inside `b`. -/
structure Region.Inside (a b : Region) : Prop where
  space : a.space = b.space
  start_le : b.start ≤ a.start
  end_le : a.start + a.bytes ≤ b.start + b.bytes

variable {i : ℕ}

namespace PipelinePlan

variable (plan : PipelinePlan)

def temp (tempIndex : ℕ) : TempPlan := plan.temps.getD tempIndex default

/-- All bytes of a temporary in one slice, where `tempPtr` puts it. -/
def tempRegion (slice tempIndex : ℕ) : Region :=
  match (plan.temp tempIndex).storage with
  | .rawRing => ⟨.raw, (plan.temp tempIndex).offset +
      slice % kCocclPipelineRawRingSlots * (plan.temp tempIndex).alignedBytes,
      (plan.temp tempIndex).alignedBytes⟩
  | .registeredArena => ⟨.registered, slice * plan.registeredSliceBytes +
      (plan.temp tempIndex).offset, (plan.temp tempIndex).alignedBytes⟩

/-- The arena of one slice. -/
def arena (slice : ℕ) : Region :=
  ⟨.registered, slice * plan.registeredSliceBytes, plan.registeredSliceBytes⟩

/-- The ring of a temporary. -/
def ring (tempIndex : ℕ) : Region :=
  ⟨.raw, (plan.temp tempIndex).offset,
    (plan.temp tempIndex).alignedBytes * kCocclPipelineRawRingSlots⟩

variable {plan}

theorem getElem?_temp (hi : i < plan.temps.length) : plan.temps[i]? = some (plan.temp i) := by
  simp [temp, hi]

theorem slot_le (slice : ℕ) : slice % kCocclPipelineRawRingSlots ≤ 1 :=
  Nat.le_of_lt_succ (Nat.mod_lt _ (by decide))

variable {slice : ℕ}

theorem tempRegion_arena (h : (plan.temp i).storage = .registeredArena) :
    plan.tempRegion slice i = ⟨.registered, slice * plan.registeredSliceBytes +
      (plan.temp i).offset, (plan.temp i).alignedBytes⟩ := by
  unfold tempRegion
  rw [h]

theorem tempRegion_ring (h : (plan.temp i).storage = .rawRing) :
    plan.tempRegion slice i = ⟨.raw, (plan.temp i).offset +
      slice % kCocclPipelineRawRingSlots * (plan.temp i).alignedBytes,
      (plan.temp i).alignedBytes⟩ := by
  unfold tempRegion
  rw [h]

/-- A slot lies inside its ring. -/
theorem tempRegion_inside_ring (h : (plan.temp i).storage = .rawRing) :
    (plan.tempRegion slice i).Inside (plan.ring i) := by
  have hslot := Nat.mul_le_mul_right (plan.temp i).alignedBytes (slot_le slice)
  rw [tempRegion_ring h]
  refine ⟨rfl, Nat.le_add_right _ _, ?_⟩
  simp only [ring, kCocclPipelineRawRingSlots] at hslot ⊢
  omega

/-- The two slots of a ring do not meet. -/
theorem slots_apart {s t : ℕ} (h : (plan.temp i).storage = .rawRing)
    (hslot : rawSlot s ≠ rawSlot t) :
    (plan.tempRegion s i).Apart (plan.tempRegion t i) := by
  have hs := slot_le s
  have ht := slot_le t
  unfold rawSlot at hslot
  rw [tempRegion_ring h, tempRegion_ring h]
  right
  simp only
  rcases lt_or_gt_of_ne hslot with hlt | hlt
  · left
    rw [show s % kCocclPipelineRawRingSlots = 0 by omega,
      show t % kCocclPipelineRawRingSlots = 1 by omega]
    omega
  · right
    rw [show s % kCocclPipelineRawRingSlots = 1 by omega,
      show t % kCocclPipelineRawRingSlots = 0 by omega]
    omega

end PipelinePlan

theorem Region.Apart.mono {a b c d : Region} (h : Region.Apart b d) (hab : a.Inside b)
    (hcd : c.Inside d) : Region.Apart a c := by
  obtain ⟨hspace, hstart, hend⟩ := hab
  obtain ⟨hspace', hstart', hend'⟩ := hcd
  rcases h with h | h | h
  · exact .inl (by rw [hspace, hspace']; exact h)
  · exact .inr (.inl (by omega))
  · exact .inr (.inr (by omega))

/-- The arenas of two slices do not meet. -/
theorem PipelinePlan.arenas_apart (plan : PipelinePlan) {s t : ℕ} (hst : s ≠ t) :
    (plan.arena s).Apart (plan.arena t) := by
  right
  simp only [arena]
  exact (lt_or_gt_of_ne hst).imp Blocks.mul_add_le Blocks.mul_add_le

namespace WorkspaceLayout

variable {logical plan : PipelinePlan} (L : WorkspaceLayout logical plan) {s t i j : ℕ}
include L

theorem tempRegion_inside_arena (hi : i < plan.temps.length)
    (h : (plan.temp i).storage = .registeredArena) :
    (plan.tempRegion s i).Inside (plan.arena s) := by
  have hin := L.inside i _ (getElem?_temp hi) h
  rw [tempRegion_arena h]
  exact ⟨rfl, Nat.le_add_right _ _, by simp only [PipelinePlan.arena]; omega⟩

theorem rings_apart (hij : i ≠ j) (hi : i < plan.temps.length) (hj : j < plan.temps.length)
    (h : (plan.temp i).storage = .rawRing) (h' : (plan.temp j).storage = .rawRing) :
    (plan.ring i).Apart (plan.ring j) :=
  .inr (L.rings i j _ _ hij (getElem?_temp hi) (getElem?_temp hj) h h')

/-- Neighbouring temporaries of one slice do not meet. -/
theorem adjacent_apart (hi : i + 1 < plan.temps.length) :
    (plan.tempRegion s i).Apart (plan.tempRegion s (i + 1)) := by
  have hi' : i < plan.temps.length := Nat.lt_of_succ_lt hi
  cases hsi : (plan.temp i).storage with
  | registeredArena =>
    cases hsj : (plan.temp (i + 1)).storage with
    | registeredArena =>
      have hadjacent := L.adjacent i _ _ (getElem?_temp hi') (getElem?_temp hi) hsi hsj
      rw [tempRegion_arena hsi, tempRegion_arena hsj]
      exact .inr (by simp only; omega)
    | rawRing =>
      rw [tempRegion_arena hsi, tempRegion_ring hsj]
      exact .inl nofun
  | rawRing =>
    cases hsj : (plan.temp (i + 1)).storage with
    | registeredArena =>
      rw [tempRegion_ring hsi, tempRegion_arena hsj]
      exact .inl nofun
    | rawRing =>
      exact (L.rings_apart (Nat.succ_ne_self i).symm hi' hi hsi hsj).mono
        (tempRegion_inside_ring hsi) (tempRegion_inside_ring hsj)

/-- Temporaries of different slices meet only in a slot of one ring. -/
theorem slices_apart (hst : s ≠ t) (hi : i < plan.temps.length) (hj : j < plan.temps.length)
    (hring : ¬((plan.temp i).storage = .rawRing ∧ i = j ∧ rawSlot s = rawSlot t)) :
    (plan.tempRegion s i).Apart (plan.tempRegion t j) := by
  cases hsi : (plan.temp i).storage with
  | registeredArena =>
    cases hsj : (plan.temp j).storage with
    | registeredArena =>
      exact (plan.arenas_apart hst).mono (L.tempRegion_inside_arena hi hsi)
        (L.tempRegion_inside_arena hj hsj)
    | rawRing =>
      rw [tempRegion_arena hsi, tempRegion_ring hsj]
      exact .inl nofun
  | rawRing =>
    cases hsj : (plan.temp j).storage with
    | registeredArena =>
      rw [tempRegion_ring hsi, tempRegion_arena hsj]
      exact .inl nofun
    | rawRing =>
      by_cases hij : i = j
      · subst hij
        exact slots_apart hsi fun hslot => hring ⟨hsi, rfl, hslot⟩
      · exact (L.rings_apart hij hi hj hsi hsj).mono (tempRegion_inside_ring hsi)
          (tempRegion_inside_ring hsj)

end WorkspaceLayout

/-! ## The chosen layout -/

/-- A workspace of `depth` slices for the temporaries of `logical`: aligned, with neighbours, slices
and slots apart, and with the sizes it reports. -/
structure WorkspaceSound (logical plan : PipelinePlan) (depth : ℕ) : Prop where
  temps_length : plan.temps.length = logical.temps.length
  alignedBytes : ∀ i, (plan.temp i).alignedBytes = (logical.temp i).alignedBytes
  offset_aligned : ∀ i < plan.temps.length, kCocclPipelineAlignment ∣ (plan.temp i).offset
  arena_aligned : kCocclPipelineAlignment ∣ plan.registeredSliceBytes
  consecutive : ∀ s i, i + 1 < plan.temps.length →
    (plan.tempRegion s i).Apart (plan.tempRegion s (i + 1))
  inside_arena : ∀ s i, i < plan.temps.length → (plan.temp i).storage = .registeredArena →
    (plan.tempRegion s i).Inside (plan.arena s)
  inside_ring : ∀ s i, i < plan.temps.length → (plan.temp i).storage = .rawRing →
    (plan.tempRegion s i).Inside (plan.ring i) ∧
      (plan.ring i).Inside ⟨.raw, 0, plan.rawBytes⟩
  arenas : ∀ s < depth, (plan.arena s).Inside ⟨.registered, 0, plan.registeredBytes⟩
  slices : ∀ s t i j, s ≠ t → i < plan.temps.length → j < plan.temps.length →
    ¬((plan.temp i).storage = .rawRing ∧ i = j ∧ rawSlot s = rawSlot t) →
    (plan.tempRegion s i).Apart (plan.tempRegion t j)
  slots : ∀ s t i, (plan.temp i).storage = .rawRing → rawSlot s ≠ rawSlot t →
    (plan.tempRegion s i).Apart (plan.tempRegion t i)
  total_le : plan.totalBytes ≤ sizeMax

section

variable {logical plan : PipelinePlan} {depth : ℕ}

/-- A layout for 256-aligned sizes keeps every offset aligned. -/
theorem arenaOffset_dvd {sliceBytes position bytes : ℕ} (harena : d ∣ sliceBytes)
    (hbytes : d ∣ bytes) : d ∣ arenaOffset sliceBytes position bytes := by
  unfold arenaOffset
  split
  · exact dvd_zero d
  · exact Nat.dvd_sub harena hbytes

theorem WorkspaceLayout.temps_length (L : WorkspaceLayout logical plan) :
    plan.temps.length = logical.temps.length := by
  refine le_antisymm (not_lt.mp fun hlt => ?_) (not_lt.mp fun hlt => ?_)
  · obtain ⟨storage, offset, htemp⟩ := L.temps logical.temps.length
    simp [hlt] at htemp
  · obtain ⟨storage, offset, htemp⟩ := L.temps plan.temps.length
    simp [hlt] at htemp

theorem WorkspaceLayout.alignedBytes (L : WorkspaceLayout logical plan) (i : ℕ) :
    (plan.temp i).alignedBytes = (logical.temp i).alignedBytes := by
  obtain ⟨storage, offset, htemp⟩ := L.temps i
  simp only [PipelinePlan.temp, getD_eq_getElem?_getD, htemp]
  cases logical.temps[i]? <;> rfl

theorem buildUnifiedWorkspace_aligned (hd : ∀ item ∈ logical.temps, d ∣ item.alignedBytes)
    (h : buildUnifiedWorkspace logical depth = some plan) (harena : d ∣ plan.registeredSliceBytes)
    {item : TempPlan} (hi : plan.temps[i]? = some item) : d ∣ item.offset := by
  obtain ⟨sliceBytes, -, h⟩ := Option.bind_eq_some_iff.mp h
  obtain ⟨registeredBytes, -, h⟩ := Option.bind_eq_some_iff.mp h
  obtain rfl := Option.some.inj h
  rw [placeUnified_getElem?] at hi
  obtain ⟨source, hsource, rfl⟩ := Option.map_eq_some_iff.mp hi
  exact arenaOffset_dvd harena (hd source (mem_of_getElem? hsource))

theorem ringBytes_dvd (hd : ∀ item ∈ logical.temps, d ∣ item.alignedBytes) (temp : Option ℕ) :
    d ∣ ringBytes logical temp := by
  cases temp with
  | none => exact dvd_zero d
  | some t =>
    refine Dvd.dvd.mul_right ?_ _
    rw [getD_eq_getElem?_getD]
    cases ht : logical.temps[t]? with
    | none => exact dvd_zero d
    | some item => exact hd item (mem_of_getElem? ht)

theorem buildSplitWorkspace_aligned (hdistinct : BoundaryDistinct logical)
    (hd : ∀ item ∈ logical.temps, d ∣ item.alignedBytes)
    (h : buildSplitWorkspace logical depth = some plan) (harena : d ∣ plan.registeredSliceBytes)
    {item : TempPlan} (hi : plan.temps[i]? = some item) : d ∣ item.offset := by
  obtain ⟨sliceBytes, totalBytes, -, -, rfl⟩ := buildSplitWorkspace_some h
  rw [placeCore_ringedPlan hdistinct] at hi
  obtain ⟨source, hsource, rfl⟩ := Option.map_eq_some_iff.mp hi
  cases hstorage : (splitPlace logical sliceBytes i source).storage with
  | registeredArena =>
    rw [(splitPlace_arena hstorage).2]
    exact arenaOffset_dvd harena (hd source (mem_of_getElem? hsource))
  | rawRing =>
    rcases splitPlace_ring hstorage with ⟨-, hplace⟩ | ⟨-, hplace⟩ <;> rw [hplace]
    · exact dvd_zero d
    · exact ringBytes_dvd hd _

/-- A layout with its sizes and its alignment is sound. -/
theorem WorkspaceLayout.sound (L : WorkspaceLayout logical plan) (I : WorkspaceInside plan depth)
    {kind : WorkspaceKind} {arena raw : ℕ} (S : WorkspaceSizes depth plan kind arena raw)
    (htotal : arena * depth + raw ≤ sizeMax) (harena : kCocclPipelineAlignment ∣ arena)
    (hoffset : ∀ (i : ℕ) (item : TempPlan), plan.temps[i]? = some item →
      kCocclPipelineAlignment ∣ item.offset) : WorkspaceSound logical plan depth where
  temps_length := L.temps_length
  alignedBytes := L.alignedBytes
  offset_aligned i hi := hoffset i _ (getElem?_temp hi)
  arena_aligned := S.registeredSliceBytes ▸ harena
  consecutive s i hi := L.adjacent_apart hi
  inside_arena s i hi h := L.tempRegion_inside_arena hi h
  inside_ring s i hi h := by
    refine ⟨tempRegion_inside_ring h, rfl, Nat.zero_le _, ?_⟩
    have hring := I.ring i _ (getElem?_temp hi) h
    simpa [PipelinePlan.ring] using hring
  arenas s hs := by
    refine ⟨rfl, Nat.zero_le _, ?_⟩
    have hle := @Blocks.mul_add_le _ plan.registeredSliceBytes _ hs
    rw [mul_comm depth, ← I.registered] at hle
    simpa [PipelinePlan.arena] using hle
  slices s t i j hst hi hj hring := L.slices_apart hst hi hj hring
  slots s t i h hslot := slots_apart h hslot
  total_le := S.totalBytes ▸ htotal

section

variable (hd : ∀ item ∈ logical.temps, kCocclPipelineAlignment ∣ item.alignedBytes)

include hd

theorem unified_sound (hfits : UnifiedFits logical depth)
    (S : WorkspaceSizes depth plan .unified (arenaBytes (tempSizes logical)) 0)
    (h : buildUnifiedWorkspace logical depth = some plan) : WorkspaceSound logical plan depth := by
  have harena : kCocclPipelineAlignment ∣ arenaBytes (tempSizes logical) :=
    arenaBytes_dvd (by simpa [tempSizes] using hd)
  refine (buildUnifiedWorkspace_layout h).sound (buildUnifiedWorkspace_inside h) S hfits.2 harena
    fun i item hi => ?_
  exact buildUnifiedWorkspace_aligned hd h (S.registeredSliceBytes ▸ harena) hi

theorem split_sound (hdistinct : BoundaryDistinct logical) (hfits : SplitFits logical depth)
    (S : WorkspaceSizes depth plan .split (arenaBytes (coreSizes logical)) (ringsBytes logical))
    (h : buildSplitWorkspace logical depth = some plan) : WorkspaceSound logical plan depth := by
  have harena : kCocclPipelineAlignment ∣ arenaBytes (coreSizes logical) := by
    refine arenaBytes_dvd fun bytes hbytes => ?_
    obtain ⟨item, hitem, rfl⟩ := mem_coreBytes hbytes
    exact hd item hitem
  refine (buildSplitWorkspace_layout hdistinct h).sound (buildSplitWorkspace_inside hdistinct h) S
    hfits.2.2 harena fun i item hi => ?_
  exact buildSplitWorkspace_aligned hdistinct hd h (S.registeredSliceBytes ▸ harena) hi

end

/-- A staged input that is the first temporary and a staged output that is the last are the same
one only where there is no other. -/
theorem boundaryDistinct_of_core
    (hin : logical.inputStagingTemp = none ∨ logical.inputStagingTemp = some 0)
    (hout : logical.outputStagingTemp = none ∨
      logical.outputStagingTemp = some (logical.temps.length - 1))
    (hcore : coreSizes logical ≠ []) : BoundaryDistinct logical := by
  refine ⟨fun t hint houtt => ?_⟩
  obtain ⟨i, hi, hb⟩ := coreBytes_ne_nil hcore
  have hzero : t = 0 := by
    rcases hin with h | h
    · rw [h] at hint
      cases hint
    · exact (Option.some.inj (h.symm.trans hint)).symm
  have hlast : t = logical.temps.length - 1 := by
    rcases hout with h | h
    · rw [h] at houtt
      cases houtt
    · exact (Option.some.inj (h.symm.trans houtt)).symm
  obtain rfl : i = t := by omega
  simp [boundaryTemp, hint] at hb

/-- **The chosen workspace is sound and the smaller one.** It is missing exactly when neither layout
exists within `size_t`, and the unified one where both take the same bytes. -/
theorem cocclPlanPipelineWorkspace_sound (hsizes : ∀ item ∈ logical.temps,
      kCocclPipelineAlignment ∣ item.alignedBytes ∧ item.alignedBytes ≤ sizeMax)
    (hin : logical.inputStagingTemp = none ∨ logical.inputStagingTemp = some 0)
    (hout : logical.outputStagingTemp = none ∨
      logical.outputStagingTemp = some (logical.temps.length - 1)) :
    ((∃ e, cocclPlanPipelineWorkspace logical depth = .error e) ↔
      ¬UnifiedFits logical depth ∧ ¬SplitFits logical depth) ∧
    ∀ plan, cocclPlanPipelineWorkspace logical depth = .ok plan →
      WorkspaceSound logical plan depth ∧
      if SplitFits logical depth ∧
          (¬UnifiedFits logical depth ∨ splitBytes logical depth < unifiedBytes logical depth) then
        WorkspaceSizes depth plan .split (arenaBytes (coreSizes logical)) (ringsBytes logical)
      else WorkspaceSizes depth plan .unified (arenaBytes (tempSizes logical)) 0 := by
  have hd : ∀ item ∈ logical.temps, kCocclPipelineAlignment ∣ item.alignedBytes :=
    fun item hi => (hsizes item hi).1
  have hle : ∀ item ∈ logical.temps, item.alignedBytes ≤ sizeMax :=
    fun item hi => (hsizes item hi).2
  have hdistinct := @boundaryDistinct_of_core logical hin hout
  unfold cocclPlanPipelineWorkspace
  rcases @buildUnifiedWorkspace_cases logical depth hle with
      ⟨hunified, unified, hbuild, S⟩ | ⟨hunified, hbuild⟩ <;>
    rcases @buildSplitWorkspace_cases logical depth hle with
      ⟨hsplit, split, hbuild', S'⟩ | ⟨hsplit, hbuild'⟩ <;>
    rw [hbuild, hbuild']
  · -- both exist
    refine ⟨⟨nofun, fun h => absurd hunified h.1⟩, fun plan hplan => ?_⟩
    have htotals : split.totalBytes < unified.totalBytes ↔
        splitBytes logical depth < unifiedBytes logical depth := by
      rw [S.totalBytes, S'.totalBytes]
      rfl
    obtain rfl := Except.ok.inj hplan
    by_cases hlt : split.totalBytes < unified.totalBytes
    · rw [if_pos hlt, if_pos ⟨hsplit, .inr (htotals.mp hlt)⟩]
      exact ⟨split_sound hd (hdistinct hsplit.1) hsplit S' hbuild', S'⟩
    · rw [if_neg hlt, if_neg fun h => hlt (htotals.mpr (h.2.resolve_left fun hno => hno hunified))]
      exact ⟨unified_sound hd hunified S hbuild, S⟩
  · refine ⟨⟨nofun, fun h => absurd hunified h.1⟩, fun plan hplan => ?_⟩
    obtain rfl := Except.ok.inj hplan
    rw [if_neg fun h => hsplit h.1]
    exact ⟨unified_sound hd hunified S hbuild, S⟩
  · refine ⟨⟨nofun, fun h => absurd hsplit h.2⟩, fun plan hplan => ?_⟩
    obtain rfl := Except.ok.inj hplan
    rw [if_pos ⟨hsplit, .inl hunified⟩]
    exact ⟨split_sound hd (hdistinct hsplit.1) hsplit S' hbuild', S'⟩
  · exact ⟨⟨fun _ => ⟨hunified, hsplit⟩, fun _ => ⟨_, rfl⟩⟩, nofun⟩

end

/-- A staged input, one temporary behind it and a staged output, of 512, 256 and 512 bytes. -/
def stagedTemps : PipelinePlan :=
  { (default : PipelinePlan) with
    inputStagingTemp := some 0
    outputStagingTemp := some 2
    temps := [512, 256, 512].map fun bytes => { (default : TempPlan) with alignedBytes := bytes } }

/-- In eight slices the split layout, with rings of 2048 bytes, is the smaller one. -/
theorem stagedTemps_sound : ∃ plan, cocclPlanPipelineWorkspace stagedTemps 8 = .ok plan ∧
    WorkspaceSound stagedTemps plan 8 ∧ WorkspaceSizes 8 plan .split 256 2048 := by
  obtain ⟨hfails, hsound⟩ := @cocclPlanPipelineWorkspace_sound stagedTemps 8 (by decide) (by decide)
    (by decide)
  obtain ⟨plan, hplan, -⟩ : ∃ plan, cocclPlanPipelineWorkspace stagedTemps 8 = .ok plan ∧
      decide (plan.workspaceKind = .split) = true := exists_of_any (by decide)
  obtain ⟨hlayout, hsizes⟩ := hsound plan hplan
  rw [if_pos (by decide)] at hsizes
  exact ⟨plan, hplan, hlayout, hsizes⟩

end Coccl
