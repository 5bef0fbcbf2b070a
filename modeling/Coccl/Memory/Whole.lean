import Coccl.Memory.Leases
import Mathlib.Data.List.TakeWhile

/-!
# Blocks the driver holds

A pool's blocks are whole if the driver has their ranges reserved and mapped and holds the
registrations they list. Every call keeps them whole, but a growth that fails between two
registrations it withdraws, or with the old range unmapped (`Growth.whole`).
-/

namespace Coccl

open Leasing List

namespace Block

variable (block : Block)

/-- An address of the block. -/
def Has (a : ℕ) : Prop := Driver.inRange block.ptr block.capacity a = true

/-- What the driver keeps for a block. -/
def holding : ℕ × ℕ × List Registration := (block.ptr, block.capacity, block.registrations)

end Block

/-- Blocks with everything they list held by the driver. -/
structure Whole (blocks : List Block) (driver : Driver) (fresh : ℕ) : Prop where
  held : ∀ b ∈ blocks, ∀ a, b.Has a → driver.reserved a = true ∧ driver.mapped a = true
  apart : blocks.Pairwise fun b b' => ∀ a, b.Has a → ¬ b'.Has a
  listed : ∀ b ∈ blocks, ∀ r ∈ b.registrations,
    r ∈ driver.live ∧ r.ptr = b.ptr ∧ r.bytes = b.capacity ∧ r.handle < fresh
  handles : (blocks.flatMap fun b => b.registrations.map (·.handle)).Nodup

variable {b : Block} {a : ℕ}

namespace Whole

variable {blocks A B : List Block} {block : Block} {driver driver' : Driver} {fresh fresh' : ℕ}
  {blocks' : List Block}

section

variable (h : Whole blocks driver fresh)

include h

/-- Slices do not matter. -/
theorem congr (hholding : blocks'.map Block.holding = blocks.map Block.holding) :
    Whole blocks' driver fresh := by
  have hsame : ∀ b' ∈ blocks', ∃ b ∈ blocks, b.holding = b'.holding := by
    intro b' hb'
    exact mem_map.mp (hholding ▸ mem_map_of_mem hb')
  refine ⟨?_, ?_, ?_, ?_⟩
  · intro b' hb' a ha
    obtain ⟨b, hb, heq⟩ := hsame b' hb'
    obtain ⟨hptr, hrest⟩ := Prod.mk.inj heq
    refine h.held b hb a ?_
    rw [Block.Has, hptr, (Prod.mk.inj hrest).1]
    exact ha
  · have happart : (blocks.map Block.holding).Pairwise fun x y =>
        ∀ a, Driver.inRange x.1 x.2.1 a = true → ¬ Driver.inRange y.1 y.2.1 a = true :=
      pairwise_map.mpr h.apart
    rw [← hholding] at happart
    exact pairwise_map.mp happart
  · intro b' hb' r hr
    obtain ⟨b, hb, heq⟩ := hsame b' hb'
    obtain ⟨hptr, hrest⟩ := Prod.mk.inj heq
    obtain ⟨hcapacity, hregistrations⟩ := Prod.mk.inj hrest
    rw [← hptr, ← hcapacity]
    exact h.listed b hb r (hregistrations ▸ hr)
  · have hflat : ∀ l : List Block, (l.flatMap fun b => b.registrations.map (·.handle)) =
        (l.map Block.holding).flatMap fun x => x.2.2.map (·.handle) := by
      intro l
      rw [flatMap_map]
      rfl
    rw [hflat, hholding, ← hflat]
    exact h.handles

theorem mono (hle : fresh ≤ fresh') : Whole blocks driver fresh' where
  held := h.held
  apart := h.apart
  listed b hb r hr := by
    obtain ⟨hlive, hptr, hbytes, hlt⟩ := h.listed b hb r hr
    exact ⟨hlive, hptr, hbytes, hlt.trans_le hle⟩
  handles := h.handles

/-- The driver may change what is no block's. -/
theorem of_driver (hreserved : ∀ b ∈ blocks, ∀ a, b.Has a → driver.reserved a = true →
      driver'.reserved a = true)
    (hmapped : ∀ b ∈ blocks, ∀ a, b.Has a → driver.mapped a = true → driver'.mapped a = true)
    (hlive : ∀ b ∈ blocks, ∀ r ∈ b.registrations, r ∈ driver.live → r ∈ driver'.live) :
    Whole blocks driver' fresh where
  held b hb a ha :=
    ⟨hreserved b hb a ha (h.held b hb a ha).1, hmapped b hb a ha (h.held b hb a ha).2⟩
  apart := h.apart
  listed b hb r hr := ⟨hlive b hb r hr (h.listed b hb r hr).1, (h.listed b hb r hr).2⟩
  handles := h.handles

theorem sublist (hsub : blocks'.Sublist blocks) : Whole blocks' driver fresh where
  held b hb := h.held b (hsub.subset hb)
  apart := h.apart.sublist hsub
  listed b hb := h.listed b (hsub.subset hb)
  handles := h.handles.sublist (hsub.flatMap _)

end

theorem drop (h : Whole (A ++ block :: B) driver fresh) : Whole (A ++ B) driver fresh :=
  h.sublist (List.Sublist.append_left (sublist_cons_self _ _) _)

/-- The block is apart from the others. -/
theorem apart_of_mem (h : Whole (A ++ block :: B) driver fresh) (hb : b ∈ A ++ B) (ha : b.Has a) :
    ¬ block.Has a := by
  have hmiddle := (pairwise_middle fun hxy a hy hx => hxy a hx hy).mp h.apart
  exact fun hblock => (pairwise_cons.mp hmiddle).1 b hb a hblock ha

theorem not_inRange (h : Whole (A ++ block :: B) driver fresh) (hb : b ∈ A ++ B) (ha : b.Has a) :
    Driver.inRange block.ptr block.capacity a = false :=
  Bool.not_eq_true _ ▸ h.apart_of_mem hb ha

/-- A block with nothing registered joins. -/
theorem insert (h : Whole (A ++ B) driver fresh) (hregistrations : block.registrations = [])
    (hheld : ∀ a, block.Has a → driver.reserved a = true ∧ driver.mapped a = true)
    (hapart : ∀ b ∈ A ++ B, ∀ a, b.Has a → ¬ block.Has a) :
    Whole (A ++ block :: B) driver fresh := by
  refine ⟨?_, ?_, ?_, ?_⟩
  · intro b hb a ha
    rcases mem_middle.mp hb with rfl | hb
    · exact hheld a ha
    · exact h.held b hb a ha
  · refine (pairwise_middle fun hxy a hy hx => hxy a hx hy).mpr (pairwise_cons.mpr ⟨?_, h.apart⟩)
    exact fun b hb a ha hb' => hapart b hb a hb' ha
  · intro b hb r hr
    rcases mem_middle.mp hb with rfl | hb
    · rw [hregistrations] at hr
      cases hr
    · exact h.listed b hb r hr
  · have hhandles := h.handles
    rw [flatMap_append] at hhandles
    rw [flatMap_append, flatMap_cons, hregistrations]
    exact hhandles

/-! ### Registrations -/

/-- What a change of one block's registrations has to keep. -/
theorem of_registrations (h : Whole (A ++ block :: B) driver fresh)
    {registrations : List Registration} (hle : fresh ≤ fresh')
    (hreserved : driver'.reserved = driver.reserved) (hmapped : driver'.mapped = driver.mapped)
    (hothers : ∀ b ∈ A ++ B, ∀ r ∈ b.registrations, r ∈ driver'.live)
    (hown : ∀ r ∈ registrations,
      r ∈ driver'.live ∧ r.ptr = block.ptr ∧ r.bytes = block.capacity ∧ r.handle < fresh')
    (hnodup : ((A ++ { block with registrations := registrations } :: B).flatMap
      fun b => b.registrations.map (·.handle)).Nodup) :
    Whole (A ++ { block with registrations := registrations } :: B) driver' fresh' := by
  refine ⟨?_, ?_, ?_, hnodup⟩
  · intro b hb a ha
    rw [hreserved, hmapped]
    rcases mem_middle.mp hb with rfl | hb
    · exact h.held block mem_append_cons_self a ha
    · exact h.drop.held b hb a ha
  · have happart := h.apart
    rw [pairwise_append, pairwise_cons] at happart ⊢
    simp only [forall_mem_cons] at happart ⊢
    exact happart
  · intro b hb r hr
    rcases mem_middle.mp hb with rfl | hb
    · exact hown r hr
    · obtain ⟨-, hptr, hbytes, hlt⟩ := h.drop.listed b hb r hr
      exact ⟨hothers b hb r hr, hptr, hbytes, hlt.trans_le hle⟩

/-- The block is registered once more. -/
theorem register (h : Whole (A ++ block :: B) driver fresh) (comm : ℕ) : Whole (A ++ { block with
        registrations := block.registrations ++ [⟨comm, block.ptr, block.capacity, fresh⟩] } :: B)
      (driver.register ⟨comm, block.ptr, block.capacity, fresh⟩) (fresh + 1) := by
  refine h.of_registrations (Nat.le_succ _) rfl rfl ?_ ?_ ?_
  · exact fun b hb r hr => mem_cons_of_mem _ (h.drop.listed b hb r hr).1
  · intro r hr
    rcases mem_append.mp hr with hr | hr
    · obtain ⟨hlive, hptr, hbytes, hlt⟩ := h.listed block mem_append_cons_self r hr
      exact ⟨mem_cons_of_mem _ hlive, hptr, hbytes, hlt.trans (Nat.lt_succ_self _)⟩
    · obtain rfl := mem_singleton.mp hr
      exact ⟨mem_cons_self, rfl, rfl, Nat.lt_succ_self _⟩
  · have hhandles := h.handles
    have hfresh : fresh ∉ (A ++ block :: B).flatMap fun b => b.registrations.map (·.handle) := by
      intro hmem
      obtain ⟨b, hb, hr⟩ := mem_flatMap.mp hmem
      obtain ⟨r, hr, heq⟩ := mem_map.mp hr
      exact absurd (h.listed b hb r hr).2.2.2 (heq ▸ lt_irrefl _)
    simp only [flatMap_append, flatMap_cons, map_append, map_cons,
      map_nil, append_assoc, cons_append, nil_append] at hhandles hfresh ⊢
    rw [← append_assoc] at hhandles hfresh ⊢
    exact nodup_middle.mpr (nodup_cons.mpr ⟨hfresh, hhandles⟩)

/-- One of the block's registrations is withdrawn. -/
theorem withdraw {X Y : List Registration} {r : Registration}
    (h : Whole (A ++ { block with registrations := X ++ r :: Y } :: B) driver fresh) :
    Whole (A ++ { block with registrations := X ++ Y } :: B) (driver.deregister r.handle)
      fresh := by
  have hhandles := h.handles
  simp only [flatMap_append, flatMap_cons, map_append, map_cons,
    append_assoc, cons_append] at hhandles
  rw [← append_assoc, nodup_middle, nodup_cons] at hhandles
  obtain ⟨hr, hrest⟩ := hhandles
  have hne : ∀ r' : Registration,
      ((∃ b ∈ A ++ B, r' ∈ b.registrations) ∨ r' ∈ X ++ Y) → r'.handle ≠ r.handle := by
    intro r' hr' heq
    refine hr ?_
    rw [← heq]
    simp only [mem_append, mem_flatMap, mem_map] at hr' ⊢
    rcases hr' with ⟨b, hb | hb, hr'⟩ | hr' | hr'
    · exact .inl (.inl ⟨b, hb, r', hr', rfl⟩)
    · exact .inr (.inr ⟨b, hb, r', hr', rfl⟩)
    · exact .inl (.inr ⟨r', hr', rfl⟩)
    · exact .inr (.inl ⟨r', hr', rfl⟩)
  have hstays : ∀ r' ∈ driver.live, r'.handle ≠ r.handle → r' ∈ (driver.deregister r.handle).live :=
    fun r' hr' hne => mem_filter.mpr ⟨hr', decide_eq_true hne⟩
  refine @of_registrations A B { block with registrations := X ++ r :: Y } driver
    (driver.deregister r.handle) fresh fresh h (X ++ Y) le_rfl rfl rfl ?_ ?_ ?_
  · exact fun b hb r' hr' => hstays r' (h.drop.listed b hb r' hr').1 (hne r' (.inl ⟨b, hb, hr'⟩))
  · intro r' hr'
    obtain ⟨hlive, hrest⟩ := h.listed { block with registrations := X ++ r :: Y }
      mem_append_cons_self r' (mem_middle.mpr (.inr hr'))
    exact ⟨hstays r' hlive (hne r' (.inr hr')), hrest⟩
  · simpa only [flatMap_append, flatMap_cons, map_append, append_assoc] using hrest

end Whole

/-! ## Handing out slices -/

variable {fresh bytes : ℕ} {slices : List BufferSlice} {handles ptr : ℕ}

section

variable {blocks A B : List Block} {block block' : Block} {env env' : Env}
  {registeredComm : Option ℕ}

theorem ensureRegistration_whole {result : Option NcclError}
    (hwhole : Whole (A ++ block :: B) env.driver env.fresh)
    (h : block.ensureRegistration registeredComm env = (result, block', env')) :
    Whole (A ++ block' :: B) env'.driver env'.fresh := by
  unfold Block.ensureRegistration at h
  split at h
  · obtain ⟨-, rfl, rfl⟩ := h
    exact hwhole
  · rename_i comm
    split at h
    · obtain ⟨-, rfl, rfl⟩ := h
      exact hwhole
    · split at h
      · obtain ⟨-, rfl, rfl⟩ := h
        exact hwhole
      · obtain ⟨-, rfl, rfl⟩ := h
        exact hwhole.register comm

variable {driver : Driver}

/-- Slices of one block do not matter. -/
theorem Whole.setSlices (h : Whole (A ++ block :: B) driver fresh) :
    Whole (A ++ { block with slices := slices, handles := handles } :: B) driver fresh :=
  h.congr (by rw [map_append, map_append]; rfl)

theorem Block.acquire_whole {allow : Bool} {stream ownerComm : ℕ} {result : Result BufferHandle}
    (hwhole : Whole (A ++ block :: B) env.driver env.fresh)
    (h : block.acquire allow bytes registeredComm stream ownerComm env = (result, block', env')) :
    Whole (A ++ block' :: B) env'.driver env'.fresh := by
  unfold Block.acquire at h
  simp only at h
  split at h
  · obtain ⟨-, rfl, rfl⟩ := h
    exact hwhole.setSlices.mono (Nat.le_succ _)
  · split at h
    · rename_i hregister
      obtain ⟨-, rfl, rfl⟩ := h
      exact (ensureRegistration_whole (by exact hwhole.mono (Nat.le_succ _)) hregister).setSlices
    · rename_i hregister
      obtain ⟨-, rfl, rfl⟩ := h
      exact (ensureRegistration_whole (by exact hwhole.mono (Nat.le_succ _)) hregister).setSlices

theorem acquireFromBlocks_whole {stream ownerComm : ℕ} {result : Option (Result BufferHandle)}
    (hwhole : Whole (A ++ (blocks ++ B)) env.driver env.fresh)
    (h : acquireFromBlocks bytes registeredComm stream ownerComm blocks env =
      (result, blocks', env')) :
    Whole (A ++ (blocks' ++ B)) env'.driver env'.fresh := by
  induction blocks generalizing A env blocks' with
  | nil =>
    obtain ⟨-, rfl, rfl⟩ := h
    exact hwhole
  | cons block rest ih =>
    unfold acquireFromBlocks at h
    split at h
    · rename_i block₁ env₁ hacquire
      rcases hrest : acquireFromBlocks bytes registeredComm stream ownerComm rest env₁ with
        ⟨answer, rest', env₂⟩
      simp only [hrest] at h
      obtain ⟨-, rfl, rfl⟩ := h
      have hblock := Block.acquire_whole hwhole hacquire
      have hlater := ih (A := A ++ [block₁]) (by simpa using hblock) hrest
      simpa using hlater
    · rename_i hacquire
      obtain ⟨-, rfl, rfl⟩ := h
      exact Block.acquire_whole hwhole hacquire

/-! ## Creation and growth -/

/-- Nothing is reserved in a range. -/
def Vacant (driver : Driver) (ptr bytes : ℕ) : Prop :=
  ∀ a, Driver.inRange ptr bytes a = true → driver.reserved a = false

theorem Whole.vacant_apart (h : Whole blocks driver fresh) (hvacant : Vacant driver ptr bytes)
    (hb : b ∈ blocks) (ha : b.Has a) : ¬ Driver.inRange ptr bytes a = true := by
  intro hrange
  have hreserved := (h.held b hb a ha).1
  rw [hvacant a hrange] at hreserved
  cases hreserved

theorem createBlock_whole {config : BufferConfig} {pool : BufferPool}
    (hwhole : Whole (A ++ B) env.driver env.fresh)
    (hvacant : Vacant env.driver env.address (pool.blockBytes config bytes))
    (h : pool.createBlock config bytes env = (.ok block, env')) :
    Whole (A ++ block :: B) env'.driver env'.fresh := by
  unfold BufferPool.createBlock at h
  simp only at h
  split at h
  · cases h
  · cases h
    have hgrown : Whole (A ++ B) ((env.driver.reserve env.address
        (pool.blockBytes config bytes)).map env.address (pool.blockBytes config bytes))
        (env.fresh + 2) := by
      refine (hwhole.mono (Nat.le_add_right _ 2)).of_driver ?_ ?_ fun _ _ _ _ hr => hr
      · intro b hb a _ hreserved
        simp [Driver.reserve, Driver.map, hreserved]
      · intro b hb a _ hmapped
        simp [Driver.reserve, Driver.map, hmapped]
    refine hgrown.insert rfl ?_ fun b hb a ha => hwhole.vacant_apart hvacant hb ha
    intro a ha
    have ha' : Driver.inRange env.address (pool.blockBytes config bytes) a = true := ha
    simp [Driver.reserve, Driver.map, ha']

variable {registrations : List Registration} {driver driver' : Driver}

theorem deregisterAll_whole {env : Env}
    (hwhole : Whole (A ++ { block with registrations := registrations } :: B) driver fresh)
    (h : deregisterAll env registrations driver = (none, driver')) :
    Whole (A ++ { block with registrations := [] } :: B) driver' fresh := by
  induction registrations generalizing driver with
  | nil =>
    obtain ⟨-, rfl⟩ := h
    exact hwhole
  | cons registration rest ih =>
    unfold deregisterAll at h
    split at h
    · cases h
    · exact ih (Whole.withdraw (X := []) hwhole) h

end

/-! ### Failures of a growth -/

theorem waitForBlock_iff (outcome : DriverCall → Option NcclError) (slices : List BufferSlice)
    (seen : List (Record ℕ)) :
    (waitForBlock outcome slices seen).1 = true ↔
      ∀ slice ∈ slices, slice.state = .pending → outcome (.eventSynchronize slice.id) = none := by
  induction slices generalizing seen with
  | nil => simp [waitForBlock]
  | cons slice rest ih =>
    rw [forall_mem_cons]
    unfold waitForBlock
    split
    · rename_i hpending
      split
      · rename_i hfailed
        simp only [Bool.false_eq_true, false_iff, not_and]
        intro hslice
        rw [hslice hpending] at hfailed
        cases hfailed
      · rename_i hwaited
        have hnone := Option.not_isSome_iff_eq_none.mp hwaited
        exact (ih _).trans ⟨fun h => ⟨fun _ => hnone, h⟩, fun h => h.2⟩
    · rename_i hpending
      exact (ih _).trans ⟨fun h => ⟨fun hstate => absurd hstate hpending, h⟩, fun h => h.2⟩

theorem chunksDone_le (env : Env) (call : ℕ → DriverCall) (first count : ℕ) :
    chunksDone env call first count ≤ count := by
  have hle := (takeWhile_sublist (fun i => (env.cudaCheck (call i)).isNone)
    (l := List.range' first count)).length_le
  rwa [length_range'] at hle

theorem chunksDone_eq_iff (env : Env) (call : ℕ → DriverCall) (first count : ℕ) :
    chunksDone env call first count = count ↔
      ∀ i, first ≤ i → i < first + count → env.cudaCheck (call i) = none := by
  unfold chunksDone
  have hlength : (List.range' first count).length = count := length_range'
  constructor
  · intro h i hle hlt
    have hwhole := ( takeWhile_prefix fun i => (env.cudaCheck (call i)).isNone).eq_of_length
      (h.trans hlength.symm)
    have hall := takeWhile_eq_self_iff.mp hwhole i (mem_range'_1.mpr ⟨hle, hlt⟩)
    exact Option.isNone_iff_eq_none.mp hall
  · intro h
    rw [takeWhile_eq_self_iff.mpr, hlength]
    intro i hi
    obtain ⟨hle, hlt⟩ := mem_range'_1.mp hi
    exact Option.isNone_iff_eq_none.mpr (h i hle hlt)

theorem deregisterAll_none_iff (env : Env) (registrations : List Registration) (driver : Driver) :
    (deregisterAll env registrations driver).1 = none ↔
      ∀ r ∈ registrations, env.ncclCheck (.commDeregister r.handle) = none := by
  induction registrations generalizing driver with
  | nil => simp [deregisterAll]
  | cons registration rest ih =>
    rw [forall_mem_cons]
    unfold deregisterAll
    split
    · rename_i hfailed
      simp [hfailed]
    · rename_i hnone
      exact (ih _).trans ⟨fun h => ⟨hnone, h⟩, fun h => h.2⟩

/-- A withdrawal of registrations that fails after the first of them. -/
def HalfWithdrawn (env : Env) (registrations : List Registration) : Prop :=
  ∃ first rest, registrations = first :: rest ∧
    env.ncclCheck (.commDeregister first.handle) = none ∧
    ∃ r ∈ rest, env.ncclCheck (.commDeregister r.handle) ≠ none

/-- A growth that unmaps the old range and does not come to its end. -/
structure HalfMapped (env : Env) (block : Block) (chunks : ℕ) : Prop where
  capacity_pos : 0 < block.capacity
  withdrawn : ∀ r ∈ block.registrations, env.ncclCheck (.commDeregister r.handle) = none
  unmapped : env.cudaCheck .memUnmap = none
  failed : (∃ i < chunks, env.cudaCheck (.memMap i) ≠ none) ∨
    env.cudaCheck .setAccess ≠ none ∨ env.cudaCheck .addressFree ≠ none

/-- A growth to a number of chunks that fails when it cannot be undone. -/
structure LateFailure (env : Env) (block : Block) (chunks : ℕ) : Prop where
  device : env.cudaCheck .growSetDevice = none
  waited : ∀ slice ∈ block.slices, slice.state = .pending →
    env.outcome (.eventSynchronize slice.id) = none
  reserved : env.cudaCheck .addressReserve = none
  created : ∀ i, block.handles ≤ i → i < chunks → env.cudaCheck (.memCreate i) = none
  late : HalfWithdrawn env block.registrations ∨ HalfMapped env block chunks

section

variable {blocks A B : List Block} {block block' : Block} {env env' : Env}
  {chunkBytes newCapacity : ℕ} {result : Option NcclError}

theorem GrowthReady.lateFailure {seen : List (Record ℕ)}
    (h : GrowthReady block chunkBytes newCapacity env slices seen handles result driver)
    (hlate : HalfWithdrawn env block.registrations ∨
      HalfMapped env block (newCapacity / chunkBytes)) :
    LateFailure env block (newCapacity / chunkBytes) where
  device := h.device
  waited := (waitForBlock_iff env.outcome block.slices env.seen).mp (by rw [h.wait])
  reserved := h.reserve
  created := by
    intro i hle hlt
    have hcreated := h.created
    have hdone := chunksDone_le env .memCreate block.handles
      (newCapacity / chunkBytes - block.handles)
    rw [h.handles_eq] at hcreated
    refine (chunksDone_eq_iff env .memCreate block.handles
      (newCapacity / chunkBytes - block.handles)).mp ?_ i hle ?_ <;> omega
  late := hlate

/-- What a block needs to be of use. -/
def Block.Usable (driver : Driver) (block : Block) : Prop :=
  (∀ a, block.Has a → driver.reserved a = true ∧ driver.mapped a = true) ∧
    ∀ r ∈ block.registrations, r ∈ driver.live ∧ r.ptr = block.ptr ∧ r.bytes = block.capacity

theorem Whole.usable (h : Whole blocks driver fresh) (hb : block ∈ blocks) :
    block.Usable driver := by
  refine ⟨h.held block hb, fun r hr => ?_⟩
  obtain ⟨hlive, hptr, hbytes, -⟩ := h.listed block hb r hr
  exact ⟨hlive, hptr, hbytes⟩

theorem Whole.reserve (h : Whole blocks driver fresh) :
    Whole blocks (driver.reserve ptr bytes) fresh := by
  refine h.of_driver ?_ (fun _ _ _ _ hmapped => hmapped) fun _ _ _ _ hr => hr
  intro b _ a _ hreserved
  simp [Driver.reserve, hreserved]

/-- The first registration cannot be withdrawn. -/
theorem deregisterAll_first {e : NcclError}
    (h : deregisterAll env registrations driver = (some e, driver'))
    (hhalf : ¬ HalfWithdrawn env registrations) : driver' = driver := by
  cases registrations with
  | nil => cases h
  | cons first rest =>
    unfold deregisterAll at h
    split at h
    · obtain ⟨-, rfl⟩ := h
      rfl
    · rename_i hfirst
      have hrest := (deregisterAll_none_iff env rest (driver.deregister first.handle)).not
      rw [h] at hrest
      have hfailed := hrest.mp nofun
      push Not at hfailed
      exact absurd ⟨first, rest, rfl, hfirst, hfailed⟩ hhalf

theorem remap_failed_iff (env : Env) (chunks : ℕ) :
    RemapFails env chunks ↔
      (∃ i < chunks, env.cudaCheck (.memMap i) ≠ none) ∨
        env.cudaCheck .setAccess ≠ none ∨ env.cudaCheck .addressFree ≠ none := by
  have hle := chunksDone_le env .memMap 0 chunks
  have hdone := chunksDone_eq_iff env .memMap 0 chunks
  simp only [zero_le, zero_add, forall_const] at hdone
  rw [RemapFails, Option.isSome_iff_ne_none, Option.isSome_iff_ne_none, lt_iff_le_and_ne, Ne, hdone]
  push Not
  exact or_congr_left ⟨fun h => h.2, fun h => ⟨hle, h⟩⟩

/-- A growth keeps the blocks whole unless it fails late. -/
theorem Growth.whole (hwhole : Whole (A ++ block :: B) env.driver env.fresh)
    (hvacant : Vacant env.driver env.address newCapacity) (hdvd : chunkBytes ∣ newCapacity)
    (hsafe : ¬ LateFailure env block (newCapacity / chunkBytes))
    (h : Growth block chunkBytes newCapacity env result block' env') :
    Whole (A ++ block' :: B) env'.driver env'.fresh := by
  have hreserve : Whole (A ++ block :: B) (env.driver.reserve env.address newCapacity)
      env.fresh := hwhole.reserve
  cases h with
  | setDevice _ => exact hwhole
  | wait _ | reserve _ _ | create _ _ _ => exact hwhole.setSlices
  | deregister hready =>
    have hhalf : ¬ HalfWithdrawn env block.registrations :=
      fun hlate => hsafe (hready.lateFailure (.inl hlate))
    obtain rfl := deregisterAll_first hready.deregister hhalf
    exact hreserve.setSlices
  | unmap hready _ => exact (deregisterAll_whole hreserve hready.deregister).setSlices
  | @remap slices seen handles driver hready hunmap hfailed =>
    have hcapacity : block.capacity = 0 := by
      by_contra hpos
      refine hsafe (hready.lateFailure (.inr ⟨pos_of_ne_zero hpos, ?_, hunmap, ?_⟩))
      · exact (deregisterAll_none_iff { env with seen := seen } block.registrations _).mp
          (by rw [hready.deregister])
      · exact (remap_failed_iff env _).mp hfailed
    -- a block of no size has nothing unmapped
    refine (deregisterAll_whole hreserve hready.deregister).setSlices.of_driver
      (fun _ _ _ _ hreserved => hreserved) ?_ fun _ _ _ _ hr => hr
    intro b _ a _ hmapped
    have hnone : Driver.inRange block.ptr block.capacity a = false := by
      simp [Driver.inRange, hcapacity]
    simp [Driver.map, Driver.unmap, hnone, hmapped]
  | @done slices seen handles driver hready hunmap hdone =>
    have hwithdrawn := deregisterAll_whole hreserve hready.deregister
    have hreserved : driver.reserved = (env.driver.reserve env.address newCapacity).reserved :=
      deregisterAll_reserved hready.deregister
    have hmapped : chunksDone env .memMap 0 (newCapacity / chunkBytes) * chunkBytes =
        newCapacity := by
      have hle := chunksDone_le env .memMap 0 (newCapacity / chunkBytes)
      rw [le_antisymm hle (not_lt.mp fun hlt => hdone (.inl hlt)), Nat.div_mul_cancel hdvd]
    rw [hmapped]
    have hothers : Whole (A ++ B) (((driver.unmap block.ptr block.capacity).map env.address
        newCapacity).release block.ptr block.capacity) (env.fresh + 1) := by
      refine (hwithdrawn.drop.mono (Nat.le_succ _)).of_driver ?_ ?_ fun _ _ _ _ hr => hr
      · intro b hb a ha hr
        simp [Driver.release, Driver.map, Driver.unmap, hr, hwithdrawn.not_inRange hb ha]
      · intro b hb a ha hm
        simp [Driver.release, Driver.map, Driver.unmap, hm, hwithdrawn.not_inRange hb ha]
    refine hothers.insert rfl ?_ fun b hb a ha => hwhole.drop.vacant_apart hvacant hb ha
    intro a ha
    have hnew : Driver.inRange env.address newCapacity a = true := ha
    have hold : Driver.inRange block.ptr block.capacity a = false := by
      rw [← Bool.not_eq_true]
      exact fun hblock => hwhole.vacant_apart hvacant mem_append_cons_self hblock hnew
    simp [Driver.release, Driver.map, Driver.unmap, hreserved, Driver.reserve, hnew, hold]

theorem deregisterAll_live (h : deregisterAll env registrations driver = (result, driver')) :
    driver'.live ⊆ driver.live := by
  induction registrations generalizing driver with
  | nil =>
    obtain ⟨-, rfl⟩ := h
    exact List.Subset.refl _
  | cons registration rest ih =>
    unfold deregisterAll at h
    split at h
    · obtain ⟨-, rfl⟩ := h
      exact List.Subset.refl _
    · exact List.Subset.trans (ih h) (filter_subset_self _)

/-- What is withdrawn is listed no more. -/
theorem HalfWithdrawn.not_live (hhalf : HalfWithdrawn env registrations)
    (h : deregisterAll env registrations driver = (result, driver')) :
    result ≠ none ∧ ∃ r ∈ registrations, r ∉ driver'.live := by
  obtain ⟨first, rest, rfl, hfirst, r, hr, hfailed⟩ := hhalf
  refine ⟨?_, first, mem_cons_self, ?_⟩
  · rintro rfl
    have hnone := (deregisterAll_none_iff env (first :: rest) driver).mp (by rw [h])
    exact hfailed (hnone r (mem_cons_of_mem _ hr))
  · unfold deregisterAll at h
    rw [hfirst] at h
    intro hlive
    have hmem := deregisterAll_live h hlive
    simp [Driver.deregister] at hmem

/-- A growth that fails late leaves its block unusable. -/
theorem Growth.unusable (hwhole : Whole (A ++ block :: B) env.driver env.fresh)
    (hvacant : Vacant env.driver env.address newCapacity)
    (hlate : LateFailure env block (newCapacity / chunkBytes))
    (h : Growth block chunkBytes newCapacity env result block' env') :
    result ≠ none ∧ ¬ block'.Usable env'.driver := by
  have hwaited := (waitForBlock_iff env.outcome block.slices env.seen).mpr hlate.waited
  have hnot_live : ∀ {seen driver driver' failed}, HalfWithdrawn env block.registrations →
      deregisterAll { env with seen := seen } block.registrations driver = (failed, driver') →
      failed ≠ none ∧ ∃ r ∈ block.registrations, r ∉ driver'.live :=
    fun hhalf h => HalfWithdrawn.not_live (by exact hhalf) h
  cases h with
  | setDevice hdevice => exact absurd (hdevice.symm.trans hlate.device) nofun
  | wait hwait =>
    rw [hwait] at hwaited
    cases hwaited
  | reserve _ hreserve => exact absurd (hreserve.symm.trans hlate.reserved) nofun
  | create _ hhandles hlt =>
    have hdone := (chunksDone_eq_iff env .memCreate block.handles
      (newCapacity / chunkBytes - block.handles)).mpr
      fun i hle hi => hlate.created i hle (by omega)
    omega
  | @deregister slices seen handles driver e hready =>
    refine ⟨nofun, fun husable => ?_⟩
    rcases hlate.late with hhalf | hmapped
    · obtain ⟨-, r, hr, hnot⟩ := hnot_live hhalf hready.deregister
      exact hnot (husable.2 r hr).1
    · have hnone := (deregisterAll_none_iff { env with seen := seen } block.registrations
        (env.driver.reserve env.address newCapacity)).mpr hmapped.withdrawn
      rw [hready.deregister] at hnone
      cases hnone
  | @unmap slices seen handles driver e hready hunmap =>
    rcases hlate.late with hhalf | hmapped
    · exact absurd rfl (hnot_live hhalf hready.deregister).1
    · exact absurd (hunmap.symm.trans hmapped.unmapped) nofun
  | @remap slices seen handles driver hready hunmap hfailed =>
    refine ⟨nofun, fun husable => ?_⟩
    rcases hlate.late with hhalf | hmapped
    · exact absurd rfl (hnot_live hhalf hready.deregister).1
    · have hptr : block.Has block.ptr := by
        have hpos := hmapped.capacity_pos
        simp [Block.Has, Driver.inRange, hpos]
      have hnew : Driver.inRange env.address
          (chunksDone env .memMap 0 (newCapacity / chunkBytes) * chunkBytes) block.ptr = false := by
        have hle := Nat.mul_le_mul_right chunkBytes
          (chunksDone_le env .memMap 0 (newCapacity / chunkBytes))
        have hcapacity := Nat.div_mul_le_self newCapacity chunkBytes
        have hapart := hwhole.vacant_apart hvacant mem_append_cons_self hptr
        simp only [Driver.inRange, decide_eq_true_eq, decide_eq_false_iff_not] at hapart ⊢
        omega
      have hlost := (husable.1 block.ptr hptr).2
      rw [Block.Has] at hptr
      simp [Driver.map, Driver.unmap, hptr, hnew] at hlost
  | @done slices seen handles driver hready hunmap hdone =>
    rcases hlate.late with hhalf | hmapped
    · exact absurd rfl (hnot_live hhalf hready.deregister).1
    · exact absurd ((remap_failed_iff env _).mpr hmapped.failed) hdone

end

end Coccl
