import Coccl.Memory.Operations

/-!
# The buffer manager refines the abstract allocator

Every step of the manager keeps `Managed`, and `Fitting` while sizes fit.
-/

namespace Coccl

open Leasing Transitions BufferPool Block List Moves

namespace BufferMemory

variable {config : BufferConfig} {memory memory' : BufferMemory}

theorem managed_initial : initial.Managed where
  sound := ⟨nofun, nodup_nil, nofun, nodup_nil⟩
  owners := nodup_nil
  capacity_le := nofun

theorem fitting_initial : initial.Fitting where
  sized := ⟨nofun, .nil, nofun⟩
  chunks := nofun
  reserved := nofun

/-! ## Pools with the same owners and sizes -/

theorem owners_of_header (hheader : memory'.pools.map header = memory.pools.map header)
    (howners : (memory.pools.map ownerComm).Nodup) :
    (memory'.pools.map ownerComm).Nodup := by
  have howners' := congrArg (List.map (·.1)) hheader
  simp only [map_map] at howners'
  exact howners'.symm ▸ howners

theorem chunks_of_header (hheader : memory'.pools.map header = memory.pools.map header)
    (hchunks : ∀ pool ∈ memory.pools, pool.backend = .vmm → kBufferAlignment ∣ pool.chunkBytes) :
    ∀ pool ∈ memory'.pools, pool.backend = .vmm → kBufferAlignment ∣ pool.chunkBytes := by
  intro pool' hpool' hbackend
  have hmem : pool'.header ∈ memory.pools.map header :=
    hheader ▸ mem_map_of_mem hpool'
  obtain ⟨pool, hpool, heq⟩ := mem_map.mp hmem
  have hbackend' : pool.backend = pool'.backend := congrArg (·.2.1) heq
  have hchunk : pool.chunkBytes = pool'.chunkBytes := congrArg (·.2.2) heq
  rw [← hchunk]
  exact hchunks pool hpool (hbackend'.trans hbackend)

/-! ## Acquisition -/

variable {result : Result BufferHandle} {request : BufferRequest}

theorem acquire_managed (hm : memory.Managed)
    (havailable : memory.addressAvailable config request = true)
    (h : Answered config memory request result memory') : memory'.Managed := by
  have hsound := sound (@acquire_moves _ _ True False _ _ nofun havailable _ h) hm.sound
  cases h with
  | refused _ => exact hm
  | @pool P Q pool blocks env' result hpool hpools hacquired =>
    refine ⟨hsound, owners_of_header (by simp [hpools, header]) hm.owners, ?_⟩
    have hold := hm.capacity_le
    simp only [BufferMemory.blocks, mem_flatMap] at hold ⊢
    rintro block ⟨p, hp, hblock⟩
    rcases mem_middle.mp hp with rfl | hp
    · exact hacquired.capacity_le (alignUpTo_le_sizeMax _ _)
        (fun b hb => hold b ⟨pool, mem_of_split hpools, hb⟩) block hblock
    · exact hold block ⟨p, hpools ▸ mem_middle.mpr (.inr hp), hblock⟩

theorem acquire_fitting (hm : memory.Fitting) (hfits : memory.SizesFit (.acquire request))
    (havailable : memory.addressAvailable config request = true)
    (h : Answered config memory request result memory') : memory'.Fitting := by
  have hsized := sized (@acquire_moves _ _ True True _ _ (fun _ => ⟨hm, hfits⟩) havailable _ h)
    trivial hm.sized
  cases h with
  | refused _ => exact hm
  | @pool P Q pool blocks env' result hpool hpools hacquired =>
    have hrequest : Requestable config pool request.alignedBytes request.bytes :=
      requestable hm hfits hpool
    have hclear := clear_of_available hm havailable hpool hrequest.block_pos
    have hholds := hm.reserved
    have hstate : Sized kBufferAlignment (viewWith memory.toState (memory.blocks.map region)
      (memory.env request.answers request.outcome request.address)) :=
        ⟨hm.sized.cells, hm.sized.apart, hm.sized.requested⟩
    rw [regions_split hpools] at hclear hholds hstate
    refine ⟨hsized, chunks_of_header (by simp [hpools, header]) hm.chunks, ?_⟩
    rw [@regions_split _ P Q { pool with blocks := blocks } rfl]
    exact acquire_holds hrequest hclear hstate hholds hacquired

/-! ## Registration and release -/

theorem Unmoved.managed (h : Unmoved memory memory') (hm : memory.Managed) : memory'.Managed := by
  refine ⟨sound (@Unmoved.moves memory True False memory' h) hm.sound,
    owners_of_header h.header hm.owners, fun block hblock => ?_⟩
  have hmem : block.region ∈ memory.blocks.map region :=
    h.regions ▸ mem_map_of_mem hblock
  obtain ⟨b, hb, heq⟩ := mem_map.mp hmem
  have hcapacity : b.capacity = block.capacity := congrArg Region.size heq
  exact hcapacity ▸ hm.capacity_le b hb

theorem Unmoved.fitting (h : Unmoved memory memory') (hm : memory.Fitting) : memory'.Fitting := by
  refine ⟨sized (@Unmoved.moves memory True True memory' h) trivial hm.sized,
    chunks_of_header h.header hm.chunks, ?_⟩
  rw [h.regions]
  exact fun g hg => (hm.reserved g hg).mono fun a _ _ ha => by rwa [h.reserved]

/-- A change of slices leaves all else of the blocks. -/
theorem mapSlice_view {β : Type} {view : Block → β}
    (hview : ∀ block slices, view { block with slices := slices } = view block) (block slice : ℕ)
    (f : BufferSlice → BufferSlice) :
    (memory.mapSlice block slice f).blocks.map view = memory.blocks.map view := by
  rw [mapSlice, mapBlock_blocks, map_map]
  refine map_congr_left fun b _ => ?_
  simp only [Function.comp]
  split
  · exact hview b _
  · rfl

/-- A release changes at most slices, handles and what was used. -/
theorem release_form (handle : BufferHandle) (stream : ℕ)
    (outcome : DriverCall → Option NcclError) :
    (memory.release handle stream outcome).2 = memory ∨
      ∃ f leases uses clock, (∀ slice, (f slice).id = slice.id ∧
          (f slice).offset = slice.offset ∧ (f slice).bytes = slice.bytes) ∧
        (memory.release handle stream outcome).2 =
        { memory.mapSlice handle.block handle.slice f with
          leases := leases, uses := uses, clock := clock } := by
  unfold release
  split
  · exact .inl rfl
  · simp only
    split
    · exact .inl rfl
    · split
      · exact .inl rfl
      · split
        · refine .inr ⟨_, _, _, _, fun slice => ?_, rfl⟩
          have hcell := cell_createEvent slice
          exact ⟨congrArg Cell.id hcell, congrArg Cell.offset hcell, congrArg Cell.size hcell⟩
        · exact .inr ⟨(·.release _), _, _, _, fun _ => ⟨rfl, rfl, rfl⟩, rfl⟩

theorem release_view {β : Type} {view : Block → β}
    (hview : ∀ block slices, view { block with slices := slices } = view block)
    (handle : BufferHandle) (stream : ℕ) (outcome : DriverCall → Option NcclError) :
    let after := (memory.release handle stream outcome).2
    after.blocks.map view = memory.blocks.map view ∧
      after.pools.map header = memory.pools.map header ∧ after.driver = memory.driver ∧
      after.fresh = memory.fresh := by
  rcases @release_form memory handle stream outcome with hsame | ⟨f, leases, uses, clock, -, hform⟩
  · simp only [hsame, and_self]
  · simp only [hform]
    exact ⟨mapSlice_view hview handle.block handle.slice f, mapBlock_header _ _, rfl, rfl⟩

variable {outcome : DriverCall → Option NcclError} {handle : BufferHandle} {stream : ℕ}

theorem release_managed (hm : memory.Managed)
    (hout : memory.leases.any (·.handle = handle) = true) :
    (memory.release handle stream outcome).2.Managed := by
  have hsound := sound (@release_moves memory False outcome handle stream hm hout) hm.sound
  obtain ⟨hplace, hheader, -⟩ := @release_view memory _ place (fun _ _ => rfl) handle stream outcome
  exact ⟨hsound, owners_of_header hheader hm.owners, capacity_le_of_place hm.capacity_le hplace⟩

theorem release_fitting (hm : memory.Managed) (hf : memory.Fitting)
    (hout : memory.leases.any (·.handle = handle) = true) :
    (memory.release handle stream outcome).2.Fitting := by
  have hsized := sized (@release_moves memory True outcome handle stream hm hout) trivial hf.sized
  obtain ⟨hplace, hheader, hdriver, -⟩ :=
    @release_view memory _ place (fun _ _ => rfl) handle stream outcome
  refine ⟨hsized, chunks_of_header hheader hf.chunks, ?_⟩
  have hholds := @Driver.Holds.of_place memory.driver memory.blocks
    (memory.release handle stream outcome).2.blocks [] []
  simp only [nil_append, append_nil] at hholds
  exact hdriver ▸ hholds hf.reserved hplace

/-! ## Communicators -/

variable {comm : ℕ} {backend : BufferBackend} {granularity : ℕ}

theorem commInit_managed (hm : memory.Managed) :
    (memory.commInit config comm backend granularity).Managed := by
  have hstate := @commInit_blocks config memory comm backend granularity
  unfold commInit at hstate ⊢
  split at hstate
  · exact hm
  · rename_i hnone
    refine ⟨hstate ▸ hm.sound, ?_, ?_⟩
    · rw [map_append, nodup_append]
      refine ⟨hm.owners, nodup_singleton _, ?_⟩
      simp only [map_cons, map_nil, mem_singleton, forall_eq]
      rintro _ howner rfl
      obtain ⟨pool, hpool, rfl⟩ := mem_map.mp howner
      have := find?_eq_none.mp hnone pool hpool
      simp at this
    · simpa [BufferMemory.blocks] using hm.capacity_le

theorem commInit_fitting (hm : memory.Fitting)
    (hfits : memory.SizesFit (.commInit comm backend granularity)) :
    (memory.commInit config comm backend granularity).Fitting := by
  have hstate := @commInit_blocks config memory comm backend granularity
  unfold commInit at hstate ⊢
  split at hstate
  · exact hm
  · refine ⟨hstate ▸ hm.sized, ?_, ?_⟩
    · intro pool hpool hbackend
      rcases mem_append.mp hpool with hpool | hpool
      · exact hm.chunks pool hpool hbackend
      · obtain rfl := mem_singleton.mp hpool
        exact (hfits hbackend).trans (dvd_alignUpTo _ _)
    · have hregions : _ = memory.blocks.map region := congrArg State.regions hstate
      exact fun g hg => hm.reserved g (hregions ▸ hg)

theorem destroyPool_managed {pool : BufferPool} (hm : memory.Managed)
    (hpool : memory.findPool comm = some pool) : (memory.destroyPool pool).Managed := by
  refine ⟨sound (@destroyPool_moves memory True False hm comm pool hpool) hm.sound,
    hm.owners.sublist (List.Sublist.map _ (filter_sublist)), fun block hblock => ?_⟩
  obtain ⟨p, hp, hblock⟩ := mem_flatMap.mp hblock
  exact hm.capacity_le block (mem_flatMap.mpr ⟨p, mem_of_mem_filter hp, hblock⟩)

/-- Releasing blocks gives back their addresses and no others. -/
theorem releaseBlocks_reserved (blocks : List Block) (driver : Driver) {a : ℕ}
    (ha : driver.reserved a = true)
    (hapart : ∀ block ∈ blocks, ¬ Driver.inRange block.ptr block.capacity a) :
    (blocks.foldl releaseBlock driver).reserved a = true := by
  induction blocks generalizing driver with
  | nil => exact ha
  | cons block rest ih =>
    obtain ⟨hblock, hrest⟩ := forall_mem_cons.mp hapart
    refine ih _ ?_ hrest
    have hderegister : ∀ (registrations : List Registration) (d : Driver),
        (registrations.foldl (fun d r => d.deregister r.handle) d).reserved = d.reserved := by
      intro registrations
      induction registrations with
      | nil => exact fun _ => rfl
      | cons registration rest ih => exact fun d => (ih _).trans rfl
    simp [releaseBlock, Driver.release, Driver.unmap, hderegister, ha, hblock]

theorem destroyPool_fitting {pool : BufferPool} (hm : memory.Managed) (hf : memory.Fitting)
    (hpool : memory.findPool comm = some pool) : (memory.destroyPool pool).Fitting := by
  obtain ⟨P, Q, hpools, -⟩ := findPool_split hpool
  refine ⟨sized (@destroyPool_moves memory True True hm comm pool hpool) trivial hf.sized,
    fun p hp => hf.chunks p (mem_of_mem_filter hp), fun g hg => ?_⟩
  rw [destroyPool_regions hm hpools] at hg
  have hregions := regions_split hpools
  have hmem : g ∈ memory.blocks.map region := by
    rw [hregions]
    rcases mem_append.mp hg with hg | hg
    · exact mem_append_left _ hg
    · exact mem_append_right _ (mem_append_right _ hg)
  refine (hf.reserved g hmem).mono fun a hle hlt ha => releaseBlocks_reserved _ _ ha ?_
  intro block hblock
  have hapart : block.region.Apart g := by
    have hpairwise : (memory.blocks.map region).Pairwise Region.Apart := hf.sized.apart
    rw [hregions] at hpairwise
    obtain ⟨-, hrest, hA⟩ := pairwise_append.mp hpairwise
    obtain ⟨-, -, hB⟩ := pairwise_append.mp hrest
    have hblock' := mem_map_of_mem (f := region) hblock
    rcases mem_append.mp hg with hg | hg
    · exact (hA g hg _ (mem_append_left _ hblock')).symm
    · exact hB _ hblock' g hg
  simp only [Region.Apart, region] at hapart
  simp only [Driver.inRange, decide_eq_true_eq]
  omega

/-- A pool's handles of one communicator are withdrawn, up to one that fails. -/
theorem deregister_unmoved (env : Env) (comm : ℕ) : Unmoved memory { memory with
        pools := (eachUntilError (deregisterPool env comm) memory.pools memory.driver).2.1
        driver := (eachUntilError (deregisterPool env comm) memory.pools memory.driver).2.2 } where
  header := by
    have hheader := congrArg (List.map (·.1))
      (eachUntilError_map (deregisterPool_shape env comm) memory.pools memory.driver)
    simp only [map_map] at hheader
    exact hheader
  regions := by
    rw [regions_eq_shape, regions_eq_shape, eachUntilError_map (deregisterPool_shape env comm)]
  leases := rfl
  uses := rfl
  clock := rfl
  seen := rfl
  fresh := le_rfl
  reserved := eachUntilError_reserved (deregisterPool_reserved env comm) _ _

/-! ## Steps -/

/-- What a step does. Destroying a communicator withdraws registrations, and then the pool goes. -/
inductive Stepped (config : BufferConfig) (memory : BufferMemory) :
    BufferAction → BufferMemory → Prop where
  | commInit {comm : ℕ} {backend : BufferBackend} {granularity : ℕ} :
      Stepped config memory (.commInit comm backend granularity)
        (memory.commInit config comm backend granularity)
  | acquire {request : BufferRequest} {result : Result BufferHandle} {memory' : BufferMemory}
      (havailable : memory.addressAvailable config request = true)
      (h : Answered config memory request result memory') :
      Stepped config memory (.acquire request) memory'
  | unmoved {action : BufferAction} {memory' : BufferMemory} (h : Unmoved memory memory') :
      Stepped config memory action memory'
  | release {handle : BufferHandle} {stream : ℕ} {outcome : DriverCall → Option NcclError}
      (hout : memory.leases.any (·.handle = handle) = true) :
      Stepped config memory (.release handle stream outcome)
        (memory.release handle stream outcome).2
  | destroyPool {action : BufferAction} {comm : ℕ} {between : BufferMemory} {pool : BufferPool}
      (h : Unmoved memory between) (hpool : between.findPool comm = some pool) :
      Stepped config memory action (between.destroyPool pool)

theorem commDestroy_stepped (comm : ℕ) (outcome : DriverCall → Option NcclError) :
    Stepped config memory (.commDestroy comm outcome) (memory.commDestroy comm outcome).2 := by
  have hunmoved := @deregister_unmoved memory (memory.env [] outcome 0) comm
  unfold commDestroy
  rcases hpools : eachUntilError (deregisterPool (memory.env [] outcome 0) comm) memory.pools
    memory.driver with ⟨_ | e, pools, driver⟩ <;> rw [hpools] at hunmoved
  · simp only [hpools]
    split
    · exact .unmoved hunmoved
    · rename_i pool hpool
      split
      · exact .unmoved hunmoved
      · exact .destroyPool hunmoved hpool
  · simp only [hpools]
    exact .unmoved hunmoved

section

variable {action : BufferAction} (hm : memory.Managed)

include hm

theorem step_stepped (h : memory.step config action = some memory') :
    Stepped config memory action memory' := by
  cases action with
  | commInit comm backend granularity =>
    obtain rfl := Option.some.inj h
    exact .commInit
  | acquire request =>
    obtain ⟨havailable, ⟨⟩⟩ := Option.ite_none_right_eq_some.mp h
    exact .acquire havailable (acquire_answered hm.owners request)
  | register handle comm outcome =>
    obtain ⟨-, ⟨⟩⟩ := Option.ite_none_right_eq_some.mp h
    exact .unmoved (register_unmoved hm handle comm outcome)
  | release handle stream outcome =>
    obtain ⟨hout, ⟨⟩⟩ := Option.ite_none_right_eq_some.mp h
    exact .release hout
  | commDestroy comm outcome =>
    obtain rfl := Option.some.inj h
    exact commDestroy_stepped comm outcome

theorem step_moves {fits : Prop} (hfits : fits → memory.Fitting ∧ memory.SizesFit action)
    (h : memory.step config action = some memory') :
    Moves kBufferAlignment (memory.OwnStream action) fits memory.toState memory'.toState := by
  cases step_stepped hm h with
  | commInit => rw [commInit_blocks]
  | acquire havailable h => exact acquire_moves hfits havailable h
  | unmoved h => exact h.moves
  | release hout => exact release_moves hm hout
  | destroyPool hu hpool => exact hu.moves.trans (destroyPool_moves (hu.managed hm) hpool)

theorem step_managed (h : memory.step config action = some memory') : memory'.Managed := by
  cases step_stepped hm h with
  | commInit => exact commInit_managed hm
  | acquire havailable h => exact acquire_managed hm havailable h
  | unmoved h => exact h.managed hm
  | release hout => exact release_managed hm hout
  | destroyPool hu hpool => exact destroyPool_managed (hu.managed hm) hpool

theorem step_fitting (hf : memory.Fitting) (hfits : memory.SizesFit action)
    (h : memory.step config action = some memory') : memory'.Fitting := by
  cases step_stepped hm h with
  | commInit => exact commInit_fitting hf hfits
  | acquire havailable h => exact acquire_fitting hf hfits havailable h
  | unmoved h => exact h.fitting hf
  | release hout => exact release_fitting hm hf hout
  | destroyPool hu hpool => exact destroyPool_fitting (hu.managed hm) (hu.fitting hf) hpool

end

variable {C : BufferMemory → BufferAction → Prop}

theorem reachable_managed (h : Reachable (step config) C initial memory) : memory.Managed :=
  h.invariant managed_initial fun _ _ _ hm _ => step_managed hm

/-- States reached while no size wraps. -/
theorem reachable_fitting (hC : ∀ memory action, C memory action → memory.SizesFit action)
    (h : Reachable (step config) C initial memory) : memory.Managed ∧ memory.Fitting :=
  Reachable.invariant (I := fun m => m.Managed ∧ m.Fitting) ⟨managed_initial, fitting_initial⟩
    (fun _ _ _ hm hfits hstep =>
      ⟨step_managed hm.1 hstep, step_fitting hm.1 hm.2 (hC _ _ hfits) hstep⟩) h

end BufferMemory

end Coccl
