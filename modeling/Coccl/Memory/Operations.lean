import Coccl.Memory.Acquisition

/-!
# Operations of the buffer manager as moves

Every step of the buffer manager is a sequence of moves of the abstract allocator, whatever the
answers to its calls, as long as the sizes it rounds do not wrap (`BufferMemory.step_moves`).
-/

namespace Coccl

open Leasing BufferPool Block List BufferSlice

def BufferLease.lease (lease : BufferLease) : Lease ℕ :=
  lease.handle.lease lease.requested lease.stream

namespace BufferMemory

/-- The abstract state. -/
def toState (memory : BufferMemory) : State ℕ where
  regions := memory.blocks.map region
  leases := memory.leases.map BufferLease.lease
  uses := memory.uses
  seen := memory.seen
  fresh := memory.fresh
  clock := memory.clock

/-- Sizes that are rounded up do not wrap, and the granularity of VMM pools is a multiple of the
buffers' alignment. -/
def SizesFit (memory : BufferMemory) : BufferAction → Prop
  | .commInit _ backend granularity => backend = .vmm → kBufferAlignment ∣ granularity
  | .acquire request =>
    RoundingFits (if request.bytes = 0 then 1 else request.bytes) kBufferAlignment ∧
      ∀ pool, memory.findPool request.ownerComm = some pool → pool.backend = .vmm →
        RoundingFits request.alignedBytes pool.chunkBytes
  | _ => True

/-- A handle is given back on the stream it was acquired for. -/
def OwnStream (memory : BufferMemory) : BufferAction → Prop
  | .release handle stream _ => ∀ lease ∈ memory.leases, lease.handle = handle →
      stream = lease.stream
  | _ => True

/-- What the manager always keeps. -/
structure Managed (memory : BufferMemory) : Prop where
  sound : Sound kBufferAlignment memory.toState
  owners : (memory.pools.map ownerComm).Nodup
  capacity_le : ∀ block ∈ memory.blocks, block.capacity ≤ sizeMax

/-- What it keeps as long as sizes fit. -/
structure Fitting (memory : BufferMemory) : Prop where
  sized : Sized kBufferAlignment memory.toState
  chunks : ∀ pool ∈ memory.pools, pool.backend = .vmm → kBufferAlignment ∣ pool.chunkBytes
  reserved : memory.driver.Holds (memory.blocks.map region)

end BufferMemory

def BufferPool.header (pool : BufferPool) : ℕ × BufferBackend × ℕ :=
  (pool.ownerComm, pool.backend, pool.chunkBytes)

/-! ## Lists with distinct keys -/

section

variable {α κ : Type} {key : α → κ} {A B : List α} {x : α}

theorem key_ne (h : ((A ++ x :: B).map key).Nodup) {y : α} (hy : y ∈ A ++ B) : key y ≠ key x := by
  rw [map_append, map_cons, nodup_middle, nodup_cons, ← map_append] at h
  exact fun heq => h.1 (heq ▸ mem_map_of_mem hy)

variable [DecidableEq κ]

/-- A change at one key is a change of one member. -/
theorem map_at_key (h : ((A ++ x :: B).map key).Nodup) (f : α → α) :
    (A ++ x :: B).map (fun y => if key y = key x then f y else y) = A ++ f x :: B := by
  have hsame : ∀ l : List α, (∀ y ∈ l, y ∈ A ++ B) →
      l.map (fun y => if key y = key x then f y else y) = l := by
    intro l hl
    exact (map_congr_left fun y hy => if_neg (key_ne h (hl y hy))).trans (map_id' l)
  rw [map_append, map_cons, hsame A fun y => mem_append_left B,
    hsame B fun y => mem_append_right A, if_pos rfl]

theorem filter_key_ne (h : ((A ++ x :: B).map key).Nodup) :
    (A ++ x :: B).filter (fun y => decide (key y ≠ key x)) = A ++ B := by
  have hsame : ∀ l : List α, (∀ y ∈ l, y ∈ A ++ B) →
      l.filter (fun y => decide (key y ≠ key x)) = l := by
    intro l hl
    exact filter_eq_self.mpr fun y hy => decide_eq_true (key_ne h (hl y hy))
  rw [filter_append, filter_cons, hsame A fun y => mem_append_left B,
    hsame B fun y => mem_append_right A, if_neg (by simp)]

end

/-! ## Acquisition -/

namespace BufferMemory

variable {config : BufferConfig} {memory : BufferMemory} {own fits : Prop} {pool : BufferPool}

theorem findPool_split {comm : ℕ} (h : memory.findPool comm = some pool) :
    ∃ P Q, memory.pools = P ++ pool :: Q ∧ pool.ownerComm = comm := by
  obtain ⟨hcomm, P, Q, hpools, -⟩ := find?_eq_some_iff_append.mp h
  exact ⟨P, Q, hpools, of_decide_eq_true hcomm⟩

theorem regions_split {P Q : List BufferPool} {pool : BufferPool}
    (h : memory.pools = P ++ pool :: Q) :
    memory.blocks.map region = (P.flatMap (·.blocks)).map region ++
      (pool.blocks.map region ++ (Q.flatMap (·.blocks)).map region) := by
  simp [blocks, h]

variable {request : BufferRequest}

/-- The size a block for a request gets. -/
theorem requestable (hm : memory.Fitting) (hfits : memory.SizesFit (.acquire request))
    (hpool : memory.findPool request.ownerComm = some pool) :
    Requestable config pool request.alignedBytes request.bytes := by
  obtain ⟨hbytes, hchunks⟩ := hfits
  have hle : (if request.bytes = 0 then 1 else request.bytes) ≤ request.alignedBytes :=
    le_alignUpTo hbytes
  have hdvd : kBufferAlignment ∣ request.alignedBytes := dvd_alignUpTo _ _
  have hblock : kBufferAlignment ∣ pool.blockBytes config request.alignedBytes ∧
      request.alignedBytes ≤ pool.blockBytes config request.alignedBytes := by
    obtain ⟨P, Q, hpools, -⟩ := findPool_split hpool
    unfold blockBytes
    split
    · rename_i hbackend
      exact ⟨(hm.chunks pool (mem_of_split hpools) hbackend).trans (dvd_alignUpTo _ _),
        le_alignUpTo (hchunks pool hpool hbackend)⟩
    · split
      · rename_i hlt
        have hlegacy := config.legacyBlockBytes_lt
        exact ⟨dvd_alignUpTo _ _, hlt.le.trans (le_alignUpTo
          ⟨by decide, by unfold kBufferAlignment sizeMax; omega⟩)⟩
      · exact ⟨hdvd, le_rfl⟩
  refine ⟨hdvd, ?_, ?_, hblock.1, hblock.2⟩
  · split at hle <;> omega
  · split at hle <;> omega

/-- The addresses a reservation is given meet no block. -/
theorem clear_of_available (hm : memory.Fitting)
    (havailable : memory.addressAvailable config request = true)
    (hpool : memory.findPool request.ownerComm = some pool)
    (hblock : 0 < pool.blockBytes config request.alignedBytes) :
    Clear request.address (pool.blockBytes config request.alignedBytes)
      (memory.blocks.map region) := by
  simp only [addressAvailable, hpool, all_eq_true, mem_range, Bool.not_eq_true'] at havailable
  intro g hg
  obtain ⟨hpos, hreserved⟩ := hm.reserved g hg
  by_contra hmeet
  -- the larger of the two first addresses is in both ranges
  have hfree := havailable (max request.address g.base - request.address) (by omega)
  rw [Nat.add_sub_cancel' (le_max_left _ _)] at hfree
  have htaken := hreserved (max request.address g.base) (le_max_right _ _) (by omega)
  rw [hfree] at htaken
  cases htaken

theorem setPool_pools {P Q : List BufferPool} {pool pool' : BufferPool}
    (howners : (memory.pools.map ownerComm).Nodup)
    (hpools : memory.pools = P ++ pool :: Q) (howner : pool'.ownerComm = pool.ownerComm) :
    (memory.setPool pool').pools = P ++ pool' :: Q := by
  rw [hpools] at howners
  simp only [setPool, hpools, howner]
  exact map_at_key howners fun _ => pool'

/-- The handles that are out after a request was answered. -/
def leasesAfter (leases : List BufferLease) (request : BufferRequest) :
    Result BufferHandle → List BufferLease
  | .ok handle => ⟨handle, request.bytes, request.stream⟩ :: leases
  | .error _ => leases

/-- What the manager does for a request: it has no such pool or device, or its pool answers. -/
inductive Answered (config : BufferConfig) (memory : BufferMemory) (request : BufferRequest) :
    Result BufferHandle → BufferMemory → Prop where
  | refused {e : NcclError} (he : e ≠ .inProgress) :
      Answered config memory request (.error e) memory
  | pool {P Q : List BufferPool} {pool : BufferPool} {blocks : List Block} {env' : Env}
      {result : Result BufferHandle} (hpool : memory.findPool request.ownerComm = some pool)
      (hpools : memory.pools = P ++ pool :: Q)
      (hacquired : Acquired config pool request.alignedBytes request.registeredComm request.stream
        (memory.env request.answers request.outcome request.address) result
        { pool with blocks := blocks } env') :
      Answered config memory request result
        { memory with
          pools := P ++ { pool with blocks := blocks } :: Q
          leases := leasesAfter memory.leases request result
          fresh := env'.fresh
          seen := env'.seen
          driver := env'.driver }

theorem acquire_answered (howners : (memory.pools.map ownerComm).Nodup) (request : BufferRequest) :
    Answered config memory request (memory.acquire config request).1
      (memory.acquire config request).2 := by
  cases hpool : memory.findPool request.ownerComm with
  | none =>
    simp only [acquire, hpool]
    exact .refused (by decide)
  | some pool =>
    cases hdevice : (memory.env request.answers request.outcome request.address).cudaCheck
      .setDevice with
    | some e =>
      simp only [acquire, hpool, hdevice]
      exact .refused (Env.cudaCheck_ne hdevice)
    | none =>
      obtain ⟨P, Q, hpools, -⟩ := findPool_split hpool
      rcases hacquire : pool.acquire config request.alignedBytes request.registeredComm
        request.stream (memory.env request.answers request.outcome request.address) with
        ⟨result, pool', env'⟩
      have hacquired := acquired hacquire
      obtain ⟨blocks, rfl⟩ := hacquired.blocks
      have hset : memory.setPool { pool with blocks := blocks } =
          { memory with pools := P ++ { pool with blocks := blocks } :: Q } := by
        have hpools' := setPool_pools howners hpools (by rfl :
          ({ pool with blocks := blocks } : BufferPool).ownerComm = pool.ownerComm)
        rw [← hpools']
        rfl
      have hanswer := Answered.pool hpool hpools hacquired
      simp only [acquire, hpool, hdevice, hacquire]
      cases result <;> simp only [hset] <;> exact hanswer

variable {memory' : BufferMemory}

theorem acquire_moves (hfits : fits → memory.Fitting ∧ memory.SizesFit (.acquire request))
    (havailable : memory.addressAvailable config request = true) {result : Result BufferHandle}
    (h : Answered config memory request result memory') :
    Moves kBufferAlignment own fits memory.toState memory'.toState := by
  cases h with
  | refused _ => exact .refl
  | @pool P Q pool blocks env' result hpool hpools hacquired =>
    have hrequest : fits → Requestable config pool request.alignedBytes request.bytes :=
      fun h => requestable (hfits h).1 (hfits h).2 hpool
    have hclear := fun h =>
      clear_of_available (hfits h).1 havailable hpool (hrequest h).block_pos
    rw [regions_split hpools] at hclear
    have hmoves := @BufferPool.acquire_moves own fits memory.toState _ _ _ _ _ _ _ _ _ _ _ _
      (dvd_alignUpTo _ _) hrequest hclear hacquired
    rw [← regions_split hpools] at hmoves
    have hregions := @regions_split
      { memory with pools := P ++ { pool with blocks := blocks } :: Q } P Q _ rfl
    rw [← hregions] at hmoves
    cases result with
    | ok handle | error e => exact hmoves

/-! ## Registration and release -/

theorem mapBlock_blocks (block : ℕ) (f : Block → Block) : (memory.mapBlock block f).blocks =
      memory.blocks.map fun b => if b.id = block then f b else b := by
  simp [blocks, mapBlock, flatMap_map, map_flatMap]

theorem Managed.block_ids (hm : memory.Managed) : (memory.blocks.map Block.id).Nodup := by
  have hids := hm.sound.ids
  simp only [toState, map_map] at hids
  exact hids

/-- A change of one block. -/
theorem mapBlock_split (hm : memory.Managed) {id : ℕ} {block : Block}
    (h : memory.findBlock id = some block) (f : Block → Block) :
    block.id = id ∧ ∃ A B, memory.blocks = A ++ block :: B ∧
      (memory.mapBlock id f).blocks = A ++ f block :: B := by
  obtain ⟨hid, A, B, hblocks, -⟩ := find?_eq_some_iff_append.mp h
  obtain rfl := of_decide_eq_true hid
  have hids := hm.block_ids
  rw [hblocks] at hids
  exact ⟨rfl, A, B, hblocks, by rw [mapBlock_blocks, hblocks, map_at_key hids]⟩

theorem mapBlock_header (id : ℕ) (f : Block → Block) :
    (memory.mapBlock id f).pools.map header = memory.pools.map header := by
  simp [mapBlock, header]

/-- A registration changes no slice. -/
structure Unmoved (memory memory' : BufferMemory) : Prop where
  header : memory'.pools.map header = memory.pools.map header
  regions : memory'.blocks.map region = memory.blocks.map region
  leases : memory'.leases = memory.leases
  uses : memory'.uses = memory.uses
  clock : memory'.clock = memory.clock
  seen : memory'.seen = memory.seen
  fresh : memory.fresh ≤ memory'.fresh
  reserved : memory'.driver.reserved = memory.driver.reserved

theorem Unmoved.refl (memory : BufferMemory) : Unmoved memory memory :=
  ⟨rfl, rfl, rfl, rfl, rfl, rfl, le_rfl, rfl⟩

theorem Unmoved.moves (h : Unmoved memory memory') :
    Moves kBufferAlignment own fits memory.toState memory'.toState := by
  have hadvance := @Move.advance _ kBufferAlignment own fits memory.toState _ _
    (List.Subset.refl memory.seen) h.fresh
  unfold toState at hadvance ⊢
  rw [h.regions, h.leases, h.uses, h.clock, h.seen]
  exact .single hadvance

theorem register_unmoved (hm : memory.Managed) (handle : BufferHandle) (comm : ℕ)
    (outcome : DriverCall → Option NcclError) :
    Unmoved memory (memory.register handle comm outcome).2 := by
  unfold register
  cases hblock : memory.findBlock handle.block with
  | none => exact .refl memory
  | some block =>
    rcases hregister : block.ensureRegistration (some comm) (memory.env [] outcome 0) with
      ⟨result, block', env'⟩
    obtain ⟨⟨registrations, rfl⟩, hseen, hfresh, -, -, hreserved⟩ :=
      ensureRegistration_spec hregister
    obtain ⟨hid, A, B, hblocks, hblocks'⟩ := mapBlock_split hm hblock
      fun _ => { block with registrations := registrations }
    rw [← hid] at hblocks'
    have hregions : (memory.mapBlock block.id
        fun _ => { block with registrations := registrations }).blocks.map region =
          memory.blocks.map region := by
      rw [hblocks', hblocks, map_append, map_append]
      rfl
    simp only [hregister]
    exact ⟨mapBlock_header _ _, hregions, rfl, rfl, rfl, hseen, hfresh, hreserved⟩

variable {slice : BufferSlice}

/-- A change of one slice. -/
theorem mapSlice_split (hm : memory.Managed) {block id : ℕ}
    (h : memory.findSlice block id = some slice) (f : BufferSlice → BufferSlice) :
    ∃ b A B X Y, b.id = block ∧ slice.id = id ∧ memory.blocks = A ++ b :: B ∧
      b.slices = X ++ slice :: Y ∧
      (memory.mapSlice block id f).blocks =
        A ++ { b with slices := X ++ f slice :: Y } :: B := by
  obtain ⟨b, hb, hslice⟩ := Option.bind_eq_some_iff.mp h
  obtain ⟨hid, X, Y, hslices, -⟩ := find?_eq_some_iff_append.mp hslice
  obtain rfl := of_decide_eq_true hid
  obtain ⟨hblock, A, B, hblocks, hblocks'⟩ := mapBlock_split hm hb
    fun b => { b with slices := b.slices.map fun s => if s.id = slice.id then f s else s }
  have hids : (b.slices.map BufferSlice.id).Nodup := by
    have hregion := (hm.sound.region b.region (mem_map_of_mem (by simp [hblocks]))).ids
    simp only [region, map_map] at hregion
    exact hregion
  rw [hslices] at hids
  refine ⟨b, A, B, X, Y, hblock, rfl, hblocks, hslices, ?_⟩
  rw [mapSlice, hblocks', hslices, map_at_key hids]

theorem cell_createEvent (slice : BufferSlice) :
    slice.createEvent.cell = slice.cell := by
  obtain ⟨id, offset, bytes, state, doneEvent, pendingStream, _⟩ := slice
  cases doneEvent <;> cases state <;> rfl

/-- A call that fails may have created the slice's event. -/
theorem createEvent_toState (block slice : ℕ) :
    (memory.mapSlice block slice createEvent).toState = memory.toState := by
  have hregion : ∀ b ∈ memory.blocks, region (if b.id = block then { b with
      slices := b.slices.map fun s => if s.id = slice then s.createEvent else s } else b) =
        b.region := by
    intro b _
    split
    · simp only [region, map_map]
      congr 1
      refine map_congr_left fun s _ => ?_
      simp only [Function.comp]
      split
      · exact cell_createEvent s
      · rfl
    · rfl
  have hregions : (memory.mapSlice block slice createEvent).blocks.map region =
      memory.blocks.map region := by
    rw [mapSlice, mapBlock_blocks, map_map]
    exact map_congr_left hregion
  unfold toState
  rw [hregions]
  rfl

variable {outcome : DriverCall → Option NcclError} {handle : BufferHandle} {stream : ℕ}

/-- A release that fails leaves the handles out and their slices in use. -/
theorem release_failed (h : (memory.release handle stream outcome).1.isSome = true) :
    (memory.release handle stream outcome).2.leases = memory.leases ∧
      (memory.release handle stream outcome).2.toState = memory.toState := by
  unfold release at h ⊢
  cases hslice : memory.findSlice handle.block handle.slice with
  | none => exact ⟨rfl, rfl⟩
  | some slice =>
    simp only [hslice] at h ⊢
    split
    · exact ⟨rfl, rfl⟩
    · split
      · exact ⟨rfl, rfl⟩
      · split
        · exact ⟨rfl, createEvent_toState _ _⟩
        · rename_i hdevice _ hcreate _ hrecord
          simp only [hdevice, hcreate, hrecord] at h
          cases h

/-- A release that succeeds. -/
theorem release_done (hslice : memory.findSlice handle.block handle.slice = some slice)
    (h : (memory.release handle stream outcome).1 = none) :
    (memory.release handle stream outcome).2 =
      { memory.mapSlice handle.block handle.slice (·.release ⟨stream, memory.clock⟩) with
        leases := memory.leases.filter fun lease => lease.handle ≠ handle
        uses := ⟨handle.block, slice.offset, slice.bytes, ⟨stream, memory.clock⟩⟩ :: memory.uses
        clock := memory.clock + 1 } := by
  unfold release at h ⊢
  simp only [hslice] at h ⊢
  split at h
  · cases h
  · split at h
    · cases h
    · split at h
      · cases h
      · rfl

theorem release_moves (hm : memory.Managed) (hout : memory.leases.any (·.handle = handle) = true) :
    Moves kBufferAlignment (memory.OwnStream (.release handle stream outcome)) fits memory.toState
      (memory.release handle stream outcome).2.toState := by
  cases hresult : (memory.release handle stream outcome).1 with
  | some e =>
    rw [(release_failed (by rw [hresult]; rfl)).2]
  | none =>
    cases hslice : memory.findSlice handle.block handle.slice with
    | none => simp only [release, hslice]; exact .refl
    | some slice =>
      obtain ⟨lease, hlease, hhandle⟩ := any_eq_true.mp hout
      obtain rfl := of_decide_eq_true hhandle
      obtain ⟨b, A, B, X, Y, hblock, hid, hblocks, hslices, hblocks'⟩ :=
        mapSlice_split hm hslice (·.release ⟨stream, memory.clock⟩)
      obtain ⟨L, M, hleases⟩ := append_of_mem hlease
      have hhandles : ((L ++ lease :: M).map BufferLease.handle).Nodup := by
        have hids := hm.sound.lease_ids
        simp only [toState, map_map, hleases] at hids
        exact List.Nodup.of_map (fun h => (h.block, h.slice)) (by rwa [map_map])
      have hregions : A.map region ++ { b.region with
          cells := X.map cell ++ { slice.cell with
            status := .pending ⟨stream, memory.clock⟩ } :: Y.map cell } ::
          B.map region = (memory.mapSlice lease.handle.block lease.handle.slice
            (·.release ⟨stream, memory.clock⟩)).blocks.map region := by
        rw [hblocks']
        simp only [region, map_append, map_cons]
        rfl
      have hremain : L.map BufferLease.lease ++ M.map BufferLease.lease =
          (memory.leases.filter fun l => l.handle ≠ lease.handle).map BufferLease.lease := by
        rw [hleases, filter_key_ne hhandles, map_append]
      have hgive : Move kBufferAlignment
          (memory.OwnStream (.release lease.handle stream outcome)) fits memory.toState
          { memory.toState with
            regions := (memory.mapSlice lease.handle.block lease.handle.slice
              (·.release ⟨stream, memory.clock⟩)).blocks.map region
            leases := (memory.leases.filter fun l => l.handle ≠ lease.handle).map BufferLease.lease
            uses := ⟨b.id, slice.offset, slice.bytes, ⟨stream, memory.clock⟩⟩ :: memory.uses
            clock := memory.clock + 1 } := by
        rw [← hregions, ← hremain]
        exact @Move.giveBack _ _ _ fits memory.toState (A.map region) (B.map region) b.region
          (X.map cell) (Y.map cell) slice.cell (L.map BufferLease.lease)
          (M.map BufferLease.lease) lease.lease stream (by simp [toState, hblocks])
          (by simp [region, hslices]) (by simp [toState, hleases]) hblock hid
          fun hown => hown lease hlease rfl
      rw [release_done hslice hresult]
      rw [hblock] at hgive
      exact .single hgive

/-! ## Communicators -/

theorem commInit_blocks (comm : ℕ) (backend : BufferBackend) (granularity : ℕ) :
    (memory.commInit config comm backend granularity).toState = memory.toState := by
  unfold commInit
  split
  · rfl
  · simp [toState, blocks]

/-- What no registration changes in a pool. -/
def shape (pool : BufferPool) : (ℕ × BufferBackend × ℕ) × List (Region ℕ) :=
  (pool.header, pool.blocks.map region)

section

variable {α β : Type} {f : α → Driver → Option NcclError × α × Driver} {driver : Driver}

/-- What each member keeps, in its place, a loop over the members keeps. -/
theorem eachUntilError_keeps {Q : List α → Driver → Prop}
    (hf : ∀ X a Y driver, Q (X ++ a :: Y) driver → Q (X ++ (f a driver).2.1 :: Y) (f a driver).2.2)
    {X l : List α} (h : Q (X ++ l) driver) :
    Q (X ++ (eachUntilError f l driver).2.1) (eachUntilError f l driver).2.2 := by
  induction l generalizing X driver with
  | nil => exact h
  | cons a rest ih =>
    have ha := hf X a rest driver h
    unfold eachUntilError
    rcases hfa : f a driver with ⟨_ | e, a', driver'⟩ <;> rw [hfa] at ha
    · have hrest := @ih driver' (X ++ [a']) (by simpa using ha)
      simpa using hrest
    · exact ha

theorem eachUntilError_map {view : α → β} (hf : ∀ a driver, view (f a driver).2.1 = view a)
    (l : List α) (driver : Driver) : (eachUntilError f l driver).2.1.map view = l.map view :=
  eachUntilError_keeps (Q := fun l' _ => l'.map view = l.map view)
    (fun X a Y driver h => by simpa [hf] using h) (X := []) rfl

theorem eachUntilError_reserved (hf : ∀ a driver, (f a driver).2.2.reserved = driver.reserved)
    (l : List α) (driver : Driver) : (eachUntilError f l driver).2.2.reserved = driver.reserved :=
  eachUntilError_keeps (Q := fun _ d => d.reserved = driver.reserved)
    (fun _ a _ d h => (hf a d).trans h) (X := []) rfl

end

variable (env : Env)

theorem deregisterPool_shape (comm : ℕ) (pool : BufferPool) (driver : Driver) :
    shape (deregisterPool env comm pool driver).2.1 = shape pool := by
  unfold deregisterPool
  split
  · rfl
  · have hregions := @eachUntilError_map _ _ (deregisterBlock env comm) region
      (fun _ _ => rfl) pool.blocks driver
    unfold shape
    rw [hregions]
    rfl

theorem regions_eq_shape :
    memory.blocks.map region = (memory.pools.map shape).flatMap (·.2) := by
  simp [blocks, map_flatMap, flatMap_map, shape]

theorem destroyPool_pools (hm : memory.Managed) {P Q : List BufferPool}
    (hpools : memory.pools = P ++ pool :: Q) : (memory.destroyPool pool).pools = P ++ Q := by
  have howners := hm.owners
  rw [hpools] at howners
  simp only [destroyPool, hpools]
  exact filter_key_ne howners

theorem destroyPool_regions (hm : memory.Managed) {P Q : List BufferPool}
    (hpools : memory.pools = P ++ pool :: Q) :
    (memory.destroyPool pool).blocks.map region =
      (P.flatMap (·.blocks)).map region ++ (Q.flatMap (·.blocks)).map region := by
  simp [blocks, destroyPool_pools hm hpools]

/-- Handles are withdrawn and blocks forgotten after all their work was seen complete. -/
theorem destroyPool_moves (hm : memory.Managed) {comm : ℕ} {pool : BufferPool}
    (hpool : memory.findPool comm = some pool) :
    Moves kBufferAlignment own fits memory.toState (memory.destroyPool pool).toState := by
  obtain ⟨P, Q, hpools, -⟩ := findPool_split hpool
  have hregions := regions_split hpools
  have hids : (pool.blocks.map region).map Region.id = pool.blocks.map Block.id := by
    rw [map_map]
    rfl
  have hadvance : Moves kBufferAlignment own fits memory.toState
      { memory.toState with seen := (memory.destroyPool pool).seen } :=
    .single (@Move.advance _ _ own fits memory.toState _ _ (subset_append_right _ _) le_rfl)
  refine hadvance.tail ?_
  have hdrop := @Move.drop _ kBufferAlignment own fits
    { memory.toState with seen := (memory.destroyPool pool).seen }
    ((P.flatMap (·.blocks)).map region) (pool.blocks.map region)
    ((Q.flatMap (·.blocks)).map region) (by rw [append_assoc]; exact hregions) ?_
  · have hstate : (memory.destroyPool pool).toState = { memory.toState with
          seen := (memory.destroyPool pool).seen
          regions := (P.flatMap (·.blocks)).map region ++ (Q.flatMap (·.blocks)).map region
          leases := memory.toState.leases.filter fun l =>
            decide (l.region ∉ (pool.blocks.map region).map Region.id) } := by
      have hblocks := destroyPool_regions hm hpools
      have hleases : (memory.destroyPool pool).leases.map BufferLease.lease =
          memory.toState.leases.filter fun l => decide (l.region ∉ pool.blocks.map Block.id) := by
        simp only [destroyPool, toState, filter_map]
        rfl
      unfold toState at hleases ⊢
      rw [hblocks, hleases, hids]
      rfl
    rw [hstate]
    exact hdrop
  · intro g hg use huse hregion
    refine ⟨use.record, mem_append_left _ (mem_map_of_mem ?_), rfl, le_rfl⟩
    refine mem_filter.mpr ⟨huse, decide_eq_true ?_⟩
    rw [hregion, ← hids]
    exact mem_map_of_mem hg

/-! ## Pools with the same blocks -/

theorem deregisterComm_reserved (comm : ℕ) (registrations : List Registration) (driver : Driver) :
    (deregisterComm env comm registrations driver).2.2.reserved = driver.reserved := by
  induction registrations generalizing driver with
  | nil => rfl
  | cons registration rest ih =>
    unfold deregisterComm
    split
    · exact ih driver
    · split
      · rfl
      · exact (ih _).trans rfl

theorem deregisterPool_reserved (comm : ℕ) (pool : BufferPool) (driver : Driver) :
    (deregisterPool env comm pool driver).2.2.reserved = driver.reserved := by
  unfold deregisterPool
  split
  · rfl
  · exact @eachUntilError_reserved _ (deregisterBlock env comm)
      (fun block driver => deregisterComm_reserved env comm block.registrations driver) pool.blocks
      driver

end BufferMemory

end Coccl
