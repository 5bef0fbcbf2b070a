import Coccl.Memory.Refines

/-!
# Acquisition from a pool

What a pool does for a request (`BufferPool.acquired`) is one of four: a block there is has room or
cannot be registered, a new block is made, a block's growth fails, or a block is grown. Each is a
sequence of moves of the abstract allocator.
-/

namespace Coccl

open Leasing BufferPool Block Driver List

variable {bytes : ℕ}

theorem growCandidate_spec {blocks before after : List Block} {grow : Block}
    (h : growCandidate bytes blocks = some (before, grow, after)) :
    blocks = before ++ grow :: after ∧ grow.capacity < bytes ∧ grow.canGrow = true := by
  induction blocks generalizing before with
  | nil => cases h
  | cons block rest ih =>
    unfold growCandidate at h
    simp only at h
    split at h
    · split at h
      · rename_i hcandidate
        obtain ⟨rfl, rfl, rfl⟩ := h
        exact ⟨rfl, hcandidate⟩
      · cases h
    · rename_i hrest
      split at h
      · rename_i hcandidate
        obtain ⟨rfl, rfl, rfl⟩ := h
        exact ⟨rfl, hcandidate.1⟩
      · obtain ⟨rfl, rfl, rfl⟩ := h
        obtain ⟨hblocks, hgrow⟩ := ih hrest
        exact ⟨by rw [hblocks, cons_append], hgrow⟩

variable {block : Block} {env : Env} {config : BufferConfig} {pool : BufferPool} {env' : Env}

theorem createBlock_spec (h : pool.createBlock config bytes env = (.ok block, env')) :
    block.region = ⟨env.fresh, env.address, pool.blockBytes config bytes,
        [(BufferSlice.initial (env.fresh + 1) 0 (pool.blockBytes config bytes)).cell]⟩ ∧
      block.slices = [.initial (env.fresh + 1) 0 (pool.blockBytes config bytes)] ∧
      env'.fresh = env.fresh + 2 ∧ env'.seen = env.seen := by
  unfold createBlock at h
  simp only at h
  split at h
  · cases h
  · obtain ⟨rfl, rfl⟩ := h
    exact ⟨rfl, rfl, rfl, rfl⟩

variable {e : NcclError}

theorem createBlock_error (h : pool.createBlock config bytes env = (.error e, env')) :
    env' = env := by
  unfold createBlock at h
  simp only at h
  split at h
  · obtain ⟨-, rfl⟩ := h
    rfl
  · cases h

section

variable {own fits : Prop} {base : State ℕ} {A B : List (Region ℕ)} {config : BufferConfig}
  {pool pool' : BufferPool} {bytes requested : ℕ} {registeredComm : Option ℕ} {stream : ℕ}
  {env env' : Env} {result : Result BufferHandle}

/-- What a request and the size of a block for it have to be. -/
structure Requestable (config : BufferConfig) (pool : BufferPool) (bytes requested : ℕ) :
    Prop where
  unit_dvd : kBufferAlignment ∣ bytes
  pos : 0 < bytes
  requested_le : requested ≤ bytes
  block_dvd : kBufferAlignment ∣ pool.blockBytes config bytes
  le_block : bytes ≤ pool.blockBytes config bytes

theorem Requestable.block_pos (h : Requestable config pool bytes requested) :
    0 < pool.blockBytes config bytes := h.pos.trans_le h.le_block

/-- No block serves the request, and the block that may grow is grown. -/
structure Grows (pool : BufferPool) (bytes : ℕ) (registeredComm : Option ℕ) (stream : ℕ) (env : Env)
    (before : List Block) (grow : Block) (after : List Block) (env₁ : Env)
    (failed : Option NcclError) (block : Block) (env₂ : Env) : Prop where
  backend : pool.backend = .vmm
  asked : acquireFromBlocks bytes registeredComm stream pool.ownerComm pool.blocks env =
    (none, before ++ grow :: after, env₁)
  candidate : growCandidate bytes (before ++ grow :: after) = some (before, grow, after)
  growth : grow.growBlock pool.chunkBytes bytes env₁ = (failed, block, env₂)

/-- What an acquisition does. -/
inductive Acquired (config : BufferConfig) (pool : BufferPool) (bytes : ℕ)
    (registeredComm : Option ℕ) (stream : ℕ) (env : Env) :
    Result BufferHandle → BufferPool → Env → Prop where
  | found {answer : Result BufferHandle} {blocks : List Block} {env' : Env}
      (hfound : acquireFromBlocks bytes registeredComm stream pool.ownerComm pool.blocks env =
        (some answer, blocks, env')) :
      Acquired config pool bytes registeredComm stream env answer { pool with blocks := blocks }
        env'
  | createFailed {blocks : List Block} {env' : Env} {e : NcclError}
      (hnone : acquireFromBlocks bytes registeredComm stream pool.ownerComm pool.blocks env =
        (none, blocks, env'))
      (hcreate : pool.createBlock config bytes env' = (.error e, env')) :
      Acquired config pool bytes registeredComm stream env (.error e)
        { pool with blocks := blocks } env'
  | created {blocks : List Block} {block block' : Block} {env₁ env₂ env' : Env} {allow : Bool}
      {answer : Result BufferHandle}
      (hnone : acquireFromBlocks bytes registeredComm stream pool.ownerComm pool.blocks env =
        (none, blocks, env₁))
      (hcreate : pool.createBlock config bytes env₁ = (.ok block, env₂))
      (hallow : allow = true → block.registered registeredComm = true)
      (hacquire : block.acquire allow bytes registeredComm stream pool.ownerComm env₂ =
        (answer, block', env')) :
      Acquired config pool bytes registeredComm stream env answer
        { pool with blocks := blocks ++ [block'] } env'
  | growthFailed {before after : List Block} {grow block : Block} {env₁ env' : Env} {e : NcclError}
      (hgrows : Grows pool bytes registeredComm stream env before grow after env₁ (some e) block
        env') :
      Acquired config pool bytes registeredComm stream env (.error e)
        { pool with blocks := before ++ block :: after } env'
  | grown {before after : List Block} {grow block block' : Block} {env₁ env₂ env' : Env}
      {answer : Result BufferHandle}
      (hgrows : Grows pool bytes registeredComm stream env before grow after env₁ none block env₂)
      (hacquire : block.acquire (block.registered registeredComm) bytes registeredComm stream
        pool.ownerComm env₂ = (answer, block', env')) :
      Acquired config pool bytes registeredComm stream env answer
        { pool with blocks := before ++ block' :: after } env'

theorem acquireFromNew_acquired {blocks : List Block} {env₁ : Env}
    (hnone : acquireFromBlocks bytes registeredComm stream pool.ownerComm pool.blocks env =
      (none, blocks, env₁))
    (h : acquireFromNew config { pool with blocks := blocks } bytes registeredComm stream
      env₁ = (result, pool', env')) :
    Acquired config pool bytes registeredComm stream env result pool' env' := by
  unfold acquireFromNew at h
  split at h
  · rename_i hcreate
    obtain ⟨rfl, rfl, rfl⟩ := h
    obtain rfl := createBlock_error hcreate
    exact .createFailed hnone hcreate
  · rename_i hcreate
    obtain ⟨rfl, rfl, rfl⟩ := h
    exact .created hnone hcreate (fun hallow => (Bool.and_eq_true_iff.mp hallow).2) rfl

theorem BufferPool.acquired
    (h : pool.acquire config bytes registeredComm stream env = (result, pool', env')) :
    Acquired config pool bytes registeredComm stream env result pool' env' := by
  unfold acquire at h
  split at h
  · unfold legacyAcquire at h
    split at h
    · rename_i hfound
      obtain ⟨rfl, rfl, rfl⟩ := h
      exact .found hfound
    · rename_i hnone
      exact acquireFromNew_acquired hnone h
  · rename_i hbackend
    unfold vmmAcquire at h
    split at h
    · rename_i hfound
      obtain ⟨rfl, rfl, rfl⟩ := h
      exact .found hfound
    · rename_i hnone
      split at h
      · exact acquireFromNew_acquired hnone h
      · rename_i hcandidate
        obtain ⟨rfl, -⟩ := growCandidate_spec hcandidate
        split at h
        · rename_i hfailed
          obtain ⟨rfl, rfl, rfl⟩ := h
          exact .growthFailed ⟨hbackend, hnone, hcandidate, hfailed⟩
        · rename_i hgrown
          obtain ⟨rfl, rfl, rfl⟩ := h
          exact .grown ⟨hbackend, hnone, hcandidate, hgrown⟩ rfl

/-- Only the blocks of the pool change. -/
theorem Acquired.blocks
    (h : Acquired config pool bytes registeredComm stream env result pool' env') :
    ∃ blocks, pool' = { pool with blocks := blocks } := by
  cases h <;> exact ⟨_, rfl⟩

/-! ### Capacities -/

theorem blockBytes_le (hbytes : bytes ≤ sizeMax) : pool.blockBytes config bytes ≤ sizeMax := by
  unfold blockBytes
  split
  · exact alignUpTo_le_sizeMax _ _
  · split
    · exact alignUpTo_le_sizeMax _ _
    · exact hbytes

variable {blocks blocks' : List Block}

theorem capacity_le_of_place (h : ∀ block ∈ blocks, block.capacity ≤ sizeMax)
    (hplace : blocks'.map place = blocks.map place) :
    ∀ block ∈ blocks', block.capacity ≤ sizeMax := by
  intro block' hblock'
  have hmem : block'.place ∈ blocks.map place := hplace ▸ mem_map_of_mem hblock'
  obtain ⟨block, hblock, heq⟩ := mem_map.mp hmem
  have hcapacity : block.capacity = block'.capacity := congrArg (·.2.2) heq
  exact hcapacity ▸ h block hblock

variable {block block' : Block} {failed : Option NcclError} {chunkBytes newCapacity : ℕ}
  {env₀ : Env}

theorem Grows.blockBytes {before after : List Block} {grow : Block}
    (h : Grows pool bytes registeredComm stream env₀ before grow after env failed block env') :
    pool.blockBytes config bytes = alignUpTo bytes pool.chunkBytes := by
  simp [BufferPool.blockBytes, h.backend]

theorem Growth.capacity (h : Growth block chunkBytes newCapacity env failed block' env') :
    block'.capacity = block.capacity ∨ block'.capacity = newCapacity := by
  cases h with
  | done _ _ _ => exact .inr rfl
  | _ => exact .inl rfl

theorem Acquired.capacity_le (hbytes : bytes ≤ sizeMax)
    (hold : ∀ block ∈ pool.blocks, block.capacity ≤ sizeMax)
    (h : Acquired config pool bytes registeredComm stream env result pool' env') :
    ∀ block ∈ pool'.blocks, block.capacity ≤ sizeMax := by
  have hgrown : ∀ {before grow after env₁ failed block env₂},
      Grows pool bytes registeredComm stream env before grow after env₁ failed block env₂ →
      ∀ b ∈ before ++ block :: after, b.capacity ≤ sizeMax := by
    intro before grow after env₁ failed block env₂ hgrows b hb
    have hblocks := capacity_le_of_place hold (acquireFromBlocks_place hgrows.asked).1
    rcases mem_middle.mp hb with rfl | hb
    · rcases (growBlock_growth hgrows.growth).capacity with hsame | hnew
      · exact hsame ▸ hblocks grow mem_append_cons_self
      · exact hnew ▸ alignUpTo_le_sizeMax _ _
    · exact hblocks b (mem_middle.mpr (.inr hb))
  cases h with
  | found hfound => exact capacity_le_of_place hold (acquireFromBlocks_place hfound).1
  | createFailed hnone _ => exact capacity_le_of_place hold (acquireFromBlocks_place hnone).1
  | created hnone hcreate _ hacquire =>
    intro b hb
    rcases mem_append.mp hb with hb | hb
    · exact capacity_le_of_place hold (acquireFromBlocks_place hnone).1 b hb
    · obtain rfl := mem_singleton.mp hb
      have hcapacity := congrArg (·.2.2) (acquire_place hacquire).1
      have hsize := congrArg Region.size (createBlock_spec hcreate).1
      exact (hcapacity.trans hsize).le.trans (blockBytes_le hbytes)
  | growthFailed hgrows => exact hgrown hgrows
  | grown hgrows hacquire =>
    have hplace := (acquire_place hacquire).1
    exact capacity_le_of_place (hgrown hgrows) (by simp [hplace])

/-! ### The answer

A new or grown block has room for the request it was made for. -/

variable {call : DriverCall}

theorem Env.ncclCheck_ne (h : env.ncclCheck call = some e) : e ≠ .inProgress := by
  simpa using (Option.filter_eq_some_iff.mp h).2

theorem Env.cudaCheck_eq (h : env.cudaCheck call = some e) : e = .unhandledCudaError := by
  obtain ⟨-, -, rfl⟩ := Option.map_eq_some_iff.mp h
  rfl

theorem Env.cudaCheck_ne (h : env.cudaCheck call = some e) : e ≠ .inProgress := by
  rw [env.cudaCheck_eq h]
  decide

theorem ensureRegistration_ne
    (h : block.ensureRegistration registeredComm env = (some e, block', env')) :
    e ≠ .inProgress := by
  unfold ensureRegistration at h
  cases registeredComm with
  | none => cases h
  | some comm =>
    simp only at h
    split at h
    · cases h
    · split at h
      · rename_i hcheck
        obtain ⟨rfl, -⟩ := h
        exact env.ncclCheck_ne hcheck
      · cases h

variable {slice : BufferSlice}

theorem chooseSlice_single {allow : Bool} {fresh : ℕ} {queries : Queries}
    (hfree : slice.state = .free) (hle : bytes ≤ slice.bytes) :
    ∃ chosen, (chooseSlice bytes stream allow fresh [slice] queries).2.1 = some chosen := by
  have hreusable : reusableOnStream slice stream allow queries = (true, slice, queries) := by
    simp [reusableOnStream, reusable, hfree]
  unfold chooseSlice
  simp only [hreusable, hle, and_self, if_true]
  split <;> exact ⟨_, rfl⟩

variable {ownerComm : ℕ}

/-- A block that is one free slice has room for what fits into it. -/
theorem Block.acquire_initial {allow : Bool} (hslices : block.slices = [slice])
    (hfree : slice.state = .free) (hle : bytes ≤ slice.bytes)
    (h : block.acquire allow bytes registeredComm stream ownerComm env = (result, block', env')) :
    result ≠ .error .inProgress := by
  obtain ⟨chosen, hchosen⟩ := @chooseSlice_single bytes stream slice allow env.fresh env.queries
    hfree hle
  unfold acquire at h
  simp only [hslices, mergeFreeSlices, mergeFrom] at h
  split at h
  · rename_i hnone
    rw [hnone] at hchosen
    cases hchosen
  · split at h
    · obtain ⟨rfl, -⟩ := h
      intro heq
      cases heq
    · rename_i hregister
      obtain ⟨rfl, -⟩ := h
      exact fun heq => ensureRegistration_ne hregister (Except.error.inj heq)

/-- An answer is that of one of the blocks. -/
theorem acquireFromBlocks_some {answer : Result BufferHandle}
    (h : acquireFromBlocks bytes registeredComm stream ownerComm blocks env =
      (some answer, blocks', env')) :
    answer ≠ .error .inProgress ∧ ∃ (block block' : Block) (env env' : Env), block.acquire
      (block.registered registeredComm) bytes registeredComm stream ownerComm env =
        (answer, block', env') := by
  induction blocks generalizing env blocks' with
  | nil => cases h
  | cons block rest ih =>
    unfold acquireFromBlocks at h
    split at h
    · rename_i env₁ _
      rcases hrest : acquireFromBlocks bytes registeredComm stream ownerComm rest env₁ with
        ⟨answer', rest', env₂⟩
      simp only [hrest] at h
      obtain ⟨rfl, rfl, rfl⟩ := h
      exact ih hrest
    · rename_i hne hacquire
      obtain ⟨rfl, -⟩ := h
      exact ⟨hne, block, _, _, _, hacquire⟩

variable {handle : BufferHandle}

/-- What a block hands out is as large as asked for. -/
theorem Block.acquire_bytes {allow : Bool}
    (h : block.acquire allow bytes registeredComm stream ownerComm env =
      (.ok handle, block', env')) : bytes ≤ handle.bytes := by
  unfold acquire at h
  simp only at h
  split at h
  · cases h
  · rename_i hchoose
    split at h
    · obtain ⟨rfl, -⟩ := h
      exact (chooseSlice_chosen (congrArg (fun r => r.2.1) hchoose)).1
    · cases h

theorem Acquired.bytes_le
    (h : Acquired config pool bytes registeredComm stream env (.ok handle) pool' env') :
    bytes ≤ handle.bytes := by
  cases h with
  | found hfound =>
    obtain ⟨-, _, _, _, _, hacquire⟩ := acquireFromBlocks_some hfound
    exact acquire_bytes hacquire
  | created _ _ _ hacquire | grown _ hacquire => exact acquire_bytes hacquire

variable {driver driver' : Driver} {registrations : List Registration}

theorem deregisterAll_ne (h : deregisterAll env registrations driver = (some e, driver')) :
    e ≠ .inProgress := by
  induction registrations generalizing driver with
  | nil => cases h
  | cons registration rest ih =>
    unfold deregisterAll at h
    split at h
    · rename_i hcheck
      obtain ⟨rfl, -⟩ := h
      exact env.ncclCheck_ne hcheck
    · exact ih h

theorem Growth.ne_inProgress (h : Growth block chunkBytes newCapacity env (some e) block' env') :
    e ≠ .inProgress := by
  cases h with
  | setDevice hdevice => exact env.cudaCheck_ne hdevice
  | wait _ => decide
  | reserve _ hreserve => exact env.cudaCheck_ne hreserve
  | create _ _ _ => decide
  | deregister hready => exact deregisterAll_ne hready.deregister
  | unmap _ hunmap => exact env.cudaCheck_ne hunmap
  | remap _ _ _ => decide

theorem createBlock_ne (h : pool.createBlock config bytes env = (.error e, env')) :
    e ≠ .inProgress := by
  unfold createBlock at h
  simp only at h
  split at h
  · rename_i hcheck
    obtain ⟨rfl, -⟩ := h
    unfold createCheck at hcheck
    split at hcheck
    · exact env.ncclCheck_ne hcheck
    · split at hcheck
      · obtain rfl := Option.some.inj hcheck
        decide
      · cases hcheck
  · cases h

theorem Acquired.ne_inProgress (hrequest : Requestable config pool bytes requested)
    (h : Acquired config pool bytes registeredComm stream env result pool' env') :
    result ≠ .error .inProgress := by
  cases h with
  | found hfound => exact (acquireFromBlocks_some hfound).1
  | createFailed _ hcreate => exact fun heq => createBlock_ne hcreate (Except.error.inj heq)
  | created _ hcreate _ hacquire =>
    exact acquire_initial (createBlock_spec hcreate).2.1 rfl hrequest.le_block hacquire
  | growthFailed hgrows =>
    exact fun heq => (growBlock_growth hgrows.growth).ne_inProgress (Except.error.inj heq)
  | grown hgrows hacquire =>
    have hle := hrequest.le_block
    rw [hgrows.blockBytes] at hle
    cases growBlock_growth hgrows.growth with
    | done _ _ _ => exact acquire_initial rfl rfl hle hacquire

/-! ### Moves -/

theorem regions_at (before after : List Block) (block : Block) :
    A ++ ((before ++ block :: after).map region ++ B) =
      A ++ before.map region ++ block.region :: (after.map region ++ B) := by simp

/-- After no block had room, the addresses for a new one are still clear. -/
theorem Clear.after (hclear : Clear env.address (pool.blockBytes config bytes)
      (A ++ (pool.blocks.map region ++ B))) {answer : Option (Result BufferHandle)}
    {blocks : List Block} {env₁ : Env}
    (h : acquireFromBlocks bytes registeredComm stream ownerComm pool.blocks env =
      (answer, blocks, env₁)) :
    Clear env₁.address (pool.blockBytes config bytes) (A ++ (blocks.map region ++ B)) := by
  obtain ⟨hplace, haddress, -⟩ := acquireFromBlocks_place h
  exact haddress ▸ hclear.of_place hplace

theorem createBlock_moves (hrequest : fits → Requestable config pool bytes requested)
    (hclear : fits → Clear env.address (pool.blockBytes config bytes) (A ++ B))
    (h : pool.createBlock config bytes env = (.ok block, env')) :
    Moves kBufferAlignment own fits (viewWith base (A ++ B) env)
      (viewWith base (A ++ block.region :: B) env') := by
  obtain ⟨hregion, -, hfresh, hseen⟩ := createBlock_spec h
  have hcreate := @Move.create _ kBufferAlignment own fits (viewWith base (A ++ B) env) A B
    env.address (pool.blockBytes config bytes) rfl
    (fun hfits => ⟨(hrequest hfits).block_pos, (hrequest hfits).block_dvd⟩) hclear
  simp only [viewWith, hregion, hfresh, hseen]
  exact .single hcreate

theorem growCandidate_moves {before after : List Block} {grow : Block}
    (hrequest : fits → Requestable config pool bytes requested)
    (hclear : fits → Clear env.address (pool.blockBytes config bytes)
      (A ++ ((before ++ grow :: after).map region ++ B)))
    (h : Grows pool bytes registeredComm stream env₀ before grow after env failed block env') :
    Moves kBufferAlignment own fits
      (viewWith base (A ++ ((before ++ grow :: after).map region ++ B)) env)
      (viewWith base (A ++ ((before ++ block :: after).map region ++ B)) env') := by
  rw [regions_at] at hclear
  rw [regions_at, regions_at]
  refine growBlock_moves (growCandidate_spec h.candidate).2.2 ?_ ?_ (growBlock_growth h.growth)
  · rw [← h.blockBytes]
    exact fun hfits => ⟨(hrequest hfits).block_pos, (hrequest hfits).block_dvd⟩
  · intro hfits g hg
    rw [← h.blockBytes]
    exact hclear hfits g (mem_middle.mpr (.inr hg))

theorem BufferPool.acquire_moves (hunit : kBufferAlignment ∣ bytes)
    (hrequest : fits → Requestable config pool bytes requested)
    (hclear : fits → Clear env.address (pool.blockBytes config bytes)
      (A ++ (pool.blocks.map region ++ B)))
    (h : Acquired config pool bytes registeredComm stream env result pool' env') :
    Moves kBufferAlignment own fits (viewWith base (A ++ (pool.blocks.map region ++ B)) env)
      (viewWith (granted base requested stream result)
        (A ++ (pool'.blocks.map region ++ B)) env') := by
  have hpos : fits → 0 < bytes := fun hfits => (hrequest hfits).pos
  have hrequested : fits → requested ≤ bytes := fun hfits => (hrequest hfits).requested_le
  have hfirst : ∀ {answer blocks env₁}, acquireFromBlocks bytes registeredComm stream
      pool.ownerComm pool.blocks env = (answer, blocks, env₁) →
      Moves kBufferAlignment own fits (viewWith base (A ++ (pool.blocks.map region ++ B)) env)
        (viewWith (granted base requested stream (answer.getD (.error .inProgress)))
          (A ++ (blocks.map region ++ B)) env₁) :=
    acquireFromBlocks_moves hunit hpos hrequested
  cases h with
  | found hfound => exact hfirst hfound
  | createFailed hnone hcreate => exact hfirst hnone
  | @created blocks block block' env₁ env₂ _ allow answer hnone hcreate hallow hacquire =>
    refine (hfirst hnone).trans ?_
    have hclear₁ := fun hfits => (hclear hfits).after hnone
    rw [← append_assoc] at hclear₁ ⊢
    refine (createBlock_moves hrequest hclear₁ hcreate).trans ?_
    rw [show A ++ ((blocks ++ [block']).map region ++ B) =
      A ++ blocks.map region ++ block'.region :: B by simp]
    exact acquire_moves hunit hpos hrequested hallow hacquire
  | growthFailed hgrows =>
    exact (hfirst hgrows.asked).trans (growCandidate_moves hrequest
      (fun hfits => (hclear hfits).after hgrows.asked) hgrows)
  | grown hgrows hacquire =>
    refine (hfirst hgrows.asked).trans ((growCandidate_moves hrequest
      (fun hfits => (hclear hfits).after hgrows.asked) hgrows).trans ?_)
    rw [regions_at, regions_at]
    exact acquire_moves hunit hpos hrequested id hacquire

/-! ### Reserved addresses -/

theorem Driver.HoldsRange.mono {ptr size : ℕ} (h : driver.HoldsRange ptr size)
    (hreserved : ∀ a, ptr ≤ a → a < ptr + size → driver.reserved a → driver'.reserved a) :
    driver'.HoldsRange ptr size :=
  ⟨h.1, fun a hle hlt => hreserved a hle hlt (h.2 a hle hlt)⟩

theorem Driver.holds_middle {driver : Driver} {g : Region ℕ} :
    driver.Holds (A ++ g :: B) ↔ driver.Holds (A ++ B) ∧ driver.HoldsRange g.base g.size := by
  simp only [Holds, mem_middle, or_imp, forall_and, forall_eq]
  exact and_comm

theorem deregisterAll_reserved (h : deregisterAll env registrations driver = (failed, driver')) :
    driver'.reserved = driver.reserved := by
  induction registrations generalizing driver with
  | nil =>
    obtain ⟨-, rfl⟩ := h
    rfl
  | cons registration rest ih =>
    unfold deregisterAll at h
    split at h
    · obtain ⟨-, rfl⟩ := h
      rfl
    · exact (ih h).trans rfl

/-- A growth that fails gives no address back, and one that succeeds only the old range. -/
theorem Growth.reserved (h : Growth block chunkBytes newCapacity env failed block' env') :
    block'.place = block.place ∧ (∀ a, env.driver.reserved a → env'.driver.reserved a) ∨
      block'.place = (block.id, env.address, newCapacity) ∧
        ∀ a, Driver.inRange env.address newCapacity a ∨ env.driver.reserved a →
          ¬ Driver.inRange block.ptr block.capacity a → env'.driver.reserved a := by
  cases h with
  | setDevice _ | wait _ | reserve _ _ | create _ _ _ => exact .inl ⟨rfl, fun _ => id⟩
  | deregister hready | unmap hready _ =>
    refine .inl ⟨rfl, fun a ha => ?_⟩
    simp [deregisterAll_reserved hready.deregister, Driver.reserve, ha]
  | remap hready _ _ =>
    refine .inl ⟨rfl, fun a ha => ?_⟩
    simp [deregisterAll_reserved hready.deregister, Driver.reserve, Driver.map, Driver.unmap, ha]
  | done hready _ _ =>
    refine .inr ⟨rfl, fun a ha hold => ?_⟩
    simpa [deregisterAll_reserved hready.deregister, Driver.reserve, Driver.map, Driver.unmap,
      release, hold] using ha

theorem createBlock_reserved (h : pool.createBlock config bytes env = (.ok block, env')) (a : ℕ) :
    env'.driver.reserved a =
      (Driver.inRange env.address (pool.blockBytes config bytes) a || env.driver.reserved a) := by
  unfold createBlock at h
  simp only at h
  split at h
  · cases h
  · obtain ⟨rfl, rfl⟩ := h
    rfl

/-- Growth leaves the other blocks their addresses, since they lie apart from the old range. -/
theorem growBlock_holds (hpos : 0 < newCapacity)
    (hclear : Clear env.address newCapacity (A ++ block.region :: B))
    (hapart : ∀ g ∈ A ++ B, block.region.Apart g)
    (hholds : env.driver.Holds (A ++ block.region :: B))
    (h : Growth block chunkBytes newCapacity env failed block' env') :
    env'.driver.Holds (A ++ block'.region :: B) := by
  rw [holds_middle] at hholds ⊢
  obtain ⟨hothers, hblock⟩ := hholds
  rcases h.reserved with ⟨hplace, hreserved⟩ | ⟨hplace, hreserved⟩
  · have hptr : block'.region.base = block.region.base := congrArg (·.2.1) hplace
    have hcapacity : block'.region.size = block.region.size := congrArg (·.2.2) hplace
    rw [hptr, hcapacity]
    exact ⟨fun g hg => (hothers g hg).mono fun a _ _ => hreserved a,
      hblock.mono fun a _ _ => hreserved a⟩
  · have hptr : block'.region.base = env.address := congrArg (·.2.1) hplace
    have hcapacity : block'.region.size = newCapacity := congrArg (·.2.2) hplace
    rw [hptr, hcapacity]
    refine ⟨fun g hg => (hothers g hg).mono fun a hle hlt ha => hreserved a (.inr ha) ?_,
      hpos, fun a hle hlt => hreserved a (.inl ?_) ?_⟩
    · have hg := hapart g hg
      simp only [Region.Apart, region] at hg
      simp [Driver.inRange]
      omega
    · simp [Driver.inRange, hle, hlt]
    · have hblock := hclear block.region (by simp)
      simp only [region] at hblock
      simp [Driver.inRange]
      omega

theorem createBlock_holds (hrequest : Requestable config pool bytes requested)
    (hholds : env.driver.Holds (A ++ B))
    (h : pool.createBlock config bytes env = (.ok block, env')) :
    env'.driver.Holds (A ++ block.region :: B) := by
  have hreserved := createBlock_reserved h
  rw [holds_middle, (createBlock_spec h).1]
  refine ⟨fun g hg => (hholds g hg).mono fun a _ _ ha => ?_,
    hrequest.block_pos, fun a hle hlt => ?_⟩
  · simp [hreserved, ha]
  · simp [hreserved, Driver.inRange, hle, hlt]

/-- Handing out a slice keeps every block on its addresses. -/
theorem Block.acquire_holds {allow : Bool} (hholds : env.driver.Holds (A ++ block.region :: B))
    (h : block.acquire allow bytes registeredComm stream ownerComm env = (result, block', env')) :
    env'.driver.Holds (A ++ block'.region :: B) := by
  obtain ⟨hplace, -, hreserved⟩ := acquire_place h
  have hholds' := @Holds.of_place env.driver [block] [block'] A B hholds (by simp [hplace])
  exact fun g hg => (hholds' g hg).mono fun a _ _ ha => by rwa [hreserved]

theorem BufferPool.acquire_holds (hrequest : Requestable config pool bytes requested)
    (hclear : Clear env.address (pool.blockBytes config bytes) (A ++ (pool.blocks.map region ++ B)))
    (hsized : Sized kBufferAlignment (viewWith base (A ++ (pool.blocks.map region ++ B)) env))
    (hholds : env.driver.Holds (A ++ (pool.blocks.map region ++ B)))
    (h : Acquired config pool bytes registeredComm stream env result pool' env') :
    env'.driver.Holds (A ++ (pool'.blocks.map region ++ B)) := by
  have hafter : ∀ {answer blocks env₁}, acquireFromBlocks bytes registeredComm stream
      pool.ownerComm pool.blocks env = (answer, blocks, env₁) →
      env₁.driver.Holds (A ++ (blocks.map region ++ B)) := by
    intro answer blocks env₁ hblocks
    obtain ⟨hplace, -, hreserved⟩ := acquireFromBlocks_place hblocks
    exact fun g hg => (hholds.of_place hplace g hg).mono fun a _ _ ha => by rwa [hreserved]
  have hgrowth : ∀ {before grow after env₁ failed block env₂},
      Grows pool bytes registeredComm stream env before grow after env₁ failed block env₂ →
      env₂.driver.Holds (A ++ ((before ++ block :: after).map region ++ B)) := by
    intro before grow after env₁ failed block env₂ hgrows
    have hblock := @hgrows.blockBytes config
    have hnone := hgrows.asked
    have hsized₁ := Moves.sized (@acquireFromBlocks_moves True True base A B bytes hrequest.unit_dvd
      (fun _ => hrequest.pos) requested (fun _ => hrequest.requested_le) _ _ _ _ _ _ _ _ hnone)
      trivial hsized
    have hclear₁ := hclear.after hnone
    have hholds₁ := hafter hnone
    rw [regions_at] at hclear₁ hholds₁ hsized₁ ⊢
    exact growBlock_holds (hblock ▸ hrequest.block_pos) (hblock ▸ hclear₁)
      (hsized₁.apart_others rfl) hholds₁ (growBlock_growth hgrows.growth)
  cases h with
  | found hfound => exact hafter hfound
  | createFailed hnone hcreate => exact hafter hnone
  | @created blocks block block' env₁ env₂ _ allow answer hnone hcreate hallow hacquire =>
    rw [show A ++ ((blocks ++ [block']).map region ++ B) =
      A ++ blocks.map region ++ block'.region :: B by simp]
    refine acquire_holds (createBlock_holds hrequest ?_ hcreate) hacquire
    rw [append_assoc]
    exact hafter hnone
  | growthFailed hgrows => exact hgrowth hgrows
  | grown hgrows hacquire =>
    have hholds₂ := hgrowth hgrows
    rw [regions_at] at hholds₂ ⊢
    exact acquire_holds hholds₂ hacquire

end

end Coccl
