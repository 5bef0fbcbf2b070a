import Coccl.Memory.Whole

/-!
# Pools stay usable

After a call that fails, a pool's blocks are still reserved, mapped and registered as they say,
unless a growth failed late (`LateFailure`): then the block it was to grow is not, and is still
offered to later requests.
-/

namespace Coccl

open Leasing Transitions Block Driver Option

/-! ## Requests -/

variable {blocks : List Block}

namespace BufferPool

/-- The block a request grows, and the state it is grown in: no block has room for it. -/
def growing (pool : BufferPool) (bytes : ℕ) (registeredComm : Option ℕ) (stream : ℕ) (env : Env) :
    Option (Block × Env) :=
  match pool.backend with
  | .legacy => none
  | .vmm =>
    match acquireFromBlocks bytes registeredComm stream pool.ownerComm pool.blocks env with
    | (some _, _, _) => none
    | (none, blocks, env) => (growCandidate bytes blocks).map fun found => (found.2.1, env)

/-- The chunks of a block for a request. -/
def chunks (pool : BufferPool) (bytes : ℕ) : ℕ :=
  alignUpTo bytes pool.chunkBytes / pool.chunkBytes

variable {config : BufferConfig} {pool pool' : BufferPool} {bytes : ℕ} {registeredComm : Option ℕ}
  {stream : ℕ} {env env' : Env} {A B : List Block} {result : Result BufferHandle}

variable (hwhole : Whole (A ++ (pool.blocks ++ B)) env.driver env.fresh)

include hwhole

variable (hvacant : Vacant env.driver env.address (pool.blockBytes config bytes))

include hvacant

/-- After the blocks were asked, all is as before. -/
theorem asked_whole {answer : Option (Result BufferHandle)} {env₁ : Env}
    (h : acquireFromBlocks bytes registeredComm stream pool.ownerComm pool.blocks env =
      (answer, blocks, env₁)) :
    Whole (A ++ (blocks ++ B)) env₁.driver env₁.fresh ∧
      Vacant env₁.driver env₁.address (pool.blockBytes config bytes) := by
  obtain ⟨-, haddress, hreserved⟩ := acquireFromBlocks_place h
  refine ⟨acquireFromBlocks_whole hwhole h, ?_⟩
  unfold Vacant
  rw [haddress, hreserved]
  exact hvacant

theorem acquire_whole
    (hsafe : ∀ grow env₁, pool.growing bytes registeredComm stream env = some (grow, env₁) →
      ¬ LateFailure env₁ grow (pool.chunks bytes))
    (h : Acquired config pool bytes registeredComm stream env result pool' env') :
    Whole (A ++ (pool'.blocks ++ B)) env'.driver env'.fresh := by
  have hmiddle : ∀ before (b : Block) after,
      A ++ (before ++ b :: after ++ B) = A ++ before ++ b :: (after ++ B) := by simp
  have hgrown : ∀ {before grow after env₁ failed block env₂},
      Grows pool bytes registeredComm stream env before grow after env₁ failed block env₂ →
      Whole (A ++ before ++ block :: (after ++ B)) env₂.driver env₂.fresh := by
    intro before grow after env₁ failed block env₂ hgrows
    have hgrowing : pool.growing bytes registeredComm stream env = some (grow, env₁) := by
      simp only [growing, hgrows.backend, hgrows.asked, hgrows.candidate, map_some]
    obtain ⟨hwhole₁, hvacant₁⟩ := asked_whole hwhole hvacant hgrows.asked
    rw [hgrows.blockBytes] at hvacant₁
    exact (growBlock_growth hgrows.growth).whole (hmiddle .. ▸ hwhole₁) hvacant₁ (dvd_alignUpTo _ _)
      (hsafe grow env₁ hgrowing)
  cases h with
  | found hfound => exact (asked_whole hwhole hvacant hfound).1
  | createFailed hnone _ => exact (asked_whole hwhole hvacant hnone).1
  | created hnone hcreate _ hacquire =>
    obtain ⟨hwhole₁, hvacant₁⟩ := asked_whole hwhole hvacant hnone
    rw [← List.append_assoc] at hwhole₁
    rw [hmiddle]
    exact Block.acquire_whole (createBlock_whole hwhole₁ hvacant₁ hcreate) hacquire
  | growthFailed hgrows => exact hmiddle .. ▸ hgrown hgrows
  | grown hgrows hacquire =>
    rw [hmiddle]
    exact Block.acquire_whole (hgrown hgrows) hacquire

theorem acquire_unusable {grow : Block} {env₁ : Env}
    (hgrowing : pool.growing bytes registeredComm stream env = some (grow, env₁))
    (hlate : LateFailure env₁ grow (pool.chunks bytes))
    (h : pool.acquire config bytes registeredComm stream env = (result, pool', env')) :
    (∃ e, result = .error e) ∧ ∃ block ∈ pool'.blocks, ¬ block.Usable env'.driver := by
  unfold growing at hgrowing
  split at hgrowing
  · cases hgrowing
  · rename_i hbackend
    split at hgrowing
    · cases hgrowing
    · rename_i blocks env₁ hnone
      obtain ⟨⟨before, grow, after⟩, hcandidate, hfound⟩ := map_eq_some_iff.mp hgrowing
      obtain ⟨rfl, rfl⟩ := Prod.mk.inj hfound
      obtain ⟨rfl, -⟩ := growCandidate_spec hcandidate
      obtain ⟨hwhole₁, hvacant₁⟩ := asked_whole hwhole hvacant hnone
      simp only [blockBytes, hbackend] at hvacant₁
      rcases hgrow : grow.growBlock pool.chunkBytes bytes env₁ with ⟨failed, block, env₂⟩
      obtain ⟨hfailed, hunusable⟩ :=
        (growBlock_growth hgrow).unusable (A := A ++ before) (B := after ++ B)
          (by simpa using hwhole₁) hvacant₁ hlate
      obtain ⟨e, rfl⟩ := ne_none_iff_exists'.mp hfailed
      simp only [acquire, hbackend, vmmAcquire, hnone, hcandidate, hgrow] at h
      obtain ⟨rfl, rfl, rfl⟩ := h
      exact ⟨⟨e, rfl⟩, block, by simp, hunusable⟩

end BufferPool

/-! ## Withdrawn registrations and released blocks -/

section

variable {A B : List Block} {env : Env} {comm fresh : ℕ} {driver : Driver} {block : Block}

theorem deregisterComm_whole {X registrations : List Registration}
    (h : Whole (A ++ { block with registrations := X ++ registrations } :: B) driver fresh) :
    Whole (A ++ { block with
        registrations := X ++ (BufferMemory.deregisterComm env comm registrations driver).2.1 }
      :: B) (BufferMemory.deregisterComm env comm registrations driver).2.2 fresh := by
  induction registrations generalizing X driver with
  | nil => exact h
  | cons registration rest ih =>
    unfold BufferMemory.deregisterComm
    split
    · have hrest := @ih driver (X ++ [registration]) (by simpa using h)
      simpa using hrest
    · split
      · exact h
      · exact ih h.withdraw

variable {pool : BufferPool}

theorem deregisterPool_whole {P Q : List BufferPool}
    (h : Whole ((P ++ pool :: Q).flatMap (·.blocks)) driver fresh) :
    Whole ((P ++ (BufferMemory.deregisterPool env comm pool driver).2.1 :: Q).flatMap (·.blocks))
      (BufferMemory.deregisterPool env comm pool driver).2.2 fresh := by
  unfold BufferMemory.deregisterPool
  split
  · exact h
  · simp only [List.flatMap_append, List.flatMap_cons] at h ⊢
    refine BufferMemory.eachUntilError_keeps (X := [])
      (Q := fun blocks driver => Whole (P.flatMap (·.blocks) ++ (blocks ++ Q.flatMap (·.blocks)))
        driver fresh) ?_ h
    intro X block Y driver hblock
    have hregistrations := @deregisterComm_whole (P.flatMap (·.blocks) ++ X)
      (Y ++ Q.flatMap (·.blocks)) env comm fresh driver block [] block.registrations
      (by simpa using hblock)
    simpa [BufferMemory.deregisterBlock] using hregistrations

theorem withdrawAll_whole {registrations : List Registration}
    (h : Whole (A ++ { block with registrations := registrations } :: B) driver fresh) :
    Whole (A ++ { block with registrations := [] } :: B)
      (registrations.foldl (fun d r => d.deregister r.handle) driver) fresh := by
  induction registrations generalizing driver with
  | nil => exact h
  | cons registration rest ih => exact ih (Whole.withdraw (X := []) h)

theorem releaseBlock_whole (h : Whole (A ++ block :: B) driver fresh) :
    Whole (A ++ B) (BufferMemory.releaseBlock driver block) fresh := by
  have hwithdrawn := withdrawAll_whole h
  refine hwithdrawn.drop.of_driver ?_ ?_ fun _ _ _ _ hr => hr
  · intro b hb a ha hr
    simp [BufferMemory.releaseBlock, release, unmap, hr, hwithdrawn.not_inRange hb ha]
  · intro b hb a ha hm
    simp [BufferMemory.releaseBlock, release, unmap, hm, hwithdrawn.not_inRange hb ha]

theorem releaseBlocks_whole (h : Whole (A ++ (blocks ++ B)) driver fresh) :
    Whole (A ++ B) (blocks.foldl BufferMemory.releaseBlock driver) fresh := by
  induction blocks generalizing driver with
  | nil => exact h
  | cons block rest ih => exact ih (releaseBlock_whole h)

end

/-! ## Runs -/

namespace BufferMemory

variable {config : BufferConfig} {memory memory' : BufferMemory}

/-- The driver holds what the blocks list. -/
abbrev Intact (memory : BufferMemory) : Prop := Whole memory.blocks memory.driver memory.fresh

/-- A request does not fail late in a growth. -/
def SafeGrowth (memory : BufferMemory) : BufferAction → Prop
  | .acquire request =>
    let env := memory.env request.answers request.outcome request.address
    env.cudaCheck .setDevice = none → ∀ pool, memory.findPool request.ownerComm = some pool →
      ∀ grow env₁, pool.growing request.alignedBytes request.registeredComm request.stream env =
        some (grow, env₁) → ¬ LateFailure env₁ grow (pool.chunks request.alignedBytes)
  | _ => True

/-- Blocks are reserved, mapped and registered as they say, and the buffers that are out are
mapped. -/
structure Usable (memory : BufferMemory) : Prop where
  blocks : ∀ block ∈ memory.blocks, block.Usable memory.driver
  leases : ∀ lease ∈ memory.leases, ∀ a,
    inRange lease.handle.ptr lease.handle.bytes a = true → memory.driver.mapped a = true

theorem usable_of_whole (hm : memory.Managed)
    (hw : memory.Intact) : memory.Usable := by
  refine ⟨fun block hblock => hw.usable hblock, fun lease hlease a ha => ?_⟩
  obtain ⟨-, -, block, hblock, -, hptr, hend⟩ := hm.lease_inside hlease
  refine (hw.held block hblock a ?_).2
  simp only [Has, inRange, decide_eq_true_eq] at ha ⊢
  omega

variable {request : BufferRequest}

theorem vacant_of_available (haddress : memory.addressAvailable config request = true)
    (hpool : memory.findPool request.ownerComm = some pool) :
    Vacant memory.driver request.address (pool.blockBytes config request.alignedBytes) := by
  unfold addressAvailable at haddress
  simp only [hpool] at haddress
  intro a ha
  simp only [inRange, decide_eq_true_eq] at ha
  have hfree := List.all_eq_true.mp haddress (a - request.address) (List.mem_range.mpr (by omega))
  rwa [Nat.add_sub_cancel' ha.1, Bool.not_eq_true'] at hfree

theorem blocks_split {P Q : List BufferPool} (h : memory.pools = P ++ pool :: Q) :
    memory.blocks = P.flatMap (·.blocks) ++ (pool.blocks ++ Q.flatMap (·.blocks)) := by
  simp [BufferMemory.blocks, h]

/-- What a request leaves is what its pool leaves. -/
theorem acquire_pool (hm : memory.Managed)
    (hpool : memory.findPool request.ownerComm = some pool)
    (hdevice : (memory.env request.answers request.outcome request.address).cudaCheck .setDevice =
      none) :
    ∃ P Q result pool' env', memory.pools = P ++ pool :: Q ∧
      pool.acquire config request.alignedBytes request.registeredComm request.stream
        (memory.env request.answers request.outcome request.address) = (result, pool', env') ∧
      (memory.acquire config request).2.blocks = P.flatMap (·.blocks) ++
        (pool'.blocks ++ Q.flatMap (·.blocks)) ∧
      (memory.acquire config request).2.driver = env'.driver ∧
      (memory.acquire config request).2.fresh = env'.fresh := by
  obtain ⟨P, Q, hpools, -⟩ := findPool_split hpool
  rcases hacquire : pool.acquire config request.alignedBytes request.registeredComm
    request.stream (memory.env request.answers request.outcome request.address) with
    ⟨result, pool', env'⟩
  obtain ⟨blocks, rfl⟩ := (BufferPool.acquired hacquire).blocks
  have hset : (memory.setPool { pool with blocks := blocks }).pools =
      P ++ { pool with blocks := blocks } :: Q := setPool_pools hm.owners hpools rfl
  refine ⟨P, Q, result, _, env', hpools, rfl, ?_⟩
  simp only [acquire, hpool, hdevice, hacquire]
  cases result <;> simp [BufferMemory.blocks, setEnv, hset]

theorem acquire_whole (hm : memory.Managed) (hw : memory.Intact)
    (haddress : memory.addressAvailable config request = true)
    (hsafe : memory.SafeGrowth (.acquire request)) :
    (memory.acquire config request).2.Intact := by
  cases hpool : memory.findPool request.ownerComm with
  | none =>
    simp only [acquire, hpool]
    exact hw
  | some pool =>
    cases hdevice : (memory.env request.answers request.outcome request.address).cudaCheck
      .setDevice with
    | some e =>
      simp only [acquire, hpool, hdevice]
      exact hw
    | none =>
      obtain ⟨P, Q, _, pool', env', hpools, hacquire, hblocks, hdriver, hfresh⟩ :=
        acquire_pool hm hpool hdevice
      rw [Intact, hblocks, hdriver, hfresh]
      rw [Intact, blocks_split hpools] at hw
      exact BufferPool.acquire_whole (by exact hw) (vacant_of_available haddress hpool)
        (hsafe hdevice pool hpool) (BufferPool.acquired hacquire)

/-- A request that fails late leaves a block that is not usable. -/
theorem acquire_unusable (hm : memory.Managed) (hw : memory.Intact)
    (haddress : memory.addressAvailable config request = true)
    (hlate : ¬ memory.SafeGrowth (.acquire request)) :
    ¬ (memory.acquire config request).2.Usable := by
  intro husable
  refine hlate fun hdevice pool hpool grow env₁ hgrowing hlate => ?_
  obtain ⟨P, Q, _, pool', env', hpools, hacquire, hblocks, hdriver, -⟩ :=
    acquire_pool hm hpool hdevice
  rw [Intact, blocks_split hpools] at hw
  obtain ⟨-, block, hblock, hnot⟩ := BufferPool.acquire_unusable (by exact hw)
    (vacant_of_available haddress hpool) hgrowing hlate hacquire
  refine hnot (hdriver ▸ husable.blocks block ?_)
  rw [hblocks]
  simp [hblock]

theorem register_whole (hm : memory.Managed)
    (hw : memory.Intact) (handle : BufferHandle) (comm : ℕ)
    (outcome : DriverCall → Option NcclError) :
    (memory.register handle comm outcome).2.Intact := by
  unfold register
  cases hblock : memory.findBlock handle.block with
  | none => exact hw
  | some block =>
    rcases hregister : block.ensureRegistration (some comm) (memory.env [] outcome 0) with
      ⟨result, block', env'⟩
    obtain ⟨⟨registrations, rfl⟩, -⟩ := ensureRegistration_spec hregister
    obtain ⟨hid, A, B, hblocks, hblocks'⟩ := mapBlock_split hm hblock
      fun _ => { block with registrations := registrations }
    rw [← hid] at hblocks'
    rw [Intact, hblocks] at hw
    have hwhole := ensureRegistration_whole (by exact hw) hregister
    simp only [hregister]
    rw [← hblocks'] at hwhole
    exact hwhole

theorem release_whole (hw : memory.Intact)
    (handle : BufferHandle) (stream : ℕ) (outcome : DriverCall → Option NcclError) :
    (memory.release handle stream outcome).2.Intact := by
  obtain ⟨hholding, -, hdriver, hfresh⟩ :=
    @release_view memory _ holding (fun _ _ => rfl) handle stream outcome
  rw [Intact, hdriver, hfresh]
  exact hw.congr hholding

theorem destroyPool_whole (hm : memory.Managed)
    (hw : memory.Intact) {comm : ℕ}
    (hpool : memory.findPool comm = some pool) :
    (memory.destroyPool pool).Intact := by
  obtain ⟨P, Q, hpools, -⟩ := findPool_split hpool
  rw [Intact, BufferMemory.blocks, destroyPool_pools hm hpools, List.flatMap_append]
  rw [Intact, blocks_split hpools] at hw
  exact releaseBlocks_whole hw

theorem commDestroy_whole (hm : memory.Managed)
    (hw : memory.Intact) (comm : ℕ)
    (outcome : DriverCall → Option NcclError) :
    (memory.commDestroy comm outcome).2.Intact := by
  have hunmoved := @deregister_unmoved memory (memory.env [] outcome 0) comm
  have hderegistered := eachUntilError_keeps (X := [])
    (Q := fun pools driver => Whole (pools.flatMap BufferPool.blocks) driver memory.fresh)
    (fun _ _ _ _ h => @deregisterPool_whole (memory.env [] outcome 0) comm _ _ _ _ _ h) hw
  unfold commDestroy
  rcases hpools : eachUntilError (deregisterPool (memory.env [] outcome 0) comm) memory.pools
    memory.driver with ⟨_ | e, pools, driver⟩ <;> rw [hpools] at hunmoved hderegistered
  · simp only [hpools]
    split
    · exact hderegistered
    · rename_i pool hpool
      split
      · exact hderegistered
      · exact destroyPool_whole (hunmoved.managed hm) hderegistered hpool
  · simp only [hpools]
    exact hderegistered

theorem step_whole {action : BufferAction} (hm : memory.Managed)
    (hw : memory.Intact) (hsafe : memory.SafeGrowth action)
    (h : memory.step config action = some memory') :
    memory'.Intact := by
  cases action with
  | commInit comm backend granularity =>
    obtain rfl := some.inj h
    unfold commInit
    split
    · exact hw
    · simpa [Intact, BufferMemory.blocks] using hw
  | acquire request =>
    obtain ⟨haddress, ⟨⟩⟩ := ite_none_right_eq_some.mp h
    exact acquire_whole hm hw haddress hsafe
  | register handle comm outcome =>
    obtain ⟨-, ⟨⟩⟩ := ite_none_right_eq_some.mp h
    exact register_whole hm hw handle comm outcome
  | release handle stream outcome =>
    obtain ⟨-, ⟨⟩⟩ := ite_none_right_eq_some.mp h
    exact release_whole hw handle stream outcome
  | commDestroy comm outcome =>
    obtain rfl := some.inj h
    exact commDestroy_whole hm hw comm outcome

theorem reachable_whole (h : Reachable (step config) SafeGrowth initial memory) :
    memory.Managed ∧ memory.Intact := by
  have hinitial : initial.Intact := ⟨nofun, .nil, nofun, .nil⟩
  refine h.invariant (I := fun m => m.Managed ∧ m.Intact) ⟨managed_initial, hinitial⟩ ?_
  exact fun m action m' hm hsafe hstep =>
    ⟨step_managed hm.1 hstep, step_whole hm.1 hm.2 hsafe hstep⟩

/-- As long as no growth fails late, every state is usable, and it stays so after the next request,
whatever fails in it, exactly if that does not fail late in a growth either. -/
theorem reachable_usable_iff (h : Reachable (step config) SafeGrowth initial memory) :
    memory.Usable ∧ ∀ request, memory.addressAvailable config request = true →
      ((memory.acquire config request).2.Usable ↔ memory.SafeGrowth (.acquire request)) := by
  obtain ⟨hm, hw⟩ := reachable_whole h
  refine ⟨usable_of_whole hm hw, fun request haddress => ⟨fun husable => ?_, fun hsafe => ?_⟩⟩
  · by_contra hlate
    exact acquire_unusable hm hw haddress hlate husable
  · have hm' : (memory.acquire config request).2.Managed :=
      step_managed hm (show memory.step config (.acquire request) = _ from if_pos haddress)
    exact usable_of_whole hm' (acquire_whole hm hw haddress hsafe)

def oneChunkRequest : BufferRequest := { smallRequest 1 4096 with bytes := 512 }

def oneChunkLeased : BufferMemory := (onePool.acquire smallConfig oneChunkRequest).2

/-- A block of one chunk, all of it given back. -/
def oneChunk : BufferMemory :=
  (oneChunkLeased.release ⟨4096, 512, 0, 0, 1⟩ 1 fun _ => none).2

/-- Two chunks are asked for, and the first cannot be mapped at the new address. -/
def unmappedRequest : BufferRequest :=
  { smallRequest 1 8192 with
    bytes := 1024
    outcome := fun call => if call = .memMap 0 then some .unhandledCudaError else none }

def unmapped : BufferMemory := (oneChunk.acquire smallConfig unmappedRequest).2

theorem onePool_usable : onePool.Usable ∧ oneBuffer.Usable := by
  have hpool : Reachable (step smallConfig) SafeGrowth initial onePool :=
    .step .start (by exact trivial) step_onePool
  obtain ⟨husable, hiff⟩ := reachable_usable_iff hpool
  refine ⟨husable, (hiff (smallRequest 1 4096) (by decide +kernel)).mpr ?_⟩
  intro _ pool hpool grow env₁ hgrowing
  obtain rfl : ⟨0, .vmm, 512, []⟩ = pool := some.inj hpool
  cases hgrowing

/-- The request fails, and the next one is given memory that is not mapped. -/
theorem unmapped_acquire :
    Reachable (step smallConfig) (fun _ _ => True) initial oneChunk ∧
    oneChunk.addressAvailable smallConfig unmappedRequest = true ∧
    (oneChunk.acquire smallConfig unmappedRequest).1 = .error .unhandledCudaError ∧
    ¬ unmapped.Usable ∧
    (unmapped.acquire smallConfig (smallRequest 1 16384)).1 = .ok ⟨4096, 256, 0, 0, 1⟩ ∧
    (unmapped.acquire smallConfig (smallRequest 1 16384)).2.driver.mapped 4096 = false := by
  have hacquire : onePool.step smallConfig (.acquire oneChunkRequest) = some oneChunkLeased := by
    rw [step, if_pos (by decide +kernel), oneChunkLeased]
  have hrelease : oneChunkLeased.step smallConfig
      (.release ⟨4096, 512, 0, 0, 1⟩ 1 fun _ => none) = some oneChunk := by
    rw [step, if_pos (by decide +kernel), oneChunk]
  refine ⟨.step (.step (.step .start trivial step_onePool) trivial hacquire) trivial hrelease,
    by decide +kernel, by decide +kernel, fun husable => ?_, by decide +kernel, by decide +kernel⟩
  have hmapped : ∀ block ∈ unmapped.blocks, block.Has 4096 → unmapped.driver.mapped 4096 = true :=
    fun block hblock ha => ((husable.blocks block hblock).1 4096 ha).2
  revert hmapped
  unfold Has
  decide +kernel

end BufferMemory

end Coccl
