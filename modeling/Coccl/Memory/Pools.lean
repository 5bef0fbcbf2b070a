import Coccl.Memory.Slices

/-!
# Buffer pools

A legacy pool allocates blocks and keeps them; a VMM pool maps physical chunks into reserved
addresses, and may move a block to a larger reservation. The results of all driver, CUDA and NCCL
calls come from outside (`Env`); `Driver` is the state they change. Error paths are modelled with
what they leave behind; `CUCHECKIGNORE` calls, which only run in them, succeed.
-/

namespace Coccl

open Leasing

inductive BufferBackend where
  | legacy
  | vmm
  deriving DecidableEq, Repr

/-! ## Driver calls -/

/-- The calls one pool function makes. A call made for each slice, chunk or registration carries its
number. -/
inductive DriverCall where
  | setDevice
  | growSetDevice
  | eventSynchronize (slice : ℕ)
  | addressReserve
  | memCreate (chunk : ℕ)
  | memMap (chunk : ℕ)
  | setAccess
  | memUnmap
  | addressFree
  | memAlloc
  | commRegister
  | commDeregister (handle : ℕ)
  | eventCreate
  | eventRecord
  | deviceSynchronize
  deriving DecidableEq, Repr

structure Registration where
  comm : ℕ
  ptr : ℕ
  bytes : ℕ
  handle : ℕ
  deriving DecidableEq, Repr

/-- What the driver and NCCL hold. -/
structure Driver where
  reserved : ℕ → Bool
  mapped : ℕ → Bool
  live : List Registration

namespace Driver

variable (driver : Driver) (ptr bytes : ℕ)

def inRange (address : ℕ) : Bool := ptr ≤ address ∧ address < ptr + bytes

def reserve : Driver :=
  { driver with reserved := fun a => inRange ptr bytes a || driver.reserved a }

def release : Driver :=
  { driver with reserved := fun a => !inRange ptr bytes a && driver.reserved a }

def map : Driver :=
  { driver with mapped := fun a => inRange ptr bytes a || driver.mapped a }

def unmap : Driver :=
  { driver with mapped := fun a => !inRange ptr bytes a && driver.mapped a }

def register (registration : Registration) : Driver :=
  { driver with live := registration :: driver.live }

def deregister (handle : ℕ) : Driver :=
  { driver with live := driver.live.filter fun r => r.handle ≠ handle }

end Driver

/-- What a pool function uses besides the pool: how its calls will turn out, and the state they
change. -/
structure Env where
  answers : List Bool
  outcome : DriverCall → Option NcclError
  address : ℕ
  fresh : ℕ
  seen : List (Record ℕ)
  driver : Driver

namespace Env

variable (env : Env)

/-- `CUDACHECK` and `CUCHECK`. -/
def cudaCheck (call : DriverCall) : Option NcclError :=
  (env.outcome call).map fun _ => .unhandledCudaError

/-- `NCCLCHECK` goes on after `ncclInProgress`. -/
def ncclCheck (call : DriverCall) : Option NcclError :=
  (env.outcome call).filter (· ≠ .inProgress)

def queries : Queries := ⟨env.answers, env.seen⟩

def setQueries (queries : Queries) : Env :=
  { env with answers := queries.answers, seen := queries.seen }

end Env

/-! ## Blocks -/

structure Block where
  id : ℕ
  ptr : ℕ
  capacity : ℕ
  handles : ℕ
  slices : List BufferSlice
  registrations : List Registration
  deriving DecidableEq

structure BufferHandle where
  ptr : ℕ
  bytes : ℕ
  ownerComm : ℕ
  block : ℕ
  slice : ℕ
  deriving DecidableEq, Repr

namespace Block

variable (block : Block)

/-- Whether buffers of the block may be used with a communicator as they are. -/
def registered (registeredComm : Option ℕ) : Bool :=
  match registeredComm with
  | none => true
  | some comm => block.registrations.any (·.comm = comm)

def ensureRegistration (registeredComm : Option ℕ) (env : Env) :
    Option NcclError × Block × Env :=
  match registeredComm with
  | none => (none, block, env)
  | some comm =>
    if block.registrations.any (·.comm = comm) then (none, block, env)
    else
      match env.ncclCheck .commRegister with
      | some e => (some e, block, env)
      | none =>
        let registration := ⟨comm, block.ptr, block.capacity, env.fresh⟩
        (none, { block with registrations := block.registrations ++ [registration] },
          { env with fresh := env.fresh + 1, driver := env.driver.register registration })

/-- `acquireFromBlock`, with the registration that follows it: the slice is handed out, and taken
back if the block cannot be registered. -/
def acquire (allowPendingReuse : Bool) (bytes : ℕ) (registeredComm : Option ℕ)
    (stream ownerComm : ℕ) (env : Env) : Result BufferHandle × Block × Env :=
  let merged := mergeFreeSlices block.slices env.queries
  match chooseSlice bytes stream allowPendingReuse env.fresh merged.1 merged.2 with
  | (before, none, queries) =>
    (.error .inProgress, { block with slices := before },
      { env.setQueries queries with fresh := env.fresh + 1 })
  | (before, some (chosen, after), queries) =>
    match block.ensureRegistration registeredComm
        { env.setQueries queries with fresh := env.fresh + 1 } with
    | (none, block, env) =>
      (.ok ⟨block.ptr + chosen.offset, chosen.bytes, ownerComm, block.id, chosen.id⟩,
        { block with slices := before ++ chosen.take :: after }, env)
    | (some e, block, env) =>
      (.error e, { block with slices := before ++ chosen.take.rollback :: after }, env)

/-! ### Growth of a VMM block -/

def canGrow : Bool := block.slices.all fun slice => slice.state ≠ .inUse

end Block

/-- Every pending slice is waited for, up to a wait that fails. -/
def waitForBlock (outcome : DriverCall → Option NcclError) :
    List BufferSlice → List (Record ℕ) → Bool × List BufferSlice × List (Record ℕ)
  | [], seen => (true, [], seen)
  | slice :: rest, seen =>
    if slice.state = .pending then
      if (outcome (.eventSynchronize slice.id)).isSome then (false, slice :: rest, seen)
      else
        match waitForBlock outcome rest (slice.doneEvent.records ++ seen) with
        | (ok, rest, seen) => (ok, slice.settle :: rest, seen)
    else
      match waitForBlock outcome rest seen with
      | (ok, rest, seen) => (ok, slice :: rest, seen)

/-- The registrations are withdrawn in order, up to one that fails. -/
def deregisterAll (env : Env) : List Registration → Driver → Option NcclError × Driver
  | [], driver => (none, driver)
  | registration :: rest, driver =>
    match env.ncclCheck (.commDeregister registration.handle) with
    | some e => (some e, driver)
    | none => deregisterAll env rest (driver.deregister registration.handle)

/-- The chunks from `first` on for which a call succeeds, up to one that fails. -/
def chunksDone (env : Env) (call : ℕ → DriverCall) (first count : ℕ) : ℕ :=
  ((List.range' first count).takeWhile fun i => (env.cudaCheck (call i)).isNone).length

namespace Block

variable (block : Block) (chunkBytes : ℕ)

/-- The chunks are mapped at the new address. The old range stays unmapped if a call fails. -/
def remap (newCapacity : ℕ) (env : Env) : Option NcclError × Block × Env :=
  match env.cudaCheck .memUnmap with
  | some e => (some e, block, env)
  | none =>
    let newChunks := newCapacity / chunkBytes
    let mapped := chunksDone env .memMap 0 newChunks
    let driver := (env.driver.unmap block.ptr block.capacity).map env.address (mapped * chunkBytes)
    if mapped < newChunks ∨ (env.cudaCheck .setAccess).isSome ∨
        (env.cudaCheck .addressFree).isSome then
      (some .unhandledCudaError, block, { env with driver := driver })
    else
      (none, { block with
          ptr := env.address
          capacity := newCapacity
          slices := [.initial env.fresh 0 newCapacity] },
        { env with fresh := env.fresh + 1, driver := driver.release block.ptr block.capacity })

/-- After the wait: the new address range, the missing chunks, and the registrations. -/
def growSettled (newCapacity : ℕ) (env : Env) : Option NcclError × Block × Env :=
  match env.cudaCheck .addressReserve with
  | some e => (some e, block, env)
  | none =>
    let newChunks := newCapacity / chunkBytes
    let handles := block.handles +
      chunksDone env .memCreate block.handles (newChunks - block.handles)
    let grown := { block with handles := handles }
    if handles < newChunks then (some .unhandledCudaError, grown, env)
    else
      let driver := env.driver.reserve env.address newCapacity
      match deregisterAll env block.registrations driver with
      | (some e, driver) => (some e, grown, { env with driver := driver })
      | (none, driver) =>
        remap { grown with registrations := [] } chunkBytes newCapacity
          { env with driver := driver }

def growBlock (requested : ℕ) (env : Env) : Option NcclError × Block × Env :=
  match env.cudaCheck .growSetDevice with
  | some e => (some e, block, env)
  | none =>
    match waitForBlock env.outcome block.slices env.seen with
    | (false, slices, seen) =>
      (some .unhandledCudaError, { block with slices := slices }, { env with seen := seen })
    | (true, slices, seen) =>
      growSettled { block with slices := slices } chunkBytes (alignUpTo requested chunkBytes)
        { env with seen := seen }

end Block

/-! ## Pools -/

/-- The part of the configuration the pools read. Sizes are read as non-negative `int64_t`. -/
structure BufferConfig where
  legacyBlockBytes : ℕ
  physicalChunkBytes : ℕ
  legacyBlockBytes_lt : legacyBlockBytes < 2 ^ 63
  physicalChunkBytes_lt : physicalChunkBytes < 2 ^ 63

structure BufferPool where
  ownerComm : ℕ
  backend : BufferBackend
  chunkBytes : ℕ
  blocks : List Block

/-- `pool->chunkBytes` as `vmmInit` computes it. -/
def vmmChunkBytes (config : BufferConfig) (granularity : ℕ) : ℕ :=
  alignUpTo (max config.physicalChunkBytes granularity) granularity

/-- The bytes of a new block for a request. -/
def BufferPool.blockBytes (config : BufferConfig) (pool : BufferPool) (bytes : ℕ) : ℕ :=
  match pool.backend with
  | .vmm => alignUpTo bytes pool.chunkBytes
  | .legacy =>
    if bytes < config.legacyBlockBytes then alignUp config.legacyBlockBytes else bytes

/-- The calls of `createBlock`; whatever was reserved or mapped is given back if one fails. -/
def BufferPool.createCheck (pool : BufferPool) (capacity : ℕ) (env : Env) : Option NcclError :=
  match pool.backend with
  | .legacy => env.ncclCheck .memAlloc
  | .vmm =>
    if (env.cudaCheck .addressReserve).isSome ∨
        ((List.range (capacity / pool.chunkBytes)).any fun i =>
          (env.cudaCheck (.memCreate i)).isSome || (env.cudaCheck (.memMap i)).isSome) ∨
        (env.cudaCheck .setAccess).isSome then
      some .unhandledCudaError
    else none

/-- A new block of one free slice. -/
def BufferPool.createBlock (config : BufferConfig) (pool : BufferPool) (bytes : ℕ) (env : Env) :
    Result Block × Env :=
  let capacity := pool.blockBytes config bytes
  match pool.createCheck capacity env with
  | some e => (.error e, env)
  | none =>
    (.ok
      { id := env.fresh
        ptr := env.address
        capacity := capacity
        handles := match pool.backend with
          | .vmm => capacity / pool.chunkBytes
          | .legacy => 0
        slices := [.initial (env.fresh + 1) 0 capacity]
        registrations := [] },
      { env with
        fresh := env.fresh + 2
        driver := (env.driver.reserve env.address capacity).map env.address capacity })

/-- The first block that has a slice, or cannot be registered. -/
def acquireFromBlocks (bytes : ℕ) (registeredComm : Option ℕ) (stream ownerComm : ℕ) :
    List Block → Env → Option (Result BufferHandle) × List Block × Env
  | [], env => (none, [], env)
  | block :: rest, env =>
    match block.acquire (block.registered registeredComm) bytes registeredComm stream ownerComm env
      with
    | (.error .inProgress, block, env) =>
      match acquireFromBlocks bytes registeredComm stream ownerComm rest env with
      | (result, rest, env) => (result, block :: rest, env)
    | (result, block, env) => (some result, block :: rest, env)

/-- The largest block that may grow and is too small, the first of equals, with the blocks before
and after it. -/
def growCandidate (bytes : ℕ) : List Block → Option (List Block × Block × List Block)
  | [] => none
  | block :: rest =>
    let candidate := block.capacity < bytes ∧ block.canGrow
    match growCandidate bytes rest with
    | none => if candidate then some ([], block, rest) else none
    | some (before, grow, after) =>
      if candidate ∧ grow.capacity ≤ block.capacity then some ([], block, rest)
      else some (block :: before, grow, after)

namespace BufferPool

variable (config : BufferConfig) (pool : BufferPool) (bytes : ℕ) (registeredComm : Option ℕ)
  (stream : ℕ)

/-- A buffer from a new block. A legacy pool offers it no pending slice. The new block has room for
the request it is made for, so that the `NCCLCHECK` around the legacy pool's call, which goes on
after `ncclInProgress`, never meets it (`Block.acquire_initial`). -/
def acquireFromNew (env : Env) : Result BufferHandle × BufferPool × Env :=
  match pool.createBlock config bytes env with
  | (.error e, env) => (.error e, pool, env)
  | (.ok block, env) =>
    let allowPendingReuse := pool.backend = .vmm && block.registered registeredComm
    match block.acquire allowPendingReuse bytes registeredComm stream pool.ownerComm env with
    | (result, block, env) => (result, { pool with blocks := pool.blocks ++ [block] }, env)

def legacyAcquire (env : Env) : Result BufferHandle × BufferPool × Env :=
  match acquireFromBlocks bytes registeredComm stream pool.ownerComm pool.blocks env with
  | (some result, blocks, env) => (result, { pool with blocks := blocks }, env)
  | (none, blocks, env) =>
    acquireFromNew config { pool with blocks := blocks } bytes registeredComm stream env

def vmmAcquire (env : Env) : Result BufferHandle × BufferPool × Env :=
  match acquireFromBlocks bytes registeredComm stream pool.ownerComm pool.blocks env with
  | (some result, blocks, env) => (result, { pool with blocks := blocks }, env)
  | (none, blocks, env) =>
    match growCandidate bytes blocks with
    | none => acquireFromNew config { pool with blocks := blocks } bytes registeredComm stream env
    | some (before, grow, after) =>
      match grow.growBlock pool.chunkBytes bytes env with
      | (some e, block, env) =>
        (.error e, { pool with blocks := before ++ block :: after }, env)
      | (none, block, env) =>
        match block.acquire (block.registered registeredComm) bytes registeredComm stream
            pool.ownerComm env with
        | (result, block, env) =>
          (result, { pool with blocks := before ++ block :: after }, env)

def acquire (env : Env) : Result BufferHandle × BufferPool × Env :=
  match pool.backend with
  | .legacy => legacyAcquire config pool bytes registeredComm stream env
  | .vmm => vmmAcquire config pool bytes registeredComm stream env

end BufferPool

end Coccl
