import Coccl.Foundations.Transitions
import Coccl.Memory.Pools

/-!
# The buffer manager

One pool for each communicator, behind one lock. A state also holds the handles that are out
(`leases`), every range that was given back with the record made then (`uses`), and the records seen
complete. Left out are failures in the middle of `destroyPool`, which leave a pool whose blocks are
partly gone.
-/

namespace Coccl

open Leasing

/-- A handle that is out, with the request it was made for. -/
structure BufferLease where
  handle : BufferHandle
  requested : ℕ
  stream : ℕ
  deriving DecidableEq

structure BufferMemory where
  pools : List BufferPool
  leases : List BufferLease
  uses : List (Use ℕ)
  seen : List (Record ℕ)
  fresh : ℕ
  clock : ℕ
  driver : Driver

/-- A call of `cocclGetBufferForComm`, or of `cocclGetUnregisteredBuffer` without a communicator to
register with. -/
structure BufferRequest where
  ownerComm : ℕ
  registeredComm : Option ℕ
  bytes : ℕ
  stream : ℕ
  answers : List Bool
  outcome : DriverCall → Option NcclError
  address : ℕ

/-- The size a pool is asked for. -/
def BufferRequest.alignedBytes (request : BufferRequest) : ℕ :=
  alignUp (if request.bytes = 0 then 1 else request.bytes)

inductive BufferAction where
  | commInit (comm : ℕ) (backend : BufferBackend) (granularity : ℕ)
  | acquire (request : BufferRequest)
  | register (handle : BufferHandle) (comm : ℕ) (outcome : DriverCall → Option NcclError)
  | release (handle : BufferHandle) (stream : ℕ) (outcome : DriverCall → Option NcclError)
  | commDestroy (comm : ℕ) (outcome : DriverCall → Option NcclError)

/-- Members in order, up to one that fails. -/
def eachUntilError {α : Type} (f : α → Driver → Option NcclError × α × Driver) :
    List α → Driver → Option NcclError × List α × Driver
  | [], driver => (none, [], driver)
  | a :: rest, driver =>
    match f a driver with
    | (some e, a, driver) => (some e, a :: rest, driver)
    | (none, a, driver) =>
      match eachUntilError f rest driver with
      | (result, rest, driver) => (result, a :: rest, driver)

namespace BufferMemory

/-- Nothing has been created. -/
def initial : BufferMemory where
  pools := []
  leases := []
  uses := []
  seen := []
  fresh := 0
  clock := 0
  driver := ⟨fun _ => false, fun _ => false, []⟩

variable (config : BufferConfig) (memory : BufferMemory)

def blocks : List Block := memory.pools.flatMap (·.blocks)

/-- What a function of a pool gets. -/
def env (answers : List Bool) (outcome : DriverCall → Option NcclError) (address : ℕ) : Env where
  answers := answers
  outcome := outcome
  address := address
  fresh := memory.fresh
  seen := memory.seen
  driver := memory.driver

/-- What it leaves. -/
def setEnv (env : Env) : BufferMemory :=
  { memory with fresh := env.fresh, seen := env.seen, driver := env.driver }

def setPool (pool : BufferPool) : BufferMemory :=
  { memory with
    pools := memory.pools.map fun p => if p.ownerComm = pool.ownerComm then pool else p }

def findPool (comm : ℕ) : Option BufferPool := memory.pools.find? (·.ownerComm = comm)

def commInit (comm : ℕ) (backend : BufferBackend) (granularity : ℕ) : BufferMemory :=
  match memory.findPool comm with
  | some _ => memory
  | none =>
    { memory with
      pools := memory.pools ++ [⟨comm, backend, vmmChunkBytes config granularity, []⟩] }

def acquire (request : BufferRequest) : Result BufferHandle × BufferMemory :=
  match memory.findPool request.ownerComm with
  | none => (.error .invalidUsage, memory)
  | some pool =>
    let env := memory.env request.answers request.outcome request.address
    match env.cudaCheck .setDevice with
    | some e => (.error e, memory)
    | none =>
      match pool.acquire config request.alignedBytes request.registeredComm request.stream env with
      | (.ok handle, pool, env) =>
        (.ok handle, { (memory.setPool pool).setEnv env with
          leases := ⟨handle, request.bytes, request.stream⟩ :: memory.leases })
      | (.error e, pool, env) => (.error e, (memory.setPool pool).setEnv env)

/-- A reservation is given addresses that are not reserved. -/
def addressAvailable (request : BufferRequest) : Bool :=
  match memory.findPool request.ownerComm with
  | none => true
  | some pool =>
    (List.range (pool.blockBytes config request.alignedBytes)).all fun i =>
      !memory.driver.reserved (request.address + i)

/-- One block of one pool is changed. -/
def mapBlock (block : ℕ) (f : Block → Block) : BufferMemory :=
  { memory with
    pools := memory.pools.map fun pool =>
      { pool with blocks := pool.blocks.map fun b => if b.id = block then f b else b } }

/-- The block a handle points to. -/
def findBlock (block : ℕ) : Option Block := memory.blocks.find? (·.id = block)

def register (handle : BufferHandle) (comm : ℕ) (outcome : DriverCall → Option NcclError) :
    Option NcclError × BufferMemory :=
  match memory.findBlock handle.block with
  | none => (none, memory)
  | some block =>
    match block.ensureRegistration (some comm) (memory.env [] outcome 0) with
    | (result, block, env) => (result, (memory.mapBlock block.id fun _ => block).setEnv env)

/-- One slice is changed. -/
def mapSlice (block slice : ℕ) (f : BufferSlice → BufferSlice) : BufferMemory :=
  memory.mapBlock block fun b =>
    { b with slices := b.slices.map fun s => if s.id = slice then f s else s }

def findSlice (block slice : ℕ) : Option BufferSlice :=
  (memory.findBlock block).bind fun b => b.slices.find? (·.id = slice)

/-- `cocclReleaseBuffer`. The handle stays out if a call fails. -/
def release (handle : BufferHandle) (stream : ℕ) (outcome : DriverCall → Option NcclError) :
    Option NcclError × BufferMemory :=
  match memory.findSlice handle.block handle.slice with
  | none => (none, memory)
  | some slice =>
    let env := memory.env [] outcome 0
    match env.cudaCheck .setDevice with
    | some e => (some e, memory)
    | none =>
      match (if slice.doneEvent = .null then env.cudaCheck .eventCreate else none) with
      | some e => (some e, memory)
      | none =>
        match env.cudaCheck .eventRecord with
        | some e => (some e, memory.mapSlice handle.block handle.slice BufferSlice.createEvent)
        | none =>
          let record : Record ℕ := ⟨stream, memory.clock⟩
          (none, { memory.mapSlice handle.block handle.slice (·.release record) with
            leases := memory.leases.filter fun lease => lease.handle ≠ handle
            uses := ⟨handle.block, slice.offset, slice.bytes, record⟩ :: memory.uses
            clock := memory.clock + 1 })

/-- The registrations of one communicator are withdrawn, up to one that fails. -/
def deregisterComm (env : Env) (comm : ℕ) :
    List Registration → Driver → Option NcclError × List Registration × Driver
  | [], driver => (none, [], driver)
  | registration :: rest, driver =>
    if registration.comm ≠ comm then
      match deregisterComm env comm rest driver with
      | (result, rest, driver) => (result, registration :: rest, driver)
    else
      match env.ncclCheck (.commDeregister registration.handle) with
      | some e => (some e, registration :: rest, driver)
      | none => deregisterComm env comm rest (driver.deregister registration.handle)

def deregisterBlock (env : Env) (comm : ℕ) (block : Block) (driver : Driver) :
    Option NcclError × Block × Driver :=
  match deregisterComm env comm block.registrations driver with
  | (result, registrations, driver) =>
    (result, { block with registrations := registrations }, driver)

/-- A pool other than the communicator's own. -/
def deregisterPool (env : Env) (comm : ℕ) (pool : BufferPool) (driver : Driver) :
    Option NcclError × BufferPool × Driver :=
  if pool.ownerComm = comm then (none, pool, driver)
  else
    match eachUntilError (deregisterBlock env comm) pool.blocks driver with
    | (result, blocks, driver) => (result, { pool with blocks := blocks }, driver)

/-- What `releaseBlock` gives back to the driver. -/
def releaseBlock (driver : Driver) (block : Block) : Driver :=
  ((block.registrations.foldl (fun d r => d.deregister r.handle) driver).unmap block.ptr
    block.capacity).release block.ptr block.capacity

/-- The device is synchronised, the blocks are released and the pool is gone, with its handles. -/
def destroyPool (pool : BufferPool) : BufferMemory :=
  let ids := pool.blocks.map Block.id
  { memory with
    pools := memory.pools.filter (·.ownerComm ≠ pool.ownerComm)
    leases := memory.leases.filter (·.handle.block ∉ ids)
    seen := (memory.uses.filter (·.region ∈ ids)).map (·.record) ++ memory.seen
    driver := pool.blocks.foldl releaseBlock memory.driver }

def commDestroy (comm : ℕ) (outcome : DriverCall → Option NcclError) :
    Option NcclError × BufferMemory :=
  let env := memory.env [] outcome 0
  match eachUntilError (deregisterPool env comm) memory.pools memory.driver with
  | (some e, pools, driver) => (some e, { memory with pools := pools, driver := driver })
  | (none, pools, driver) =>
    let memory := { memory with pools := pools, driver := driver }
    match memory.findPool comm with
    | none => (none, memory)
    | some pool =>
      match env.cudaCheck .setDevice <|> env.cudaCheck .deviceSynchronize with
      | some e => (some e, memory)
      | none => (none, memory.destroyPool pool)

/-- Only a handle that is out is registered or released. -/
def step : BufferAction → Option BufferMemory
  | .commInit comm backend granularity => some (memory.commInit config comm backend granularity)
  | .acquire request =>
    if memory.addressAvailable config request then some (memory.acquire config request).2 else none
  | .register handle comm outcome =>
    if memory.leases.any (·.handle = handle) then some (memory.register handle comm outcome).2
    else none
  | .release handle stream outcome =>
    if memory.leases.any (·.handle = handle) then some (memory.release handle stream outcome).2
    else none
  | .commDestroy comm outcome => some (memory.commDestroy comm outcome).2

end BufferMemory

end Coccl
