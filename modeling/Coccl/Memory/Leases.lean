import Coccl.Memory.Managed

/-!
# Buffers that are out

What a communicator may rely on while it holds buffers: they are disjoint and as large as it asked
for, and none of them is memory another stream still works on.
-/

namespace Coccl

open Leasing Transitions Tiling Block List BufferSlice Option

namespace BufferMemory

variable {config : BufferConfig} {memory memory' : BufferMemory}

/-! ## Buffers are disjoint -/

/-- The slice a handle stands for. -/
structure Backs (block : Block) (slice : BufferSlice) (lease : BufferLease) : Prop where
  block_id : block.id = lease.handle.block
  slice_id : slice.id = lease.handle.slice
  inUse : slice.state = .inUse
  ptr : lease.handle.ptr = block.ptr + slice.offset
  bytes : lease.handle.bytes = slice.bytes

variable {slice : BufferSlice}

theorem inUse_of_status (h : slice.status = .leased) : slice.state = .inUse := by
  cases hstate : slice.state with
  | free => rw [status_free hstate] at h; cases h
  | inUse => rfl
  | pending =>
    obtain ⟨time, -, hstatus⟩ := status_pending hstate
    rw [hstatus] at h
    cases h

variable {lease : BufferLease}

theorem backed_of_sound (hs : Sound kBufferAlignment memory.toState) (hl : lease ∈ memory.leases) :
    ∃ block ∈ memory.blocks, ∃ slice ∈ block.slices, Backs block slice lease := by
  obtain ⟨g, hg, c, hc, hbacks⟩ := hs.backed lease.lease (mem_map_of_mem hl)
  obtain ⟨block, hblock, rfl⟩ := mem_map.mp hg
  obtain ⟨slice, hslice, rfl⟩ := mem_map.mp hc
  exact ⟨block, hblock, slice, hslice, hbacks.region, hbacks.cell,
    inUse_of_status hbacks.status, hbacks.base, hbacks.size⟩

variable {block : Block}

/-- The slices of a block follow one another. -/
theorem Managed.chain (hm : memory.Managed) (hblock : block ∈ memory.blocks) :
    Chain offset bytes 0 block.slices block.capacity := by
  have hchain := (hm.sound.region block.region (mem_map_of_mem hblock)).tiled
  have hmap : ∀ (slices : List BufferSlice) (a b : ℕ),
      Chain Cell.offset Cell.size a (slices.map cell) b →
        Chain offset bytes a slices b := by
    intro slices
    induction slices with
    | nil => exact fun _ _ h => h
    | cons slice rest ih => exact fun a b h => ⟨h.1, ih _ _ h.2⟩
  exact hmap _ _ _ hchain

theorem Fitting.sizes (hf : memory.Fitting) (hblock : block ∈ memory.blocks)
    (hslice : slice ∈ block.slices) : 0 < slice.bytes ∧ kBufferAlignment ∣ slice.bytes :=
  hf.sized.cells block.region (mem_map_of_mem hblock) slice.cell (mem_map_of_mem hslice)

variable {action : BufferAction}

/-- Only a release writes down a use. -/
theorem step_uses (hm : memory.Managed) (h : memory.step config action = some memory') :
    memory'.uses = memory.uses ∨ ∃ handle stream outcome, action = .release handle stream outcome ∧
        (memory.release handle stream outcome).2 = memory' := by
  cases step_stepped hm h with
  | commInit => exact .inl (congrArg State.uses (commInit_blocks _ _ _))
  | acquire _ h => cases h <;> exact .inl rfl
  | unmoved h => exact .inl h.uses
  | release hout => exact .inr ⟨_, _, _, rfl, rfl⟩
  | destroyPool hu _ => exact .inl hu.uses

/-- In a step, a block with a slice in use stays where it is. -/
theorem Managed.stays (hm : memory.Managed) (h : memory.step config action = some memory')
    {block block' : Block} (hblock : block ∈ memory.blocks) (hblock' : block' ∈ memory'.blocks)
    (hid : block'.id = block.id) (hinUse : ∃ slice ∈ block.slices, slice.state = .inUse) :
    block'.ptr = block.ptr ∧ block'.capacity = block.capacity := by
  rcases step_uses hm h with huses | ⟨handle, stream, outcome, -, rfl⟩
  · have hmoves := @step_moves config memory memory' action hm False nofun h
    have hleased : block.region.Leased := by
      obtain ⟨slice, hslice, hstate⟩ := hinUse
      exact ⟨slice.cell, mem_map_of_mem hslice, status_inUse hstate⟩
    have hregion := mem_map_of_mem (f := region) hblock
    rcases Moves.stays hmoves huses (mem_map_of_mem (f := region) hblock') with
      hfresh | ⟨g, hg, hgid, hstays⟩
    · have hlt : block.id < memory.fresh := (hm.sound.region _ hregion).id_lt
      have hge : memory.fresh ≤ block'.id := hfresh
      omega
    · obtain rfl := hm.sound.region_eq hg hregion (hgid.trans hid)
      exact ⟨(hstays hleased).1, (hstays hleased).2.1⟩
  · have hkept := (@release_view memory _ place (fun _ _ => rfl) handle stream outcome).1
    have hmem : block'.place ∈ memory.blocks.map place := hkept ▸ mem_map_of_mem hblock'
    obtain ⟨b, hb, hplace⟩ := mem_map.mp hmem
    have hbid : b.id = block.id := (congrArg (·.1) hplace).trans hid
    obtain rfl := inj_on_of_nodup_map hm.block_ids hb hblock hbid
    exact ⟨(congrArg (·.2.1) hplace).symm, (congrArg (·.2.2) hplace).symm⟩

variable {request : BufferRequest}

theorem acquire_ne_inProgress (hm : memory.Managed) (hf : memory.Fitting)
    (hfits : memory.SizesFit (.acquire request)) :
    (memory.acquire config request).1 ≠ .error .inProgress := by
  have hanswered := @acquire_answered config memory hm.owners request
  generalize (memory.acquire config request).1 = result at hanswered ⊢
  generalize (memory.acquire config request).2 = memory' at hanswered
  cases hanswered with
  | refused he => exact fun heq => he (Except.error.inj heq)
  | pool hpool _ hacquired => exact hacquired.ne_inProgress (requestable hf hfits hpool)

/-- What holds of the buffers that are out. -/
structure LeasesDisjoint (config : BufferConfig) (memory : BufferMemory) : Prop where
  tiled : ∀ block ∈ memory.blocks,
    Tiles offset bytes 0 block.slices block.capacity ∧
      ∀ slice ∈ block.slices, kBufferAlignment ∣ slice.bytes
  backed : ∀ lease ∈ memory.leases, ∃ block ∈ memory.blocks, ∃ slice ∈ block.slices,
    Backs block slice lease ∧ lease.requested ≤ slice.bytes
  apart : memory.leases.Pairwise fun lease lease' =>
    lease.handle.ptr + lease.handle.bytes ≤ lease'.handle.ptr ∨
      lease'.handle.ptr + lease'.handle.bytes ≤ lease.handle.ptr
  unmoved : ∀ action memory', memory.step config action = some memory' →
    ∀ block ∈ memory.blocks, (∃ slice ∈ block.slices, slice.state = .inUse) →
      ∀ block' ∈ memory'.blocks, block'.id = block.id →
        block'.ptr = block.ptr ∧ block'.capacity = block.capacity
  answered : ∀ request, memory.SizesFit (.acquire request) →
    (memory.acquire config request).1 ≠ .error .inProgress

/-- In every state that is reached while no size wraps, whatever the calls' outcomes, the buffers
that are out are disjoint, each in a slice of its own. -/
theorem reachable_leasesDisjoint (h : Reachable (step config) SizesFit initial memory) :
    LeasesDisjoint config memory := by
  obtain ⟨hm, hf⟩ := reachable_fitting (fun _ _ hfits => hfits) h
  refine ⟨?_, ?_, ?_, ?_, fun request hfits => acquire_ne_inProgress hm hf hfits⟩
  · intro block hblock
    exact ⟨tiles_iff_chain.mpr ⟨hm.chain hblock, fun slice hslice => (hf.sizes hblock hslice).1⟩,
      fun slice hslice => (hf.sizes hblock hslice).2⟩
  · intro lease hlease
    obtain ⟨block, hblock, slice, hslice, hbacks⟩ := backed_of_sound hm.sound hlease
    have hrequested := hf.sized.requested lease.lease (mem_map_of_mem hlease)
    exact ⟨block, hblock, slice, hslice, hbacks, hrequested.trans_eq hbacks.bytes⟩
  · exact pairwise_map.mp (leases_apart hm.sound hf.sized)
  · intro action memory' hstep block hblock hinUse block' hblock' hid
    exact hm.stays hstep hblock hblock' hid hinUse

/-- A configuration with small blocks. -/
def smallConfig : BufferConfig := ⟨0, 512, by decide, by decide⟩

def smallRequest (stream address : ℕ) : BufferRequest :=
  ⟨0, none, 100, stream, [], fun _ => none, address⟩

def onePool : BufferMemory := initial.commInit smallConfig 0 .vmm 512

def oneBuffer : BufferMemory := (onePool.acquire smallConfig (smallRequest 1 4096)).2

def twoBuffers : BufferMemory := (oneBuffer.acquire smallConfig (smallRequest 2 8192)).2

theorem sizesFit_small {memory : BufferMemory}
    (hchunk : (memory.findPool 0).map (·.chunkBytes) = some 512) (stream address : ℕ) :
    memory.SizesFit (.acquire (smallRequest stream address)) := by
  refine ⟨show RoundingFits 100 256 by decide, fun pool hpool _ => ?_⟩
  have hpool' : memory.findPool 0 = some pool := hpool
  rw [hpool'] at hchunk
  rw [show pool.chunkBytes = 512 from some.inj hchunk]
  show RoundingFits (alignUp 100) 512
  decide

theorem step_onePool : initial.step smallConfig (.commInit 0 .vmm 512) = some onePool := rfl

theorem step_oneBuffer :
    onePool.step smallConfig (.acquire (smallRequest 1 4096)) = some oneBuffer := by
  rw [step, if_pos (by decide +kernel), oneBuffer]

theorem step_twoBuffers :
    oneBuffer.step smallConfig (.acquire (smallRequest 2 8192)) = some twoBuffers := by
  rw [step, if_pos (by decide +kernel), twoBuffers]

theorem twoBuffers_disjoint :
    twoBuffers.leases.length = 2 ∧ LeasesDisjoint smallConfig twoBuffers := by
  refine ⟨by decide +kernel, reachable_leasesDisjoint (.step (.step (.step .start ?_
    step_onePool) ?_ step_oneBuffer) ?_ step_twoBuffers)⟩
  · exact fun _ => by decide
  · exact sizesFit_small (by decide +kernel) 1 4096
  · exact sizesFit_small (by decide +kernel) 2 8192

/-! ## A buffer is as large as asked for -/

/-- What is asked of a buffer: its size, and that it is inside its block. -/
def Enough (memory : BufferMemory) (bytes : ℕ) (handle : BufferHandle) : Prop :=
  bytes ≤ handle.bytes ∧ ∃ block ∈ memory.blocks, block.id = handle.block ∧
    block.ptr ≤ handle.ptr ∧ handle.ptr + handle.bytes ≤ block.ptr + block.capacity

theorem acquire_bytes (hm : memory.Managed) {handle : BufferHandle}
    (hok : (memory.acquire config request).1 = .ok handle) :
    request.alignedBytes ≤ handle.bytes ∧
      ∃ lease ∈ (memory.acquire config request).2.leases, lease.handle = handle := by
  have hanswered := @acquire_answered config memory hm.owners request
  rw [hok] at hanswered
  generalize (memory.acquire config request).2 = memory' at hanswered ⊢
  cases hanswered with
  | pool hpool _ hacquired => exact ⟨hacquired.bytes_le, _, mem_cons_self, rfl⟩

theorem le_alignedBytes (h : RoundingFits request.bytes kBufferAlignment) :
    request.bytes ≤ request.alignedBytes := by
  unfold BufferRequest.alignedBytes
  split
  · rename_i hzero
    exact hzero ▸ Nat.zero_le _
  · exact le_alignUpTo h

/-- A buffer is a multiple of the alignment, inside a block whose size is a number of 64 bits. -/
theorem Managed.lease_inside (hm : memory.Managed) (hlease : lease ∈ memory.leases) :
    kBufferAlignment ∣ lease.handle.bytes ∧ lease.handle.bytes ≤ sizeMax ∧
      ∃ block ∈ memory.blocks, block.id = lease.handle.block ∧ block.ptr ≤ lease.handle.ptr ∧
        lease.handle.ptr + lease.handle.bytes ≤ block.ptr + block.capacity := by
  obtain ⟨block, hblock, slice, hslice, hbacks⟩ := backed_of_sound hm.sound hlease
  have hinside := (hm.chain hblock).inside hslice
  have hcapacity := hm.capacity_le block hblock
  have hdvd := (hm.sound.region block.region (mem_map_of_mem hblock)).used_dvd slice.cell
    (mem_map_of_mem hslice)
  have hstatus : slice.cell.status = .leased := status_inUse hbacks.inUse
  rw [hbacks.bytes, hbacks.ptr]
  refine ⟨hdvd (by rw [hstatus]; nofun), by omega, block, hblock, hbacks.block_id, by omega, ?_⟩
  omega

/-- In every state of the pools, a buffer handed out is large enough exactly if the round-up of the
request to the alignment does not wrap; the later round-ups can only make the request fail. -/
theorem acquire_enough_iff
    (h : Reachable (step config) (fun _ _ => True) initial memory) {request : BufferRequest}
    (hbytes : request.bytes ≤ sizeMax) (haddress : memory.addressAvailable config request = true)
    {handle : BufferHandle} (hok : (memory.acquire config request).1 = .ok handle) :
    Enough (memory.acquire config request).2 request.bytes handle ↔
      RoundingFits request.bytes kBufferAlignment := by
  have hm := reachable_managed h
  obtain ⟨hle, lease, hlease, rfl⟩ := acquire_bytes hm hok
  have hm' : (memory.acquire config request).2.Managed :=
    step_managed hm (show memory.step config (.acquire request) = _ from if_pos haddress)
  obtain ⟨hdvd, hmax, hinside⟩ := hm'.lease_inside hlease
  refine ⟨fun henough => ?_, fun hfits => ⟨(le_alignedBytes hfits).trans hle, hinside⟩⟩
  -- the largest multiple of the alignment is below every request that wraps
  obtain ⟨k, hk⟩ := hdvd
  have hlarge := henough.1
  simp only [RoundingFits, kBufferAlignment, sizeMax] at *
  omega

theorem reachable_oneBuffer : Reachable (step smallConfig) (fun _ _ => True) initial oneBuffer :=
  .step (.step .start trivial step_onePool) trivial step_oneBuffer

theorem oneBuffer_enough :
    Enough (oneBuffer.acquire smallConfig (smallRequest 2 8192)).2 100 ⟨4352, 256, 0, 0, 2⟩ :=
  (@acquire_enough_iff smallConfig oneBuffer reachable_oneBuffer (smallRequest 2 8192) (by decide)
    (by decide +kernel) _ (by decide +kernel)).mpr (by decide)

/-- All of the memory the processor can name. -/
def hugeRequest : BufferRequest := ⟨0, none, sizeMax, 1, [], fun _ => none, 8192⟩

theorem hugeRequest_empty :
    Reachable (step smallConfig) (fun _ _ => True) initial oneBuffer ∧
    oneBuffer.addressAvailable smallConfig hugeRequest = true ∧
    (oneBuffer.acquire smallConfig hugeRequest).1 = .ok ⟨4352, 0, 0, 0, 2⟩ ∧
      ¬ Enough (oneBuffer.acquire smallConfig hugeRequest).2 hugeRequest.bytes
        ⟨4352, 0, 0, 0, 2⟩ := by
  refine ⟨reachable_oneBuffer, by decide +kernel, by decide +kernel, fun h => ?_⟩
  exact absurd h.1 (by decide)

/-! ## Memory is reused in stream order -/

theorem reachable_ordered (h : Reachable (step config) OwnStream initial memory) :
    memory.Managed ∧ Ordered memory.toState := by
  have hinitial : Ordered initial.toState := ⟨nofun, nofun, nofun, nofun⟩
  refine Reachable.invariant (I := fun m => m.Managed ∧ Ordered m.toState)
    ⟨managed_initial, hinitial⟩ (fun m action m' hm hown hstep => ?_) h
  exact ⟨step_managed hm.1 hstep,
    Moves.ordered (@step_moves config m m' action hm.1 False nofun hstep) hown hm.1.sound hm.2⟩

/-- A slice that is as large and in the same place. -/
def SameRange (slice slice' : BufferSlice) : Prop :=
  slice'.id = slice.id ∧ slice'.offset = slice.offset ∧ slice'.bytes = slice.bytes

/-- What is unfinished of what was done to the memory of a slice before it was given back. -/
def Unfinished (memory : BufferMemory) (block : Block) (slice : BufferSlice) (use : Use ℕ) : Prop :=
  use ∈ memory.uses ∧ use.region = block.id ∧ use.Overlaps slice.cell ∧
    ¬ Finished memory.seen use.record

/-- What holds of memory that was given back. -/
structure StreamOrdered (config : BufferConfig) (memory : BufferMemory) : Prop where
  order : ∀ lease ∈ memory.leases, ∀ block ∈ memory.blocks, ∀ slice ∈ block.slices,
    Backs block slice lease → ∀ use, memory.Unfinished block slice use →
      use.record.stream = lease.stream
  free : ∀ block ∈ memory.blocks, ∀ slice ∈ block.slices, slice.state = .free →
    ∀ use, ¬ memory.Unfinished block slice use
  kept : ∀ action memory', memory.OwnStream action → memory.step config action = some memory' →
    ∀ block ∈ memory.blocks, ∀ slice ∈ block.slices,
      (∃ block' ∈ memory'.blocks, block'.id = block.id ∧
        ∃ slice' ∈ block'.slices, SameRange slice slice') ∨
      ∀ use, ¬ memory'.Unfinished block slice use
  retry : ∀ handle stream outcome, (memory.release handle stream outcome).1.isSome = true →
    (memory.release handle stream outcome).2.leases = memory.leases ∧
      ∀ lease ∈ memory.leases, ∃ block ∈ (memory.release handle stream outcome).2.blocks,
        ∃ slice ∈ block.slices, Backs block slice lease

/-- A pending slice was given back on the stream it may be taken for; a leased one is used on the
lease's. -/
theorem order_of_ordered (ho : Ordered memory.toState) (hlease : lease ∈ memory.leases)
    (hblock : block ∈ memory.blocks) (hslice : slice ∈ block.slices)
    (hbacks : Backs block slice lease) {use : Use ℕ} (huse : memory.Unfinished block slice use) :
    use.record.stream = lease.stream := by
  obtain ⟨hmem, hregion, hoverlap, hunfinished⟩ := huse
  rcases ho.allows block.region (mem_map_of_mem hblock) slice.cell
    (mem_map_of_mem hslice) use hmem hregion hoverlap with hfinished | hexcused
  · exact absurd hfinished hunfinished
  · unfold Excused at hexcused
    have hstatus : slice.cell.status = .leased := status_inUse hbacks.inUse
    rw [hstatus] at hexcused
    exact hexcused lease.lease (mem_map_of_mem hlease) hbacks.block_id.symm hbacks.slice_id.symm

theorem free_of_ordered (ho : Ordered memory.toState) (hblock : block ∈ memory.blocks)
    (hslice : slice ∈ block.slices) (hfree : slice.state = .free) (use : Use ℕ) :
    ¬ memory.Unfinished block slice use := by
  rintro ⟨hmem, hregion, hoverlap, hunfinished⟩
  exact hunfinished ((ho.allows block.region (mem_map_of_mem hblock) slice.cell
    (mem_map_of_mem hslice) use hmem hregion hoverlap).finished (.inl (status_free hfree)))

/-- A release leaves every slice in its place. -/
theorem release_sameRange (handle : BufferHandle) (stream : ℕ)
    (outcome : DriverCall → Option NcclError) (hblock : block ∈ memory.blocks)
    (hslice : slice ∈ block.slices) :
    ∃ block' ∈ (memory.release handle stream outcome).2.blocks, block'.id = block.id ∧
      ∃ slice' ∈ block'.slices, SameRange slice slice' := by
  rcases release_form handle stream outcome with hsame | ⟨f, leases, uses, clock, hf, hform⟩
  · rw [hsame]
    exact ⟨block, hblock, rfl, slice, hslice, rfl, rfl, rfl⟩
  · rw [hform]
    change ∃ block' ∈ (memory.mapSlice handle.block handle.slice f).blocks, _
    rw [mapSlice, mapBlock_blocks]
    refine ⟨_, mem_map_of_mem hblock, ?_⟩
    by_cases hid : block.id = handle.block
    · rw [if_pos hid]
      refine ⟨rfl, _, mem_map_of_mem hslice, ?_⟩
      split
      · exact hf slice
      · exact ⟨rfl, rfl, rfl⟩
    · rw [if_neg hid]
      exact ⟨rfl, slice, hslice, rfl, rfl, rfl⟩

theorem kept_of_ordered (hm : memory.Managed) (ho : Ordered memory.toState)
    (hown : memory.OwnStream action) (hstep : memory.step config action = some memory')
    (hblock : block ∈ memory.blocks) (hslice : slice ∈ block.slices) :
    (∃ block' ∈ memory'.blocks, block'.id = block.id ∧
      ∃ slice' ∈ block'.slices, SameRange slice slice') ∨
    ∀ use, ¬ memory'.Unfinished block slice use := by
  rcases step_uses hm hstep with huses | ⟨handle, stream, outcome, -, rfl⟩
  · have hmoves := @step_moves config memory memory' action hm False nofun hstep
    rcases Moves.kept hmoves hown hm.sound ho huses block.region (mem_map_of_mem hblock)
      slice.cell (mem_map_of_mem hslice) with ⟨g, hg, hgid, c, hc, hkept⟩ | hfinished
    · obtain ⟨block', hblock', rfl⟩ := mem_map.mp hg
      obtain ⟨slice', hslice', rfl⟩ := mem_map.mp hc
      exact .inl ⟨block', hblock', hgid, slice', hslice', hkept⟩
    · right
      rintro use ⟨hmem, hregion, hoverlap, hunfinished⟩
      exact hunfinished (hfinished use hmem hregion hoverlap)
  · exact .inl (release_sameRange handle stream outcome hblock hslice)

/-- In every run in which handles are given back on their own stream, whatever the order in which
events complete and whatever calls fail, memory with unfinished work is only reused on the stream
of that work. -/
theorem reachable_streamOrdered (h : Reachable (step config) OwnStream initial memory) :
    StreamOrdered config memory := by
  obtain ⟨hm, ho⟩ := reachable_ordered h
  refine ⟨?_, ?_, ?_, ?_⟩
  · intro lease hlease block hblock slice hslice hbacks use huse
    exact order_of_ordered ho hlease hblock hslice hbacks huse
  · intro block hblock slice hslice hfree
    exact free_of_ordered ho hblock hslice hfree
  · intro action memory' hown hstep block hblock slice hslice
    exact kept_of_ordered hm ho hown hstep hblock hslice
  · intro handle stream outcome hfailed
    obtain ⟨hleases, hstate⟩ := release_failed hfailed
    refine ⟨hleases, fun lease hlease => ?_⟩
    exact backed_of_sound (hstate ▸ hm.sound) (hleases ▸ hlease)

def firstHandle : BufferHandle := ⟨4096, 256, 0, 0, 1⟩

def firstReleased : BufferMemory := (twoBuffers.release firstHandle 1 fun _ => none).2

/-- The event of the release has not been seen complete, and the slice is taken again on its
stream. -/
def firstReused : BufferMemory := (firstReleased.acquire smallConfig (smallRequest 1 8192)).2

theorem firstReused_streamOrdered :
    firstReused.leases.map (·.handle.ptr) = [4096, 4352] ∧ firstReused.uses.length = 1 ∧
      firstReused.seen = [] ∧ StreamOrdered smallConfig firstReused := by
  have hreleased : twoBuffers.step smallConfig (.release firstHandle 1 fun _ => none) =
      some firstReleased := by
    rw [step, if_pos (by decide +kernel), firstReleased]
  have hreused : firstReleased.step smallConfig (.acquire (smallRequest 1 8192)) =
      some firstReused := by
    rw [step, if_pos (by decide +kernel), firstReused]
  refine ⟨by decide +kernel, by decide +kernel, by decide +kernel, reachable_streamOrdered
    (.step (.step (.step (.step (.step .start ?_ step_onePool) ?_ step_oneBuffer) ?_
      step_twoBuffers) ?_ hreleased) ?_ hreused)⟩
  · exact trivial
  · exact trivial
  · exact trivial
  · have hown : ∀ lease ∈ twoBuffers.leases, lease.handle = firstHandle → 1 = lease.stream := by
      decide +kernel
    exact hown
  · exact trivial

end BufferMemory

end Coccl
