import Coccl.Memory.Manager

/-!
# The pools as an abstract allocator

The blocks are the regions of the abstract allocator and their slices its cells. What a pool's
function does is a sequence of its moves, whether its calls fail or not.
-/

namespace Coccl

open Leasing Block List BufferSlice

/-- The region of a block. -/
def Block.region (block : Block) : Region ℕ :=
  ⟨block.id, block.ptr, block.capacity, block.slices.map cell⟩

/-- The lease of a handle. -/
def BufferHandle.lease (handle : BufferHandle) (requested stream : ℕ) : Lease ℕ :=
  ⟨handle.block, handle.slice, handle.ptr, handle.bytes, requested, stream⟩

/-- The abstract state with these regions and what an environment has seen and given away. -/
def viewWith (base : State ℕ) (regions : List (Region ℕ)) (env : Env) : State ℕ :=
  { base with regions := regions, seen := env.seen, fresh := env.fresh }

/-- The state after an acquisition was answered. -/
def granted (base : State ℕ) (requested stream : ℕ) : Result BufferHandle → State ℕ
  | .ok handle => { base with leases := handle.lease requested stream :: base.leases }
  | .error _ => base

section

variable {own fits : Prop} {base : State ℕ} {A B : List (Region ℕ)}

theorem viewWith_advance {regions : List (Region ℕ)} {env env' : Env} (hseen : env.seen ⊆ env'.seen)
    (hfresh : env.fresh ≤ env'.fresh) :
    Moves kBufferAlignment own fits (viewWith base regions env) (viewWith base regions env') :=
  .single (@Move.advance _ _ own fits (viewWith base regions env) _ _ hseen hfresh)

theorem viewWith_lease {g : Region ℕ} {X Y : List (Cell ℕ)} {c : Cell ℕ} {requested stream : ℕ}
    {env : Env} (hstatus : c.status = .free ∨ ∃ r, c.status = .pending r ∧ r.stream = stream)
    (hunit : c.status = .free → kBufferAlignment ∣ c.size)
    (hrequested : fits → requested ≤ c.size) :
    Moves kBufferAlignment own fits (viewWith base (A ++ { g with cells := X ++ c :: Y } :: B) env)
      (viewWith { base with
          leases := ⟨g.id, c.id, g.base + c.offset, c.size, requested, stream⟩ :: base.leases }
        (A ++ { g with cells := X ++ { c with status := .leased } :: Y } :: B) env) :=
  .single (@Move.lease _ _ own fits (viewWith base (A ++ { g with cells := X ++ c :: Y } :: B) env)
    A B { g with cells := X ++ c :: Y } X Y c requested stream rfl rfl hstatus hunit
    hrequested)

variable {result : Option NcclError}

variable {env env' : Env} {registeredComm : Option ℕ}

theorem ensureRegistration_spec {block block' : Block}
    (h : block.ensureRegistration registeredComm env = (result, block', env')) :
    (∃ registrations, block' = { block with registrations := registrations }) ∧
      env'.seen = env.seen ∧ env.fresh ≤ env'.fresh ∧
      (result.isSome = true → block.registered registeredComm = false) ∧
      env'.address = env.address ∧ env'.driver.reserved = env.driver.reserved := by
  unfold ensureRegistration at h
  cases registeredComm with
  | none =>
    obtain ⟨rfl, rfl, rfl⟩ := h
    exact ⟨⟨_, rfl⟩, rfl, le_rfl, nofun, rfl, rfl⟩
  | some comm =>
    simp only at h
    split at h
    · obtain ⟨rfl, rfl, rfl⟩ := h
      exact ⟨⟨_, rfl⟩, rfl, le_rfl, nofun, rfl, rfl⟩
    · rename_i hany
      split at h
      · obtain ⟨rfl, rfl, rfl⟩ := h
        exact ⟨⟨_, rfl⟩, rfl, le_rfl, fun _ => Bool.eq_false_iff.mpr hany, rfl, rfl⟩
      · obtain ⟨rfl, rfl, rfl⟩ := h
        exact ⟨⟨_, rfl⟩, rfl, Nat.le_succ _, nofun, rfl, rfl⟩

/-- A free slice that was handed out and taken back is as it was. -/
theorem BufferSlice.cell_rollback {slice : BufferSlice} (h : slice.state = .free) :
    slice.take.rollback.cell = slice.cell := by
  unfold cell
  rw [status_free h]
  rfl

/-- The slice that was chosen may be leased to the stream. -/
theorem BufferSlice.status_chosen {slice : BufferSlice} {stream : ℕ} {allow : Bool}
    {bytes : ℕ} (h : slice.state = .free ∧ slice.bytes = bytes ∨ allow = true ∧
      slice.state = .pending ∧ slice.pendingStream = stream) :
    slice.cell.status = .free ∨ ∃ r, slice.cell.status = .pending r ∧ r.stream = stream := by
  rcases h with ⟨h, -⟩ | ⟨-, h, hstream⟩
  · exact .inl (status_free h)
  · obtain ⟨time, -, hstatus⟩ := status_pending h
    exact .inr ⟨_, hstatus, hstream⟩

theorem Block.acquire_moves {bytes : ℕ} (hunit : kBufferAlignment ∣ bytes) (hpos : fits → 0 < bytes)
    {requested : ℕ} (hrequested : fits → requested ≤ bytes) {block block' : Block} {allow : Bool}
    {registeredComm : Option ℕ} (hallow : allow = true → block.registered registeredComm = true)
    {stream ownerComm : ℕ} {env env' : Env} {result : Result BufferHandle}
    (h : block.acquire allow bytes registeredComm stream ownerComm env = (result, block', env')) :
    Moves kBufferAlignment own fits (viewWith base (A ++ block.region :: B) env)
      (viewWith (granted base requested stream result) (A ++ block'.region :: B) env') := by
  unfold acquire at h
  rcases hchoose : chooseSlice bytes stream allow env.fresh
    (mergeFreeSlices block.slices env.queries).1 (mergeFreeSlices block.slices env.queries).2 with
    ⟨before, found, queries⟩
  have hmerged := mergeFreeSlices_seen block.slices env.queries
  have hseen := chooseSlice_seen bytes stream allow env.fresh
    (mergeFreeSlices block.slices env.queries).1 (mergeFreeSlices block.slices env.queries).2
  rw [hchoose] at hseen
  -- the records seen on the way are seen first
  have hmoves : Moves kBufferAlignment own fits (viewWith base (A ++ block.region :: B) env)
      (viewWith base (A ++ { block.region with cells := chosenCells (before, found, queries) } :: B)
        { env.setQueries queries with fresh := env.fresh + 1 }) := by
    have hadvance : Moves kBufferAlignment own fits (viewWith base (A ++ block.region :: B) env)
        (viewWith base (A ++ block.region :: B) (env.setQueries queries)) :=
      viewWith_advance (List.Subset.trans hmerged hseen) le_rfl
    have hmerge := @mergeFreeSlices_moves own fits (viewWith base [] (env.setQueries queries)) A B
      block.region block.slices env.queries hseen
    have hchosen := @chooseSlice_moves own fits (viewWith base [] (env.setQueries queries)) A B
      block.region bytes hunit hpos stream allow (mergeFreeSlices block.slices env.queries).1
      (mergeFreeSlices block.slices env.queries).2 []
    simp only [viewWith, Env.setQueries, hchoose] at hchosen
    exact (hadvance.trans hmerge).trans (hchosen (List.Subset.refl _))
  cases found with
  | none =>
    simp only [hchoose] at h
    obtain ⟨rfl, rfl, rfl⟩ := h
    rw [chosenCells, append_nil] at hmoves
    exact hmoves
  | some chosenAfter =>
    obtain ⟨chosen, after⟩ := chosenAfter
    obtain ⟨hbytes, hstate⟩ := chooseSlice_chosen (congrArg (fun r => r.2.1) hchoose)
    have hdvd : chosen.cell.status = .free → kBufferAlignment ∣ chosen.cell.size := by
      intro hfree
      rcases hstate with ⟨-, hsize⟩ | ⟨-, hpending, -⟩
      · show kBufferAlignment ∣ chosen.bytes
        rw [hsize]
        exact hunit
      · obtain ⟨time, -, hstatus⟩ := status_pending hpending
        exact absurd (hfree.symm.trans hstatus) nofun
    simp only [hchoose] at h
    rcases hregister : block.ensureRegistration registeredComm
      { env.setQueries queries with fresh := env.fresh + 1 } with ⟨_ | e, block₁, env₁⟩ <;>
      obtain ⟨⟨registrations, rfl⟩, hsame, hle, hregistered, -⟩ :=
        ensureRegistration_spec hregister <;>
      have hmoves := hmoves.trans (viewWith_advance (hsame ▸ List.Subset.refl _) hle) <;>
      simp only [hregister] at h <;> obtain ⟨rfl, rfl, rfl⟩ := h <;>
      simp only [granted, region, map_append, map_cons]
    · exact hmoves.trans (@viewWith_lease own fits base A B block.region (before.map cell)
        (after.map cell) chosen.cell requested stream env'
        (status_chosen hstate) hdvd fun hfits => (hrequested hfits).trans hbytes)
    · have hfree := (hstate.resolve_right fun hpending => by
        rw [hallow hpending.1] at hregistered
        exact absurd (hregistered rfl) (by decide)).1
      rw [cell_rollback hfree]
      exact hmoves

/-- The first block with room, or none. -/
theorem acquireFromBlocks_moves {bytes : ℕ} (hunit : kBufferAlignment ∣ bytes)
    (hpos : fits → 0 < bytes) {requested : ℕ} (hrequested : fits → requested ≤ bytes)
    {registeredComm : Option ℕ} {stream ownerComm : ℕ} {blocks blocks' : List Block}
    {env env' : Env} {result : Option (Result BufferHandle)}
    (h : acquireFromBlocks bytes registeredComm stream ownerComm blocks env =
      (result, blocks', env')) :
    Moves kBufferAlignment own fits (viewWith base (A ++ (blocks.map region ++ B)) env)
      (viewWith (granted base requested stream (result.getD (.error .inProgress)))
        (A ++ (blocks'.map region ++ B)) env') := by
  induction blocks generalizing A env blocks' with
  | nil =>
    obtain ⟨rfl, rfl, rfl⟩ := h
    exact .refl
  | cons block rest ih =>
    unfold acquireFromBlocks at h
    rcases hacquire : block.acquire (block.registered registeredComm) bytes registeredComm stream
      ownerComm env with ⟨answer, block₁, env₁⟩
    have hmoves := @acquire_moves own fits base A (rest.map region ++ B) bytes hunit hpos
      requested hrequested block block₁ _ registeredComm id stream ownerComm env env₁
      answer hacquire
    simp only [hacquire] at h
    split at h
    · rename_i henv₁
      obtain ⟨rfl, rfl, rfl⟩ := henv₁
      rcases hrest : acquireFromBlocks bytes registeredComm stream ownerComm rest env₁ with
        ⟨result', rest', env₂⟩
      simp only [hrest] at h
      obtain ⟨rfl, rfl, rfl⟩ := h
      have hlater := @ih (A ++ [block₁.region]) _ _ hrest
      rw [append_assoc, append_assoc] at hlater
      exact hmoves.trans hlater
    · rename_i hanswer
      obtain ⟨rfl, rfl, rfl⟩ := hanswer
      obtain ⟨rfl, rfl, rfl⟩ := h
      exact hmoves

/-! ### Growth -/

variable {outcome : DriverCall → Option NcclError}

theorem waitForBlock_seen {slices slices' : List BufferSlice} {seen seen' : List (Record ℕ)}
    {ok : Bool} (h : waitForBlock outcome slices seen = (ok, slices', seen')) : seen ⊆ seen' := by
  induction slices generalizing slices' seen with
  | nil =>
    obtain ⟨rfl, rfl, rfl⟩ := h
    exact List.Subset.refl _
  | cons slice rest ih =>
    unfold waitForBlock at h
    split at h
    · split at h
      · obtain ⟨rfl, rfl, rfl⟩ := h
        exact List.Subset.refl _
      · obtain ⟨rfl, rfl, rfl⟩ := h
        exact List.Subset.trans (subset_append_right _ _) (ih rfl)
    · obtain ⟨rfl, rfl, rfl⟩ := h
      exact ih rfl

/-- Slices are settled in order. -/
theorem waitForBlock_moves {outcome : DriverCall → Option NcclError}
    {slices slices' : List BufferSlice} {seen seen' : List (Record ℕ)} {ok : Bool}
    {state : State ℕ} {g : Region ℕ} {X : List (Cell ℕ)}
    (h : waitForBlock outcome slices seen = (ok, slices', seen')) (hseen : seen' ⊆ state.seen) :
    Moves kBufferAlignment own fits (state.setCells A g B (X ++ slices.map cell))
      (state.setCells A g B (X ++ slices'.map cell)) := by
  induction slices generalizing slices' seen X with
  | nil =>
    obtain ⟨rfl, rfl, rfl⟩ := h
    exact .refl
  | cons slice rest ih =>
    unfold waitForBlock at h
    split at h
    · rename_i hpending
      split at h
      · obtain ⟨rfl, rfl, rfl⟩ := h
        exact .refl
      · rcases hrest : waitForBlock outcome rest (slice.doneEvent.records ++ seen) with
          ⟨ok', rest', seen''⟩
        simp only [hrest] at h
        obtain ⟨rfl, rfl, rfl⟩ := h
        have hlater := @ih _ _ (X ++ [slice.settle.cell]) hrest
        rw [append_assoc, append_assoc] at hlater
        have hrecords : slice.doneEvent.records ⊆ state.seen :=
          List.Subset.trans (subset_append_left _ _)
            (List.Subset.trans (waitForBlock_seen hrest) hseen)
        exact (settle_moves hpending hrecords X _).trans hlater
    · rcases hrest : waitForBlock outcome rest seen with ⟨ok', rest', seen''⟩
      simp only [hrest] at h
      obtain ⟨rfl, rfl, rfl⟩ := h
      have hlater := @ih _ _ (X ++ [slice.cell]) hrest
      rw [append_assoc, append_assoc] at hlater
      exact hlater

/-- After a wait that succeeds, slices that are not handed out are free. -/
theorem waitForBlock_free {slices slices' : List BufferSlice} {seen seen' : List (Record ℕ)}
    (h : waitForBlock outcome slices seen = (true, slices', seen'))
    (hunused : ∀ slice ∈ slices, slice.state ≠ .inUse) :
    ∀ slice ∈ slices', slice.state = .free := by
  induction slices generalizing slices' seen with
  | nil =>
    obtain ⟨-, rfl, -⟩ := h
    exact nofun
  | cons slice rest ih =>
    obtain ⟨hslice, hunused⟩ := forall_mem_cons.mp hunused
    unfold waitForBlock at h
    split at h
    · split at h
      · cases h
      · rcases hrest : waitForBlock outcome rest (slice.doneEvent.records ++ seen) with
          ⟨ok', rest', seen''⟩
        simp only [hrest] at h
        obtain ⟨rfl, rfl, rfl⟩ := h
        exact forall_mem_cons.mpr ⟨rfl, ih hrest hunused⟩
    · rename_i hpending
      rcases hrest : waitForBlock outcome rest seen with ⟨ok', rest', seen''⟩
      simp only [hrest] at h
      obtain ⟨rfl, rfl, rfl⟩ := h
      refine forall_mem_cons.mpr ⟨?_, ih hrest hunused⟩
      cases hstate : slice.state with
      | free => rfl
      | inUse => exact absurd hstate hslice
      | pending => exact absurd hstate hpending

/-- A growth that gets as far as the block's registrations. -/
structure GrowthReady (block : Block) (chunkBytes newCapacity : ℕ) (env : Env)
    (slices : List BufferSlice) (seen : List (Record ℕ)) (handles : ℕ) (failed : Option NcclError)
    (driver : Driver) : Prop where
  device : env.cudaCheck .growSetDevice = none
  wait : waitForBlock env.outcome block.slices env.seen = (true, slices, seen)
  reserve : env.cudaCheck .addressReserve = none
  handles_eq : handles = block.handles +
    chunksDone env .memCreate block.handles (newCapacity / chunkBytes - block.handles)
  created : newCapacity / chunkBytes ≤ handles
  deregister : deregisterAll { env with seen := seen } block.registrations
    (env.driver.reserve env.address newCapacity) = (failed, driver)

/-- A call fails while the chunks are mapped at the new address. -/
abbrev RemapFails (env : Env) (chunks : ℕ) : Prop :=
  chunksDone env .memMap 0 chunks < chunks ∨ (env.cudaCheck .setAccess).isSome ∨
    (env.cudaCheck .addressFree).isSome

/-- How far a growth gets. -/
inductive Growth (block : Block) (chunkBytes newCapacity : ℕ) (env : Env) :
    Option NcclError → Block → Env → Prop where
  | setDevice {e : NcclError} (hdevice : env.cudaCheck .growSetDevice = some e) :
      Growth block chunkBytes newCapacity env (some e) block env
  | wait {slices : List BufferSlice} {seen : List (Record ℕ)}
      (hwait : waitForBlock env.outcome block.slices env.seen = (false, slices, seen)) :
      Growth block chunkBytes newCapacity env (some .unhandledCudaError)
        { block with slices := slices } { env with seen := seen }
  | reserve {slices : List BufferSlice} {seen : List (Record ℕ)} {e : NcclError}
      (hwait : waitForBlock env.outcome block.slices env.seen = (true, slices, seen))
      (hreserve : env.cudaCheck .addressReserve = some e) :
      Growth block chunkBytes newCapacity env (some e) { block with slices := slices }
        { env with seen := seen }
  | create {slices : List BufferSlice} {seen : List (Record ℕ)} {handles : ℕ}
      (hwait : waitForBlock env.outcome block.slices env.seen = (true, slices, seen))
      (hhandles : handles = block.handles +
        chunksDone env .memCreate block.handles (newCapacity / chunkBytes - block.handles))
      (hlt : handles < newCapacity / chunkBytes) :
      Growth block chunkBytes newCapacity env (some .unhandledCudaError)
        { block with slices := slices, handles := handles } { env with seen := seen }
  | deregister {slices : List BufferSlice} {seen : List (Record ℕ)} {handles : ℕ} {driver : Driver}
      {e : NcclError}
      (hready : GrowthReady block chunkBytes newCapacity env slices seen handles (some e) driver) :
      Growth block chunkBytes newCapacity env (some e)
        { block with slices := slices, handles := handles }
        { env with seen := seen, driver := driver }
  | unmap {slices : List BufferSlice} {seen : List (Record ℕ)} {handles : ℕ} {driver : Driver}
      {e : NcclError}
      (hready : GrowthReady block chunkBytes newCapacity env slices seen handles none driver)
      (hunmap : env.cudaCheck .memUnmap = some e) :
      Growth block chunkBytes newCapacity env (some e)
        { block with slices := slices, handles := handles, registrations := [] }
        { env with seen := seen, driver := driver }
  | remap {slices : List BufferSlice} {seen : List (Record ℕ)} {handles : ℕ} {driver : Driver}
      (hready : GrowthReady block chunkBytes newCapacity env slices seen handles none driver)
      (hunmap : env.cudaCheck .memUnmap = none)
      (hfailed : RemapFails env (newCapacity / chunkBytes)) :
      Growth block chunkBytes newCapacity env (some .unhandledCudaError)
        { block with slices := slices, handles := handles, registrations := [] }
        { env with
          seen := seen
          driver := (driver.unmap block.ptr block.capacity).map env.address
            (chunksDone env .memMap 0 (newCapacity / chunkBytes) * chunkBytes) }
  | done {slices : List BufferSlice} {seen : List (Record ℕ)} {handles : ℕ} {driver : Driver}
      (hready : GrowthReady block chunkBytes newCapacity env slices seen handles none driver)
      (hunmap : env.cudaCheck .memUnmap = none)
      (hdone : ¬ RemapFails env (newCapacity / chunkBytes)) :
      Growth block chunkBytes newCapacity env none
        { block with
          ptr := env.address
          capacity := newCapacity
          slices := [.initial env.fresh 0 newCapacity]
          handles := handles
          registrations := [] }
        { env with
          seen := seen
          fresh := env.fresh + 1
          driver := ((driver.unmap block.ptr block.capacity).map env.address
            (chunksDone env .memMap 0 (newCapacity / chunkBytes) * chunkBytes)).release block.ptr
              block.capacity }

theorem growBlock_growth {block block' : Block} {chunkBytes requested : ℕ}
    (h : block.growBlock chunkBytes requested env = (result, block', env')) :
    Growth block chunkBytes (alignUpTo requested chunkBytes) env result block' env' := by
  unfold growBlock at h
  split at h
  · rename_i hdevice
    obtain ⟨rfl, rfl, rfl⟩ := h
    exact .setDevice hdevice
  · rename_i hdevice
    split at h
    · rename_i hwait
      obtain ⟨rfl, rfl, rfl⟩ := h
      exact .wait hwait
    · rename_i hwait
      unfold growSettled at h
      split at h
      · rename_i hreserve
        obtain ⟨rfl, rfl, rfl⟩ := h
        exact .reserve hwait hreserve
      · rename_i hreserve
        simp only at h
        split at h
        · rename_i hlt
          obtain ⟨rfl, rfl, rfl⟩ := h
          exact .create hwait rfl hlt
        · rename_i hcreated
          have hcreated := not_lt.mp hcreated
          split at h
          · rename_i hderegister
            obtain ⟨rfl, rfl, rfl⟩ := h
            exact .deregister ⟨hdevice, hwait, hreserve, rfl, hcreated, hderegister⟩
          · rename_i hderegister
            have hready := GrowthReady.mk hdevice hwait hreserve rfl hcreated hderegister
            unfold remap at h
            split at h
            · rename_i hunmap
              obtain ⟨rfl, rfl, rfl⟩ := h
              exact .unmap hready hunmap
            · rename_i hunmap
              simp only at h
              split at h
              · rename_i hfailed
                obtain ⟨rfl, rfl, rfl⟩ := h
                exact .remap hready hunmap hfailed
              · rename_i hdone
                obtain ⟨rfl, rfl, rfl⟩ := h
                exact .done hready hunmap hdone

/-- Every pending slice that was waited for is settled. -/
theorem waited_moves {block : Block} {env : Env} {ok : Bool} {slices : List BufferSlice}
    {seen : List (Record ℕ)}
    (hwait : waitForBlock outcome block.slices env.seen = (ok, slices, seen)) :
    Moves kBufferAlignment own fits (viewWith base (A ++ block.region :: B) env)
      (viewWith base (A ++ ({ block with slices := slices } : Block).region :: B)
        { env with seen := seen }) :=
  (@viewWith_advance own fits base _ env { env with seen := seen } (waitForBlock_seen hwait)
    le_rfl).trans (@waitForBlock_moves own fits A B outcome block.slices slices env.seen seen ok
      (viewWith base [] { env with seen := seen }) block.region [] hwait (List.Subset.refl _))

theorem growBlock_moves {block block' : Block} {chunkBytes newCapacity : ℕ}
    (hgrow : block.canGrow = true) (hsize : fits → 0 < newCapacity ∧ kBufferAlignment ∣ newCapacity)
    (hapart : fits → ∀ h ∈ A ++ B, env.address + newCapacity ≤ h.base ∨
      h.base + h.size ≤ env.address)
    (h : Growth block chunkBytes newCapacity env result block' env') :
    Moves kBufferAlignment own fits (viewWith base (A ++ block.region :: B) env)
      (viewWith base (A ++ block'.region :: B) env') := by
  cases h with
  | setDevice hdevice => exact .refl
  | wait hwait | reserve hwait _ | create hwait _ _ => exact waited_moves hwait
  | deregister hready | unmap hready _ | remap hready _ _ => exact waited_moves hready.wait
  | @done slices seen handles driver hready _ _ =>
    have hfree : ∀ c ∈ slices.map cell, c.status = .free := by
      intro c hc
      obtain ⟨slice, hslice, rfl⟩ := mem_map.mp hc
      refine status_free (waitForBlock_free hready.wait ?_ slice hslice)
      simpa [canGrow] using hgrow
    have hreset := @Move.reset _ kBufferAlignment own fits
      (viewWith base (A ++ ({ block with slices := slices } : Block).region :: B)
        { env with seen := seen }) A B _ env.address newCapacity rfl hfree hsize
      hapart
    exact (waited_moves hready.wait).tail hreset

end

/-! ## Places

Handing out slices leaves the blocks where they are. -/

def Block.place (block : Block) : ℕ × ℕ × ℕ := (block.id, block.ptr, block.capacity)

/-- What holds of the ranges of all regions, if the blocks of a pool stay in place. -/
theorem forall_range_of_place {R : ℕ → ℕ → Prop} {blocks blocks' : List Block}
    {A B : List (Region ℕ)} (h : ∀ g ∈ A ++ (blocks.map region ++ B), R g.base g.size)
    (hplace : blocks'.map place = blocks.map place) :
    ∀ g ∈ A ++ (blocks'.map region ++ B), R g.base g.size := by
  intro g hg
  simp only [mem_append, mem_map] at h hg
  rcases hg with hg | ⟨block', hblock', rfl⟩ | hg
  · exact h g (.inl hg)
  · have hmem : block'.place ∈ blocks.map place := hplace ▸ mem_map_of_mem hblock'
    obtain ⟨block, hblock, heq⟩ := mem_map.mp hmem
    obtain ⟨-, hptr, hcapacity⟩ : block.id = block'.id ∧ block.ptr = block'.ptr ∧
        block.capacity = block'.capacity := by simpa [place] using heq
    have hrange := h block.region (.inr (.inl ⟨block, hblock, rfl⟩))
    simp only [region] at hrange ⊢
    rwa [← hptr, ← hcapacity]
  · exact h g (.inr (.inr hg))

/-- No region meets these addresses. -/
def Clear (address bytes : ℕ) (regions : List (Region ℕ)) : Prop :=
  ∀ g ∈ regions, address + bytes ≤ g.base ∨ g.base + g.size ≤ address

def Driver.HoldsRange (driver : Driver) (base size : ℕ) : Prop :=
  0 < size ∧ ∀ a, base ≤ a → a < base + size → driver.reserved a = true

/-- Regions lie on reserved addresses. -/
def Driver.Holds (driver : Driver) (regions : List (Region ℕ)) : Prop :=
  ∀ g ∈ regions, driver.HoldsRange g.base g.size

theorem Clear.of_place {address bytes : ℕ} {blocks blocks' : List Block} {A B : List (Region ℕ)}
    (h : Clear address bytes (A ++ (blocks.map region ++ B)))
    (hplace : blocks'.map place = blocks.map place) :
    Clear address bytes (A ++ (blocks'.map region ++ B)) :=
  @forall_range_of_place (fun base size => address + bytes ≤ base ∨ base + size ≤ address) _ _ _ _
    h hplace

theorem Driver.Holds.of_place {driver : Driver} {blocks blocks' : List Block}
    {A B : List (Region ℕ)} (h : driver.Holds (A ++ (blocks.map region ++ B)))
    (hplace : blocks'.map place = blocks.map place) :
    driver.Holds (A ++ (blocks'.map region ++ B)) :=
  @forall_range_of_place driver.HoldsRange _ _ _ _ h hplace

theorem Block.acquire_place {block block' : Block} {allow : Bool} {bytes : ℕ} {stream ownerComm : ℕ}
    {result : Result BufferHandle}
    (h : block.acquire allow bytes registeredComm stream ownerComm env = (result, block', env')) :
    block'.place = block.place ∧ env'.address = env.address ∧
      env'.driver.reserved = env.driver.reserved := by
  unfold acquire at h
  simp only at h
  split at h
  · obtain ⟨-, rfl, rfl⟩ := h
    exact ⟨rfl, rfl, rfl⟩
  · split at h <;> rename_i hregister <;>
      obtain ⟨⟨registrations, rfl⟩, -, -, -, hsame⟩ := ensureRegistration_spec hregister <;>
      obtain ⟨-, rfl, rfl⟩ := h <;> exact ⟨rfl, hsame⟩

theorem acquireFromBlocks_place {bytes : ℕ} {stream ownerComm : ℕ} {blocks blocks' : List Block}
    {result : Option (Result BufferHandle)}
    (h : acquireFromBlocks bytes registeredComm stream ownerComm blocks env =
      (result, blocks', env')) :
    blocks'.map place = blocks.map place ∧ env'.address = env.address ∧
      env'.driver.reserved = env.driver.reserved := by
  induction blocks generalizing env blocks' with
  | nil =>
    obtain ⟨-, rfl, rfl⟩ := h
    exact ⟨rfl, rfl, rfl⟩
  | cons block rest ih =>
    unfold acquireFromBlocks at h
    split at h <;> rename_i hacquire <;>
      obtain ⟨hplace, haddress, hreserved⟩ := acquire_place hacquire <;>
      obtain ⟨-, rfl, rfl⟩ := h
    · obtain ⟨hrest, haddress', hreserved'⟩ := ih rfl
      exact ⟨by rw [map_cons, map_cons, hrest, hplace], haddress'.trans haddress,
        hreserved'.trans hreserved⟩
    · exact ⟨by rw [map_cons, map_cons, hplace], haddress, hreserved⟩

end Coccl
