import Coccl.Basic
import Coccl.Foundations.Ledger
import Coccl.Foundations.Transitions
import Mathlib.Data.List.AList

/-!
# What a policy holds for its plugin

A compressor policy keeps buffers and plugin states per device until the runtime releases the
device. The calls it makes are given by how they turn out; ledgers hold the allocations and the
states constructed. Nothing goes astray (`ResourcesKept`), as long as no buffer is freed without
being replaced and no device is released while a state could not be constructed.
-/

namespace Coccl

open Transitions Ledger AList

/-- Entries by key. -/
abbrev Keyed (ν : Type) := AList fun _ : ℕ => ν

structure PersistentBuffer where
  data : Option ℕ
  bytes : ℕ
  deriving DecidableEq, Repr

/-- A plugin's state, with the destructor it was made for. -/
structure StateEntry where
  data : Option ℕ
  destroy : Option ℕ
  deriving DecidableEq, Repr

structure DeviceResources where
  persistent : Keyed PersistentBuffer
  states : Keyed StateEntry

structure CompressorPolicy where
  resources : Keyed DeviceResources

/-- What CUDA and the plugin hold. A plugin's state is known by its address and its destructor. -/
structure Outside where
  allocations : Ledger ℕ ℕ
  objects : Ledger (Option ℕ × Option ℕ) Unit

namespace Outside

variable (outside : Outside)

/-- `cudaFree`, and whether it succeeds. -/
def cudaFree (ok : Bool) : Option ℕ → Bool × Outside
  | none => (true, outside)
  | some p =>
    if ok then (true, { outside with allocations := outside.allocations.discharge p })
    else (false, outside)

def cudaMalloc (p bytes : ℕ) : Outside :=
  { outside with allocations := outside.allocations.enter p bytes }

def construct (state destroy : ℕ) : Outside :=
  { outside with objects := outside.objects.enter (some state, some destroy) () }

/-- The call `entry.destroy(entry.data)`. -/
def destroy (entry : StateEntry) : Outside :=
  { outside with objects := outside.objects.discharge (entry.data, entry.destroy) }

end Outside

open Outside

variable {typeKey slot s p : ℕ} {e : Σ _ : ℕ, StateEntry}

namespace CompressorPolicy

variable (policy : CompressorPolicy) (cudaDev : ℕ)

/-- `resources[cudaDev]`, empty if there is none. -/
def device : DeviceResources := (policy.resources.lookup cudaDev).getD ⟨∅, ∅⟩

def setBuffer (slot : ℕ) (buffer : PersistentBuffer) : CompressorPolicy :=
  let device := policy.device cudaDev
  ⟨policy.resources.insert cudaDev
    { device with persistent := device.persistent.insert slot buffer }⟩

def setState (typeKey : ℕ) (entry : StateEntry) : CompressorPolicy :=
  let device := policy.device cudaDev
  ⟨policy.resources.insert cudaDev { device with states := device.states.insert typeKey entry }⟩

/-- The buffer of a slot. Looking for it leaves an empty one in the map. -/
def persistent (slot : ℕ) : PersistentBuffer :=
  ((policy.device cudaDev).persistent.lookup slot).getD ⟨none, 0⟩

def entry (typeKey : ℕ) : StateEntry :=
  ((policy.device cudaDev).states.lookup typeKey).getD ⟨none, none⟩

/-- A buffer that is too small is freed before its successor is allocated. -/
def acquirePersistent (slot bytes : ℕ) (freeOk : Bool) (malloc : Option ℕ) (outside : Outside) :
    Result PersistentBuffer × CompressorPolicy × Outside :=
  let persistent := policy.persistent cudaDev slot
  let touched := policy.setBuffer cudaDev slot persistent
  if persistent.bytes < bytes then
    match outside.cudaFree freeOk persistent.data with
    | (false, outside) => (.error .unhandledCudaError, touched, outside)
    | (true, outside) =>
      match malloc with
      | none => (.error .unhandledCudaError, touched, outside)
      | some p =>
        (.ok ⟨some p, bytes⟩, policy.setBuffer cudaDev slot ⟨some p, bytes⟩,
          outside.cudaMalloc p bytes)
  else (.ok persistent, touched, outside)

/-- A state is constructed the first time it is asked for. -/
def getOrCreateState (typeKey destroyState : ℕ) (created : Option ℕ) (outside : Outside) :
    Result (Option ℕ) × CompressorPolicy × Outside :=
  let entry := policy.entry cudaDev typeKey
  match entry.data with
  | some p => (.ok (some p), policy.setState cudaDev typeKey entry, outside)
  | none =>
    match created with
    | none => (.error .systemError, policy.setState cudaDev typeKey entry, outside)
    | some p =>
      (.ok (some p), policy.setState cudaDev typeKey ⟨some p, some destroyState⟩,
        outside.construct p destroyState)

/-- Buffers are freed one after the other; one that cannot be is passed over. -/
def freeBuffers (freeOk : ℕ → Bool) : List (Σ _ : ℕ, PersistentBuffer) → Outside → Bool × Outside
  | [], outside => (true, outside)
  | ⟨slot, buffer⟩ :: rest, outside =>
    match outside.cudaFree (freeOk slot) buffer.data with
    | (ok, outside) =>
      match freeBuffers freeOk rest outside with
      | (result, outside) => (ok && result, outside)

/-- What `cocclCompressorRuntimeDestroy` does with a policy, once the device has no communicator. -/
def releaseDevice (freeOk : ℕ → Bool) (outside : Outside) : Bool × CompressorPolicy × Outside :=
  match policy.resources.lookup cudaDev with
  | none => (true, policy, outside)
  | some resources =>
    let outside := resources.states.entries.foldl (fun o e => o.destroy e.2) outside
    match freeBuffers freeOk resources.persistent.entries outside with
    | (result, outside) => (result, ⟨policy.resources.erase cudaDev⟩, outside)

/-! ## Fields after an update -/

variable {policy} {cudaDev} {d : ℕ} {resources : DeviceResources}

theorem device_insert : (⟨policy.resources.insert cudaDev resources⟩ : CompressorPolicy).device d =
      if d = cudaDev then resources else policy.device d := by
  unfold device
  obtain rfl | hd := eq_or_ne d cudaDev
  · simp
  · simp [hd]

theorem device_erase : (⟨policy.resources.erase cudaDev⟩ : CompressorPolicy).device d =
      if d = cudaDev then ⟨∅, ∅⟩ else policy.device d := by
  unfold device
  obtain rfl | hd := eq_or_ne d cudaDev
  · simp
  · simp [hd]

variable {buffer : PersistentBuffer} {k : ℕ}

@[simp] theorem entry_setBuffer :
    (policy.setBuffer cudaDev slot buffer).entry d k = policy.entry d k := by
  unfold entry setBuffer
  rw [device_insert]
  by_cases hd : d = cudaDev <;> simp [hd]

@[simp] theorem persistent_setState {e : StateEntry} :
    (policy.setState cudaDev typeKey e).persistent d s = policy.persistent d s := by
  unfold persistent setState
  rw [device_insert]
  by_cases hd : d = cudaDev <;> simp [hd]

theorem persistent_setBuffer : (policy.setBuffer cudaDev slot buffer).persistent d s =
      if d = cudaDev ∧ s = slot then buffer else policy.persistent d s := by
  unfold persistent setBuffer
  rw [device_insert]
  obtain rfl | hs := eq_or_ne s slot <;> by_cases hd : d = cudaDev <;> simp_all

theorem entry_setState {e : StateEntry} :
    (policy.setState cudaDev typeKey e).entry d k =
      if d = cudaDev ∧ k = typeKey then e else policy.entry d k := by
  unfold entry setState
  rw [device_insert]
  obtain rfl | hk := eq_or_ne k typeKey <;> by_cases hd : d = cudaDev <;> simp_all

/-- Writing back what is there changes nothing. -/
@[simp] theorem persistent_touch :
    (policy.setBuffer cudaDev slot (policy.persistent cudaDev slot)).persistent d s =
      policy.persistent d s := by
  rw [persistent_setBuffer, ite_eq_right_iff]
  rintro ⟨rfl, rfl⟩
  rfl

@[simp] theorem entry_touch :
    (policy.setState cudaDev typeKey (policy.entry cudaDev typeKey)).entry d k =
      policy.entry d k := by
  rw [entry_setState, ite_eq_right_iff]
  rintro ⟨rfl, rfl⟩
  rfl

theorem persistent_erase :
    (⟨policy.resources.erase cudaDev⟩ : CompressorPolicy).persistent d s =
      if d = cudaDev then ⟨none, 0⟩ else policy.persistent d s := by
  unfold persistent
  rw [device_erase]
  split <;> rfl

theorem entry_erase : (⟨policy.resources.erase cudaDev⟩ : CompressorPolicy).entry d k =
      if d = cudaDev then ⟨none, none⟩ else policy.entry d k := by
  unfold entry
  rw [device_erase]
  split <;> rfl

section

variable (hresources : policy.resources.lookup cudaDev = some resources)

include hresources

theorem persistent_of_mem {e : Σ _ : ℕ, PersistentBuffer} (he : e ∈ resources.persistent.entries) :
    policy.persistent cudaDev e.1 = e.2 := by
  have hlookup : resources.persistent.lookup e.1 = some e.2 := mem_lookup_iff.mpr he
  simp [persistent, device, hresources, hlookup]

theorem entry_of_mem (he : e ∈ resources.states.entries) : policy.entry cudaDev e.1 = e.2 := by
  have hlookup : resources.states.lookup e.1 = some e.2 := mem_lookup_iff.mpr he
  simp [entry, device, hresources, hlookup]

/-- A state that is there is among the entries. -/
theorem mem_of_entry (hdata : (policy.entry cudaDev k).data = some p) :
    (⟨k, policy.entry cudaDev k⟩ : Σ _ : ℕ, StateEntry) ∈ resources.states.entries := by
  cases hlookup : resources.states.lookup k with
  | none => simp [entry, device, hresources, hlookup] at hdata
  | some e =>
    have hentry : policy.entry cudaDev k = e := by simp [entry, device, hresources, hlookup]
    rw [hentry]
    exact mem_lookup_iff.mp hlookup

end

/-! ## What a release gives back -/

theorem destroy_foldl (entries : List (Σ _ : ℕ, StateEntry)) (outside : Outside) :
    entries.foldl (fun o e => o.destroy e.2) outside = { outside with
        objects := outside.objects.dischargeAll
          (entries.map fun e => (e.2.data, e.2.destroy)) } := by
  induction entries generalizing outside with
  | nil => rfl
  | cons e rest ih => exact ih (outside.destroy e.2)

/-- The addresses that are freed. -/
def freed (freeOk : ℕ → Bool) (entries : List (Σ _ : ℕ, PersistentBuffer)) : List ℕ :=
  entries.filterMap fun e => if freeOk e.1 then e.2.data else none

theorem freeBuffers_outside (freeOk : ℕ → Bool) (entries : List (Σ _ : ℕ, PersistentBuffer))
    (outside : Outside) :
    (freeBuffers freeOk entries outside).2 =
      { outside with allocations := outside.allocations.dischargeAll (freed freeOk entries) } := by
  induction entries generalizing outside with
  | nil => rfl
  | cons e rest ih =>
    obtain ⟨slot, data, bytes⟩ := e
    have hrest := ih (outside.cudaFree (freeOk slot) data).2
    unfold freeBuffers
    refine Eq.trans hrest ?_
    cases data with
    | none => simp [freed, cudaFree]
    | some p =>
      cases hok : freeOk slot with
      | false => simp [freed, cudaFree, hok]
      | true => simp [freed, cudaFree, hok, dischargeAll]

end CompressorPolicy

/-! ## Runs -/

structure PolicyState where
  policy : CompressorPolicy
  outside : Outside

inductive PolicyAction where
  | acquirePersistent (cudaDev slot bytes : ℕ) (freeOk : Bool) (malloc : Option ℕ)
  | getOrCreateState (cudaDev typeKey destroyState : ℕ) (created : Option ℕ)
  | releaseDevice (cudaDev : ℕ) (freeOk : ℕ → Bool)

namespace PolicyState

def initial : PolicyState := ⟨⟨∅⟩, ⟨.empty, .empty⟩⟩

variable (state : PolicyState)

def acquirePersistent (cudaDev slot bytes : ℕ) (freeOk : Bool) (malloc : Option ℕ) :
    Result PersistentBuffer × PolicyState :=
  match state.policy.acquirePersistent cudaDev slot bytes freeOk malloc state.outside with
  | (result, policy, outside) => (result, ⟨policy, outside⟩)

def getOrCreateState (cudaDev typeKey destroyState : ℕ) (created : Option ℕ) :
    Result (Option ℕ) × PolicyState :=
  match state.policy.getOrCreateState cudaDev typeKey destroyState created state.outside with
  | (result, policy, outside) => (result, ⟨policy, outside⟩)

def releaseDevice (cudaDev : ℕ) (freeOk : ℕ → Bool) : Bool × PolicyState :=
  match state.policy.releaseDevice cudaDev freeOk state.outside with
  | (result, policy, outside) => (result, ⟨policy, outside⟩)

/-- `cudaMalloc` gives an address that is not allocated, after the old buffer was freed. -/
def mallocAvailable (cudaDev slot : ℕ) (freeOk : Bool) (malloc : Option ℕ) : Bool :=
  malloc.all fun p => !decide ((state.outside.cudaFree freeOk
    (state.policy.persistent cudaDev slot).data).2.allocations.Holds p)

/-- A new state is at an address of its own. -/
def stateAvailable (created : Option ℕ) : Bool :=
  created.all fun p => state.outside.objects.live.all fun x => x.1.1 ≠ some p

def step : PolicyAction → Option PolicyState
  | .acquirePersistent cudaDev slot bytes freeOk malloc =>
    if state.mallocAvailable cudaDev slot freeOk malloc then
      some (state.acquirePersistent cudaDev slot bytes freeOk malloc).2
    else none
  | .getOrCreateState cudaDev typeKey destroyState created =>
    if state.stateAvailable created then
      some (state.getOrCreateState cudaDev typeKey destroyState created).2
    else none
  | .releaseDevice cudaDev freeOk => some (state.releaseDevice cudaDev freeOk).2

/-- What a policy records is what is held for it. -/
structure Held : Prop where
  allocations : state.outside.allocations.InOrder
  objects : state.outside.objects.InOrder
  buffers : ∀ d s p, (state.policy.persistent d s).data = some p →
    (p, (state.policy.persistent d s).bytes) ∈ state.outside.allocations.live
  empty : ∀ d s, (state.policy.persistent d s).data = none →
    (state.policy.persistent d s).bytes = 0
  apart : ∀ d s d' s' p, (state.policy.persistent d s).data = some p →
    (state.policy.persistent d' s').data = some p → d = d' ∧ s = s'
  states : ∀ d k, (state.policy.entry d k).data = none ∨
    ∃ p f, state.policy.entry d k = ⟨some p, some f⟩ ∧
      ((some p, some f), ()) ∈ state.outside.objects.live
  recorded : ∀ x ∈ state.outside.objects.live,
    ∃ d k p f, state.policy.entry d k = ⟨some p, some f⟩ ∧ x = ((some p, some f), ())
  statesApart : ∀ d k d' k' p, (state.policy.entry d k).data = some p →
    (state.policy.entry d' k').data = some p → d = d' ∧ k = k'

/-- The condition on a call: a slot without a buffer is asked for some, a buffer that was freed is
replaced, and a device is released with all its states constructed. -/
def Careful : PolicyAction → Prop
  | .acquirePersistent cudaDev slot bytes freeOk malloc =>
    let persistent := state.policy.persistent cudaDev slot
    (persistent.data = none → 0 < bytes) ∧
      (persistent.data ≠ none → persistent.bytes < bytes → freeOk = true → malloc ≠ none)
  | .getOrCreateState _ _ _ _ => True
  | .releaseDevice cudaDev _ =>
    ∀ e ∈ (state.policy.device cudaDev).states.entries, e.2.data ≠ none

open CompressorPolicy

variable {state} {state' : PolicyState}

theorem held_initial : initial.Held where
  allocations := inOrder_empty
  objects := inOrder_empty
  buffers := nofun
  empty _ _ _ := rfl
  apart := nofun
  states _ _ := .inl rfl
  recorded := nofun
  statesApart := nofun

/-- Nothing changes but the maps, which get an empty entry. -/
theorem Held.congr (h : state.Held) (houtside : state'.outside = state.outside)
    (hpersistent : ∀ d s, state'.policy.persistent d s = state.policy.persistent d s)
    (hentry : ∀ d k, state'.policy.entry d k = state.policy.entry d k) : state'.Held := by
  obtain ⟨policy', outside'⟩ := state'
  obtain rfl : outside' = state.outside := houtside
  simp only at hpersistent hentry
  refine ⟨h.allocations, h.objects, ?_, ?_, ?_, ?_, ?_, ?_⟩
  · simpa only [hpersistent] using h.buffers
  · simpa only [hpersistent] using h.empty
  · simpa only [hpersistent] using h.apart
  · simpa only [hentry] using h.states
  · simpa only [hentry] using h.recorded
  · simpa only [hentry] using h.statesApart

/-! ### A buffer is asked for -/

variable (state) in
/-- The allocations without the buffer of a slot. -/
def without (cudaDev slot : ℕ) : Outside :=
  (state.outside.cudaFree true (state.policy.persistent cudaDev slot).data).2

variable {cudaDev slot bytes : ℕ} {malloc : Option ℕ}

section

variable {freeOk : Bool}
  (hcareful : state.Careful (.acquirePersistent cudaDev slot bytes freeOk malloc))

include hcareful

/-- The slot's buffer is large enough or a call fails, or the buffer is replaced. -/
theorem acquirePersistent_cases :
    (∃ result, state.acquirePersistent cudaDev slot bytes freeOk malloc =
        (result, ⟨state.policy.setBuffer cudaDev slot (state.policy.persistent cudaDev slot),
          state.outside⟩) ∧
      ∀ buffer, result = .ok buffer →
        buffer = state.policy.persistent cudaDev slot ∧ bytes ≤ buffer.bytes) ∨
    ∃ p, malloc = some p ∧ state.acquirePersistent cudaDev slot bytes freeOk malloc =
      (.ok ⟨some p, bytes⟩, ⟨state.policy.setBuffer cudaDev slot ⟨some p, bytes⟩,
        (state.without cudaDev slot).cudaMalloc p bytes⟩) ∧
      (state.outside.cudaFree freeOk (state.policy.persistent cudaDev slot).data).2 =
        state.without cudaDev slot := by
  obtain ⟨-, hreplaced⟩ := hcareful
  unfold acquirePersistent CompressorPolicy.acquirePersistent without
  by_cases hbytes : (state.policy.persistent cudaDev slot).bytes < bytes
  · cases hdata : (state.policy.persistent cudaDev slot).data with
    | none =>
      cases malloc with
      | none =>
        refine .inl ⟨.error .unhandledCudaError, ?_, nofun⟩
        simp [hbytes, hdata, cudaFree]
      | some p => exact .inr ⟨p, rfl, by simp [hbytes, hdata, cudaFree]⟩
    | some q =>
      cases freeOk with
      | false =>
        refine .inl ⟨.error .unhandledCudaError, ?_, nofun⟩
        simp [hbytes, hdata, cudaFree]
      | true =>
        obtain ⟨p, rfl⟩ := Option.ne_none_iff_exists'.mp (hreplaced (by simp [hdata]) hbytes rfl)
        exact .inr ⟨p, rfl, by simp [hbytes, hdata, cudaFree]⟩
  · refine .inl ⟨.ok (state.policy.persistent cudaDev slot), by simp [hbytes], fun buffer hok => ?_⟩
    obtain rfl := Except.ok.inj hok
    exact ⟨rfl, not_lt.mp hbytes⟩

/-- What is handed out is allocated and large enough. -/
theorem acquirePersistent_live (h : state.Held)
    (hok : (state.acquirePersistent cudaDev slot bytes freeOk malloc).1 = .ok buffer) :
    bytes ≤ buffer.bytes ∧ ∃ p, buffer.data = some p ∧ (p, buffer.bytes) ∈
      (state.acquirePersistent cudaDev slot bytes freeOk malloc).2.outside.allocations.live := by
  rcases acquirePersistent_cases hcareful with ⟨result, heq, hresult⟩ | ⟨p, rfl, heq, -⟩
  · rw [heq] at hok ⊢
    obtain ⟨rfl, hle⟩ := hresult buffer hok
    cases hdata : (state.policy.persistent cudaDev slot).data with
    | none =>
      have hpos := hcareful.1 hdata
      rw [h.empty cudaDev slot hdata] at hle
      omega
    | some p => exact ⟨hle, p, rfl, h.buffers cudaDev slot p hdata⟩
  · rw [heq] at hok ⊢
    obtain rfl := Except.ok.inj hok
    exact ⟨le_rfl, p, rfl, mem_enter.mpr (.inl rfl)⟩

end

variable {cudaDev : ℕ}

section

variable (h : state.Held)

include h

theorem without_inOrder (cudaDev slot : ℕ) :
    (state.without cudaDev slot).allocations.InOrder := by
  unfold without
  cases hdata : (state.policy.persistent cudaDev slot).data with
  | none => exact h.allocations
  | some q => exact h.allocations.discharge (holds_of_mem (h.buffers cudaDev slot q hdata))

/-- Freeing the buffer of a slot leaves the others. -/
theorem mem_without {d : ℕ} (hne : ¬ (d = cudaDev ∧ s = slot))
    (hdata : (state.policy.persistent d s).data = some p) :
    (p, (state.policy.persistent d s).bytes) ∈
      (state.without cudaDev slot).allocations.live := by
  have hmem := h.buffers d s p hdata
  unfold without
  cases hold : (state.policy.persistent cudaDev slot).data with
  | none => exact hmem
  | some q =>
    refine mem_discharge.mpr ⟨hmem, ?_⟩
    rintro rfl
    exact hne (h.apart d s cudaDev slot p hdata hold)

theorem replace_held {bytes : ℕ} (hp : ¬ (state.without cudaDev slot).allocations.Holds p) :
    Held ⟨state.policy.setBuffer cudaDev slot ⟨some p, bytes⟩,
      (state.without cudaDev slot).cudaMalloc p bytes⟩ := by
  have hobjects : ((state.without cudaDev slot).cudaMalloc p bytes).objects =
      state.outside.objects := by
    unfold without
    cases (state.policy.persistent cudaDev slot).data <;> rfl
  -- another slot's buffer is still allocated, so that it is not at the new address
  have hother : ∀ {d s}, ¬ (d = cudaDev ∧ s = slot) →
      (state.policy.persistent d s).data ≠ some p := fun hne hdata =>
    hp (holds_of_mem (mem_without h hne hdata))
  refine ⟨(without_inOrder h cudaDev slot).enter hp, hobjects ▸ h.objects, ?_, ?_, ?_, ?_, ?_, ?_⟩
  · intro d s q hdata
    simp only [persistent_setBuffer] at hdata ⊢
    split at hdata
    · rename_i heq
      obtain rfl := Option.some.inj hdata
      rw [if_pos heq]
      exact mem_enter.mpr (.inl rfl)
    · rename_i hne
      rw [if_neg hne]
      exact mem_enter.mpr (.inr (mem_without h hne hdata))
  · intro d s hdata
    simp only [persistent_setBuffer] at hdata ⊢
    split at hdata
    · cases hdata
    · rename_i hne
      rw [if_neg hne]
      exact h.empty d s hdata
  · intro d s d' s' q hdata hdata'
    simp only [persistent_setBuffer] at hdata hdata'
    split at hdata <;> split at hdata'
    · rename_i heq heq'
      exact ⟨heq.1.trans heq'.1.symm, heq.2.trans heq'.2.symm⟩
    · rename_i hne
      exact absurd (hdata'.trans hdata.symm) (hother hne)
    · rename_i hne _
      exact absurd (hdata.trans hdata'.symm) (hother hne)
    · exact h.apart d s d' s' q hdata hdata'
  · simpa only [entry_setBuffer, hobjects] using h.states
  · simpa only [entry_setBuffer, hobjects] using h.recorded
  · simpa only [entry_setBuffer] using h.statesApart

theorem acquirePersistent_held {freeOk : Bool}
    (hcareful : state.Careful (.acquirePersistent cudaDev slot bytes freeOk malloc))
    (havailable : state.mallocAvailable cudaDev slot freeOk malloc = true) :
    (state.acquirePersistent cudaDev slot bytes freeOk malloc).2.Held := by
  rcases acquirePersistent_cases hcareful with ⟨result, heq, -⟩ | ⟨p, rfl, heq, hfree⟩
  · rw [heq]
    exact h.congr rfl (fun _ _ => persistent_touch) fun _ _ =>
      entry_setBuffer
  · rw [heq]
    refine replace_held h ?_
    rw [mallocAvailable, hfree] at havailable
    simpa using havailable

/-! ### A state is asked for -/

theorem construct_held {destroyState : ℕ} (hnone : (state.policy.entry cudaDev typeKey).data = none)
    (hp : ∀ x ∈ state.outside.objects.live, x.1.1 ≠ some p) :
    Held ⟨state.policy.setState cudaDev typeKey ⟨some p, some destroyState⟩,
      state.outside.construct p destroyState⟩ := by
  have hother : ∀ d k, (state.policy.entry d k).data ≠ some p := by
    intro d k hdata
    rcases h.states d k with hnone | ⟨q, f, hentry, hmem⟩
    · exact absurd (hnone.symm.trans hdata) nofun
    · rw [hentry] at hdata
      exact hp _ hmem hdata
  have hfresh : ¬ state.outside.objects.Holds (some p, some destroyState) := by
    intro hheld
    obtain ⟨x, hx, heq⟩ := List.mem_map.mp hheld
    exact hp x hx (congrArg Prod.fst heq)
  refine ⟨h.allocations, h.objects.enter hfresh, ?_, ?_, ?_, ?_, ?_, ?_⟩
  · simpa only [persistent_setState, construct] using h.buffers
  · simpa only [persistent_setState] using h.empty
  · simpa only [persistent_setState] using h.apart
  · intro d k
    simp only [entry_setState]
    split
    · exact .inr ⟨p, destroyState, rfl, mem_enter.mpr (.inl rfl)⟩
    · rcases h.states d k with hnone | ⟨q, f, hentry, hmem⟩
      · exact .inl hnone
      · exact .inr ⟨q, f, hentry, mem_enter.mpr (.inr hmem)⟩
  · intro x hx
    simp only [entry_setState]
    rcases mem_enter.mp hx with rfl | hx
    · exact ⟨cudaDev, typeKey, p, destroyState, by rw [if_pos ⟨rfl, rfl⟩], rfl⟩
    · obtain ⟨d, k, q, f, hentry, rfl⟩ := h.recorded x hx
      refine ⟨d, k, q, f, ?_, rfl⟩
      rw [if_neg, hentry]
      rintro ⟨rfl, rfl⟩
      rw [hentry] at hnone
      cases hnone
  · intro d k d' k' q hdata hdata'
    simp only [entry_setState] at hdata hdata'
    split at hdata <;> split at hdata'
    · rename_i heq heq'
      exact ⟨heq.1.trans heq'.1.symm, heq.2.trans heq'.2.symm⟩
    · exact absurd (hdata'.trans hdata.symm) (hother d' k')
    · exact absurd (hdata.trans hdata'.symm) (hother d k)
    · exact h.statesApart d k d' k' q hdata hdata'

theorem getOrCreateState_held {destroyState : ℕ} {created : Option ℕ}
    (havailable : state.stateAvailable created = true) :
    (state.getOrCreateState cudaDev typeKey destroyState created).2.Held := by
  have htouched : Held ⟨state.policy.setState cudaDev typeKey (state.policy.entry cudaDev typeKey),
      state.outside⟩ :=
    h.congr rfl (fun _ _ => persistent_setState) fun _ _ =>
      entry_touch
  unfold getOrCreateState CompressorPolicy.getOrCreateState
  cases hdata : (state.policy.entry cudaDev typeKey).data with
  | some q => simpa only [hdata] using htouched
  | none =>
    cases created with
    | none => simpa only [hdata] using htouched
    | some p =>
      simp only [hdata]
      refine construct_held h hdata ?_
      simpa [stateAvailable] using havailable

end

/-! ### A device is released -/

section

variable {cudaDev : ℕ} {resources : DeviceResources}
  (hresources : state.policy.resources.lookup cudaDev = some resources)

include hresources

theorem freed_nodup (h : state.Held) (freeOk : ℕ → Bool) :
    (freed freeOk resources.persistent.entries).Nodup := by
  refine List.pairwise_filterMap.mpr ?_
  refine (resources.persistent.nodupKeys.nodup).imp_of_mem fun {e e'} he he' hne p hp p' hp' => ?_
  rintro rfl
  have hdata : ∀ {e : Σ _ : ℕ, PersistentBuffer}, e ∈ resources.persistent.entries →
      (if freeOk e.1 then e.2.data else none) = some p →
      (state.policy.persistent cudaDev e.1).data = some p := fun he hfreed =>
    persistent_of_mem hresources he ▸ (Option.ite_none_right_eq_some.mp hfreed).2
  have hslot := (h.apart _ _ _ _ p (hdata he hp) (hdata he' hp')).2
  have hbuffer : e.2 = e'.2 := by
    rw [← persistent_of_mem hresources he, ← persistent_of_mem hresources he', hslot]
  exact hne (Sigma.ext hslot (heq_of_eq hbuffer))

variable {freeOk : ℕ → Bool} (h : state.Held)
  (hcareful : state.Careful (.releaseDevice cudaDev freeOk))

/-- What is freed is a buffer of the device. -/
theorem exists_of_freed (hp : p ∈ freed freeOk resources.persistent.entries) :
    ∃ s, (state.policy.persistent cudaDev s).data = some p := by
  obtain ⟨e, he, hfreed⟩ := List.mem_filterMap.mp hp
  exact ⟨e.1, persistent_of_mem hresources he ▸ (Option.ite_none_right_eq_some.mp hfreed).2⟩

include h hcareful

/-- Every entry stands for a state of the plugin. -/
theorem constructed_of_careful (he : e ∈ resources.states.entries) :
    ∃ p f, state.policy.entry cudaDev e.1 = ⟨some p, some f⟩ ∧ e.2 = ⟨some p, some f⟩ ∧
      ((some p, some f), ()) ∈ state.outside.objects.live := by
  have hentry := entry_of_mem hresources he
  have hdata : e.2.data ≠ none := by
    refine hcareful e ?_
    rw [CompressorPolicy.device, hresources]
    exact he
  rcases h.states cudaDev e.1 with hnone | ⟨p, f, hpf, hmem⟩
  · rw [hentry] at hnone
    exact absurd hnone hdata
  · exact ⟨p, f, hpf, hentry.symm.trans hpf, hmem⟩

theorem destroyed_nodup :
    (resources.states.entries.map fun e => (e.2.data, e.2.destroy)).Nodup := by
  refine List.pairwise_map.mpr ?_
  refine (resources.states.nodupKeys.nodup).imp_of_mem fun {e e'} he he' hne heq => ?_
  obtain ⟨p, f, hentry, hpf, -⟩ := constructed_of_careful hresources h hcareful he
  obtain ⟨p', f', hentry', hpf', -⟩ := constructed_of_careful hresources h hcareful he'
  have hkey := (h.statesApart cudaDev e.1 cudaDev e'.1 p (by rw [hentry]) (by
    rw [hentry']
    rw [hpf, hpf'] at heq
    exact (Prod.mk.inj heq).1.symm)).2
  have hvalue : e.2 = e'.2 := by
    rw [← entry_of_mem hresources he, ← entry_of_mem hresources he', hkey]
  exact hne (Sigma.ext hkey (heq_of_eq hvalue))

theorem release_some_held :
    Held ⟨⟨state.policy.resources.erase cudaDev⟩,
      { allocations := state.outside.allocations.dischargeAll
          (freed freeOk resources.persistent.entries)
        objects := state.outside.objects.dischargeAll
          (resources.states.entries.map fun e => (e.2.data, e.2.destroy)) }⟩ := by
  refine ⟨?_, ?_, ?_, ?_, ?_, ?_, ?_, ?_⟩
  · refine h.allocations.dischargeAll (freed_nodup hresources h freeOk) fun p hp => ?_
    obtain ⟨s, hdata⟩ := exists_of_freed hresources hp
    exact holds_of_mem (h.buffers cudaDev s p hdata)
  · refine h.objects.dischargeAll (destroyed_nodup hresources h hcareful) fun k hk => ?_
    obtain ⟨e, he, rfl⟩ := List.mem_map.mp hk
    obtain ⟨p, f, -, hpf, hmem⟩ := constructed_of_careful hresources h hcareful he
    rw [hpf]
    exact holds_of_mem hmem
  · intro d s p hdata
    simp only [persistent_erase] at hdata ⊢
    split at hdata
    · cases hdata
    · rename_i hne
      rw [if_neg hne]
      refine mem_dischargeAll.mpr ⟨h.buffers d s p hdata, fun hp => ?_⟩
      obtain ⟨s', hdata'⟩ := exists_of_freed hresources hp
      exact hne (h.apart d s cudaDev s' p hdata hdata').1
  · intro d s hdata
    simp only [persistent_erase] at hdata ⊢
    split
    · rfl
    · rename_i hne
      rw [if_neg hne] at hdata
      exact h.empty d s hdata
  · intro d s d' s' p hdata hdata'
    simp only [persistent_erase] at hdata hdata'
    split at hdata <;> split at hdata' <;> first | cases hdata | cases hdata' | skip
    exact h.apart d s d' s' p hdata hdata'
  · intro d k
    simp only [entry_erase]
    split
    · exact .inl rfl
    · rename_i hne
      rcases h.states d k with hnone | ⟨p, f, hentry, hmem⟩
      · exact .inl hnone
      · refine .inr ⟨p, f, hentry, mem_dischargeAll.mpr ⟨hmem, fun hdestroyed => ?_⟩⟩
        obtain ⟨e, he, heq⟩ := List.mem_map.mp hdestroyed
        obtain ⟨q, g, hentry', hqg, -⟩ := constructed_of_careful hresources h hcareful he
        rw [hqg] at heq
        refine hne (h.statesApart d k cudaDev e.1 p (by rw [hentry]) ?_).1
        rw [hentry']
        exact (Prod.mk.inj heq).1
  · intro x hx
    obtain ⟨hlive, hkept⟩ := mem_dischargeAll.mp hx
    obtain ⟨d, k, p, f, hentry, rfl⟩ := h.recorded x hlive
    refine ⟨d, k, p, f, ?_, rfl⟩
    simp only [entry_erase]
    rw [if_neg, hentry]
    rintro rfl
    have hmem := mem_of_entry hresources (k := k) (p := p) (by rw [hentry])
    rw [hentry] at hmem
    exact hkept (List.mem_map_of_mem hmem)
  · intro d k d' k' p hdata hdata'
    simp only [entry_erase] at hdata hdata'
    split at hdata <;> split at hdata' <;> first | cases hdata | cases hdata' | skip
    exact h.statesApart d k d' k' p hdata hdata'

end

theorem releaseDevice_held (h : state.Held)
    (hcareful : state.Careful (.releaseDevice cudaDev freeOk)) :
    (state.releaseDevice cudaDev freeOk).2.Held := by
  unfold releaseDevice CompressorPolicy.releaseDevice
  cases hresources : state.policy.resources.lookup cudaDev with
  | none => exact h
  | some resources =>
    have houtside := freeBuffers_outside freeOk resources.persistent.entries
      (resources.states.entries.foldl (fun o e => o.destroy e.2) state.outside)
    rw [destroy_foldl] at houtside
    simp only [destroy_foldl, houtside]
    exact release_some_held hresources h hcareful

/-! ### All calls -/

theorem step_held {action : PolicyAction} (h : state.Held) (hcareful : state.Careful action)
    (hstep : state.step action = some state') : state'.Held := by
  cases action with
  | acquirePersistent cudaDev slot bytes freeOk malloc =>
    obtain ⟨havailable, ⟨⟩⟩ := Option.ite_none_right_eq_some.mp hstep
    exact acquirePersistent_held h hcareful havailable
  | getOrCreateState cudaDev typeKey destroyState created =>
    obtain ⟨havailable, ⟨⟩⟩ := Option.ite_none_right_eq_some.mp hstep
    exact getOrCreateState_held h havailable
  | releaseDevice cudaDev freeOk =>
    obtain rfl := Option.some.inj hstep
    exact releaseDevice_held h hcareful

/-- What a plugin may rely on. Nothing was freed or destroyed that was not there to be; the states
that are left are those the policy still records, so that those of a released device were all
destroyed. -/
structure ResourcesKept (state : PolicyState) : Prop where
  acquired : ∀ cudaDev slot bytes freeOk malloc buffer,
    state.Careful (.acquirePersistent cudaDev slot bytes freeOk malloc) →
    (state.acquirePersistent cudaDev slot bytes freeOk malloc).1 = .ok buffer →
      bytes ≤ buffer.bytes ∧ ∃ p, buffer.data = some p ∧ (p, buffer.bytes) ∈
        (state.acquirePersistent cudaDev slot bytes freeOk malloc).2.outside.allocations.live
  freedOnce : state.outside.allocations.stray = []
  destroyedOnce : state.outside.objects.stray = []
  constructed : ∀ x ∈ state.outside.objects.live, ∃ cudaDev typeKey p f,
    state.policy.entry cudaDev typeKey = ⟨some p, some f⟩ ∧ x = ((some p, some f), ())
  undestroyed : ∀ cudaDev typeKey p, (state.policy.entry cudaDev typeKey).data = some p →
    ∃ f, ((some p, some f), ()) ∈ state.outside.objects.live ∧
      (state.policy.entry cudaDev typeKey).destroy = some f

theorem Held.resourcesKept (h : state.Held) : state.ResourcesKept where
  acquired _ _ _ _ _ _ hcareful hok := acquirePersistent_live hcareful h hok
  freedOnce := h.allocations.stray
  destroyedOnce := h.objects.stray
  constructed := h.recorded
  undestroyed d k p hdata := by
    rcases h.states d k with hnone | ⟨q, f, hentry, hmem⟩
    · exact absurd (hnone.symm.trans hdata) nofun
    · rw [hentry] at hdata ⊢
      obtain rfl := Option.some.inj hdata
      exact ⟨f, hmem, rfl⟩

theorem reachable_resourcesKept (h : Reachable step Careful initial state) :
    state.ResourcesKept :=
  Held.resourcesKept (h.invariant held_initial fun _ _ _ => step_held)

/-- A buffer and a state, and their release. -/
theorem releaseDevice_resourcesKept :
    ∃ state, Reachable step Careful initial state ∧ state.outside.allocations.live = [] ∧
      state.outside.objects.live = [] ∧ state.ResourcesKept := by
  have hbuffer : initial.step (.acquirePersistent 0 0 100 true (some 4096)) =
      some (initial.acquirePersistent 0 0 100 true (some 4096)).2 := rfl
  have hstate := show (initial.acquirePersistent 0 0 100 true (some 4096)).2.step
    (.getOrCreateState 0 7 1 (some 64)) = some _ from rfl
  have hrelease := show ((initial.acquirePersistent 0 0 100 true
    (some 4096)).2.getOrCreateState 0 7 1 (some 64)).2.step
      (.releaseDevice 0 fun _ => true) = some _ from rfl
  have hfirst : initial.Careful (.acquirePersistent 0 0 100 true (some 4096)) :=
    ⟨fun _ => by decide, fun h => absurd rfl h⟩
  have hlast : ((initial.acquirePersistent 0 0 100 true (some 4096)).2.getOrCreateState 0 7 1
      (some 64)).2.Careful (.releaseDevice 0 fun _ => true) := by
    simp only [Careful]
    decide
  have hreachable : Reachable step Careful initial _ :=
    .step (.step (.step .start hfirst hbuffer) (by exact trivial) hstate) hlast hrelease
  exact ⟨_, hreachable, by decide, by decide, reachable_resourcesKept hreachable⟩

/-- The larger buffer cannot be allocated after the smaller one was freed. A request the smaller one
was large enough for is then answered with it. -/
def stale : PolicyState :=
  ((initial.acquirePersistent 0 0 100 true (some 4096)).2.acquirePersistent 0 0 200 true none).2

/-- A state whose constructor failed is in the map all the same. -/
def unconstructed : PolicyState := (initial.getOrCreateState 0 7 1 none).2

theorem stale_acquirePersistent :
    Reachable step (fun _ _ => True) initial stale ∧
      (stale.acquirePersistent 0 0 50 true none).1 = .ok ⟨some 4096, 100⟩ ∧
      (stale.acquirePersistent 0 0 50 true none).2.outside.allocations.live = [] ∧
      (stale.releaseDevice 0 fun _ => true).2.outside.allocations.stray = [4096] ∧
      Reachable step (fun _ _ => True) initial unconstructed ∧
      (unconstructed.releaseDevice 0 fun _ => true).2.outside.objects.stray = [(none, none)] := by
  have hfirst : initial.step (.acquirePersistent 0 0 100 true (some 4096)) =
      some (initial.acquirePersistent 0 0 100 true (some 4096)).2 := rfl
  have hsecond : (initial.acquirePersistent 0 0 100 true (some 4096)).2.step
      (.acquirePersistent 0 0 200 true none) = some stale := rfl
  have hthird : initial.step (.getOrCreateState 0 7 1 none) = some unconstructed := rfl
  exact ⟨.step (.step .start trivial hfirst) trivial hsecond, by decide, by decide, by decide,
    .step .start trivial hthird, by decide⟩

end PolicyState

end Coccl
