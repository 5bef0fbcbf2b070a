import Coccl.Compression.Persistent

/-!
# How long compressor resources live

The compressor runtime counts the communicators of each device, and releases what its policies hold
for a device with the last of them. A communicator is counted near the end of its initialisation,
and taken off the count by `commCleanup`, which is reached by every communicator that was linked to
the others of its process, long before.
-/

namespace Coccl

open Transitions List AList CompressorPolicy

/-- A communicator the process holds. `linked` says that `intraComm0` is set, `registered` that the
runtime has counted it. -/
structure CommHandle where
  id : ℕ
  cudaDev : ℕ
  rank : ℕ
  linked : Bool
  registered : Bool
  deriving DecidableEq

/-- The state behind `compressorLock`, with the communicators of the process. `initResult` is
`runtimeInitResult`, once there is one. -/
structure DeviceRuntime where
  initResult : Option (Option NcclError)
  rankByDevice : Keyed ℕ
  communicatorsByDevice : Keyed ℕ
  ownedPolicies : List CompressorPolicy
  outside : Outside
  comms : List CommHandle
  fresh : ℕ

/-- How the initialisation of a communicator turns out: whether it is outside of a group, where a
failure frees it; whether it gets as far as `intraComm0`; the calls from there to `cocclInit`; the
policies that `initializeRuntime` makes and its result; and the buffer pool. -/
structure InitRun where
  cudaDev : ℕ
  rank : ℕ
  direct : Bool
  link : Bool
  setup : Option NcclError
  policies : ℕ
  runtimeInit : Option NcclError
  bufferInit : Option NcclError

inductive RuntimeAction where
  | commInit (run : InitRun)
  | acquirePersistent (policy cudaDev slot bytes : ℕ) (freeOk : Bool) (malloc : Option ℕ)
  | getOrCreateState (policy cudaDev typeKey destroyState : ℕ) (created : Option ℕ)
  | reclaim (id : ℕ) (freeOk : ℕ → Bool)

namespace DeviceRuntime

def initial : DeviceRuntime where
  initResult := none
  rankByDevice := ∅
  communicatorsByDevice := ∅
  ownedPolicies := []
  outside := ⟨.empty, .empty⟩
  comms := []
  fresh := 0

variable (configReady : Bool) (runtime : DeviceRuntime)

/-! ## Initialisation -/

/-- The policies are made by the first communicator. -/
def initializeOnce (run : InitRun) : DeviceRuntime :=
  match runtime.initResult with
  | some _ => runtime
  | none =>
    { runtime with
      initResult := some (if configReady then run.runtimeInit else none)
      ownedPolicies := if configReady then List.replicate run.policies ⟨∅⟩ else [] }

/-- Whether the runtime counts a communicator. -/
def registers (run : InitRun) : Bool :=
  configReady ∧ (runtime.initializeOnce configReady run).initResult = some none

def cocclCompressorRuntimeInit (run : InitRun) : Option NcclError × DeviceRuntime :=
  let runtime' := runtime.initializeOnce configReady run
  if runtime.registers configReady run then
    (none, { runtime' with
      rankByDevice := runtime'.rankByDevice.insert run.cudaDev run.rank
      communicatorsByDevice := runtime'.communicatorsByDevice.insert run.cudaDev
        ((runtime'.communicatorsByDevice.lookup run.cudaDev).getD 0 + 1) })
  else (runtime'.initResult.join, runtime')

def cocclCompressionEnabled : Bool := runtime.initResult = some none ∧ runtime.ownedPolicies ≠ []

/-- `cocclCommCreate`, between the two, cannot fail. -/
def cocclInit (run : InitRun) : Option NcclError × DeviceRuntime :=
  match runtime.cocclCompressorRuntimeInit configReady run with
  | (some e, runtime) => (some e, runtime)
  | (none, runtime) =>
    (if runtime.cocclCompressionEnabled then run.bufferInit else none, runtime)

/-- A communicator whose initialisation failed is kept for the caller to destroy, or freed if there
is no group. -/
def addComm (run : InitRun) (result : Option NcclError) (linked registered : Bool) :
    DeviceRuntime :=
  if result.isSome ∧ run.direct then runtime
  else
    { runtime with
      comms := ⟨runtime.fresh, run.cudaDev, run.rank, linked, registered⟩ :: runtime.comms
      fresh := runtime.fresh + 1 }

/-- `ncclCommInitRankFunc`. -/
def commInit (run : InitRun) : DeviceRuntime :=
  if run.link then
    match run.setup with
    | some e => runtime.addComm run (some e) true false
    | none =>
      match runtime.cocclInit configReady run with
      | (result, runtime') => runtime'.addComm run result true (runtime.registers configReady run)
  else runtime.addComm run (some .internalError) false false

/-! ## Destruction -/

/-- Every policy releases the device; a failure is remembered. -/
def releasePolicies (cudaDev : ℕ) (freeOk : ℕ → Bool) :
    List CompressorPolicy → Outside → Bool × List CompressorPolicy × Outside
  | [], outside => (true, [], outside)
  | policy :: rest, outside =>
    match policy.releaseDevice cudaDev freeOk outside with
    | (ok, policy, outside) =>
      match releasePolicies cudaDev freeOk rest outside with
      | (result, rest, outside) => (ok && result, policy :: rest, outside)

def cocclCompressorRuntimeDestroy (cudaDev : ℕ) (freeOk : ℕ → Bool) : Bool × DeviceRuntime :=
  match runtime.communicatorsByDevice.lookup cudaDev with
  | none => (true, runtime)
  | some count =>
    if count - 1 ≠ 0 then
      (true, { runtime with
        communicatorsByDevice := runtime.communicatorsByDevice.insert cudaDev (count - 1) })
    else
      match releasePolicies cudaDev freeOk runtime.ownedPolicies runtime.outside with
      | (result, policies, outside) =>
        (result, { runtime with
          communicatorsByDevice := runtime.communicatorsByDevice.erase cudaDev
          rankByDevice := runtime.rankByDevice.erase cudaDev
          ownedPolicies := policies
          outside := outside })

/-- `commReclaim` cleans up a communicator that was linked, and forgets one that was not. -/
def reclaim (comm : CommHandle) (freeOk : ℕ → Bool) : DeviceRuntime :=
  let cleaned :=
    if comm.linked then (runtime.cocclCompressorRuntimeDestroy comm.cudaDev freeOk).2 else runtime
  { cleaned with comms := cleaned.comms.eraseP (·.id = comm.id) }

/-! ## Runs -/

/-- The registered communicators of a device. -/
def registeredOn (cudaDev : ℕ) : ℕ :=
  runtime.comms.countP fun comm => comm.registered && comm.cudaDev == cudaDev

def setPolicy (index : ℕ) (policy : CompressorPolicy) (outside : Outside) : DeviceRuntime :=
  { runtime with ownedPolicies := runtime.ownedPolicies.set index policy, outside := outside }

/-- A plugin runs on a device for a communicator that is registered there. -/
def step : RuntimeAction → Option DeviceRuntime
  | .commInit run => some (runtime.commInit configReady run)
  | .acquirePersistent index cudaDev slot bytes freeOk malloc =>
    if runtime.registeredOn cudaDev = 0 then none
    else
      (runtime.ownedPolicies[index]?).map fun policy =>
        match policy.acquirePersistent cudaDev slot bytes freeOk malloc runtime.outside with
        | (_, policy, outside) => runtime.setPolicy index policy outside
  | .getOrCreateState index cudaDev typeKey destroyState created =>
    if runtime.registeredOn cudaDev = 0 then none
    else
      (runtime.ownedPolicies[index]?).map fun policy =>
        match policy.getOrCreateState cudaDev typeKey destroyState created runtime.outside with
        | (_, policy, outside) => runtime.setPolicy index policy outside
  | .reclaim id freeOk =>
    (runtime.comms.find? (·.id = id)).map fun comm => runtime.reclaim comm freeOk

/-- The condition on a step. What is cleaned up was registered, or no other communicator of its
device is; and the communicator that is freed when its initialisation fails was not. -/
def Counted : RuntimeAction → Prop
  | .reclaim id _ => ∀ comm, runtime.comms.find? (·.id = id) = some comm → comm.linked = true →
      comm.registered = true ∨ runtime.registeredOn comm.cudaDev = 0
  | .commInit run => run.direct = true → run.bufferInit = none
  | _ => True

/-- The resources of a device, policy by policy. -/
def resourcesOn (cudaDev : ℕ) : List (Option DeviceResources) :=
  runtime.ownedPolicies.map fun policy => policy.resources.lookup cudaDev

/-- The counts are those of the registered communicators, and only devices with one have
resources. -/
structure Balanced : Prop where
  counts : ∀ d, runtime.communicatorsByDevice.lookup d =
    if runtime.registeredOn d = 0 then none else some (runtime.registeredOn d)
  ranks : ∀ d, runtime.registeredOn d ≠ 0 → runtime.rankByDevice.lookup d ≠ none
  released : ∀ d, runtime.registeredOn d = 0 → ∀ r ∈ runtime.resourcesOn d, r = none
  linked : ∀ comm ∈ runtime.comms, comm.registered = true → comm.linked = true
  uninitialized : runtime.initResult = none → runtime.ownedPolicies = []

variable {configReady} {runtime} {runtime' : DeviceRuntime}

theorem balanced_initial : initial.Balanced where
  counts _ := rfl
  ranks _ h := absurd rfl h
  released := nofun
  linked := nofun
  uninitialized _ := rfl

/-! ### Initialisation -/

theorem Balanced.initializeOnce (h : runtime.Balanced) (run : InitRun) :
    (runtime.initializeOnce configReady run).Balanced := by
  unfold DeviceRuntime.initializeOnce
  split
  · exact h
  · refine ⟨h.counts, h.ranks, fun d _ r hr => ?_, h.linked, nofun⟩
    obtain ⟨policy, hpolicy, rfl⟩ := mem_map.mp hr
    split at hpolicy
    · obtain rfl := eq_of_mem_replicate hpolicy
      rfl
    · cases hpolicy

/-- One communicator more. -/
theorem registeredOn_cons {comm : CommHandle} (hcomms : runtime'.comms = comm :: runtime.comms)
    (d : ℕ) : runtime'.registeredOn d =
      runtime.registeredOn d + if comm.registered && comm.cudaDev == d then 1 else 0 := by
  rw [registeredOn, hcomms, countP_cons, registeredOn]

/-- A communicator that is not registered makes no difference. -/
theorem Balanced.addComm (h : runtime.Balanced) (run : InitRun) (result : Option NcclError)
    (linked : Bool) : (runtime.addComm run result linked false).Balanced := by
  unfold DeviceRuntime.addComm
  split
  · exact h
  · have hcount : ∀ d, registeredOn { runtime with
        comms := ⟨runtime.fresh, run.cudaDev, run.rank, linked, false⟩ :: runtime.comms
        fresh := runtime.fresh + 1 } d = runtime.registeredOn d :=
      fun d => (registeredOn_cons rfl d).trans (by simp)
    refine ⟨fun d => ?_, fun d => ?_, fun d => ?_, ?_, h.uninitialized⟩
    · rw [hcount]
      exact h.counts d
    · rw [hcount]
      exact h.ranks d
    · rw [hcount]
      exact h.released d
    · rw [forall_mem_cons]
      exact ⟨nofun, h.linked⟩

/-- A communicator is counted and kept. -/
theorem Balanced.register (h : runtime.Balanced) (run : InitRun) {result : Option NcclError}
    (hkept : ¬ (result.isSome = true ∧ run.direct = true)) :
    (DeviceRuntime.addComm { runtime with
        rankByDevice := runtime.rankByDevice.insert run.cudaDev run.rank
        communicatorsByDevice := runtime.communicatorsByDevice.insert run.cudaDev
          ((runtime.communicatorsByDevice.lookup run.cudaDev).getD 0 + 1) }
      run result true true).Balanced := by
  unfold DeviceRuntime.addComm
  rw [if_neg hkept]
  have hcount := fun d => @registeredOn_cons runtime { runtime with
    rankByDevice := runtime.rankByDevice.insert run.cudaDev run.rank
    communicatorsByDevice := runtime.communicatorsByDevice.insert run.cudaDev
      ((runtime.communicatorsByDevice.lookup run.cudaDev).getD 0 + 1)
    comms := ⟨runtime.fresh, run.cudaDev, run.rank, true, true⟩ :: runtime.comms
    fresh := runtime.fresh + 1 } _ rfl d
  simp only [Bool.true_and, beq_iff_eq] at hcount
  refine ⟨fun d => ?_, fun d hd => ?_, fun d hd => h.released d ?_, ?_, h.uninitialized⟩
  · rw [hcount]
    by_cases hdev : d = run.cudaDev
    · subst hdev
      rw [lookup_insert, h.counts, if_pos rfl, if_neg (Nat.succ_ne_zero _)]
      split
      · rename_i hzero
        rw [hzero]
        rfl
      · rfl
    · rw [lookup_insert_ne hdev, h.counts d, if_neg (Ne.symm hdev), add_zero]
  · rw [hcount] at hd
    by_cases hdev : d = run.cudaDev
    · subst hdev
      rw [lookup_insert]
      nofun
    · rw [if_neg (Ne.symm hdev), add_zero] at hd
      rw [lookup_insert_ne hdev]
      exact h.ranks d hd
  · rw [hcount] at hd
    exact Nat.eq_zero_of_add_eq_zero_right hd
  · rw [forall_mem_cons]
    exact ⟨fun _ => rfl, h.linked⟩

theorem cocclInit_snd (run : InitRun) : (runtime.cocclInit configReady run).2 =
      (runtime.cocclCompressorRuntimeInit configReady run).2 := by
  unfold cocclInit
  split <;> (rename_i heq; rw [heq])

/-- If the communicator is counted, only the buffer pool can fail. -/
theorem cocclInit_fst {run : InitRun} (hregisters : runtime.registers configReady run = true)
    (hbuffer : run.bufferInit = none) : (runtime.cocclInit configReady run).1 = none := by
  simp only [cocclInit, cocclCompressorRuntimeInit, hregisters, if_true, hbuffer, ite_self]

theorem commInit_balanced (h : runtime.Balanced) {run : InitRun}
    (hcounted : runtime.Counted (.commInit run)) :
    (runtime.commInit configReady run).Balanced := by
  have honce := @Balanced.initializeOnce configReady runtime h run
  unfold commInit
  split
  · split
    · exact h.addComm run _ true
    · change (DeviceRuntime.addComm (runtime.cocclInit configReady run).2 run
        (runtime.cocclInit configReady run).1 true (runtime.registers configReady run)).Balanced
      have hsnd := @cocclInit_snd configReady runtime run
      rw [hsnd]
      unfold cocclCompressorRuntimeInit
      cases hregisters : runtime.registers configReady run with
      | false => exact honce.addComm run _ true
      | true =>
        refine honce.register run ?_
        rintro ⟨hfailed, hdirect⟩
        rw [cocclInit_fst hregisters (hcounted hdirect)] at hfailed
        cases hfailed
  · exact h.addComm run _ false

/-! ### Destruction -/

theorem resourcesOn_releasePolicies (cudaDev : ℕ) (freeOk : ℕ → Bool)
    (policies : List CompressorPolicy) (outside : Outside) (d : ℕ) :
    ((releasePolicies cudaDev freeOk policies outside).2.1.map fun policy =>
      policy.resources.lookup d) =
        policies.map fun policy => if d = cudaDev then none else policy.resources.lookup d := by
  induction policies generalizing outside with
  | nil => rfl
  | cons policy rest ih =>
    have hpolicy : (policy.releaseDevice cudaDev freeOk outside).2.1.resources.lookup d =
        if d = cudaDev then none else policy.resources.lookup d := by
      unfold releaseDevice
      split
      · rename_i hnone
        split
        · rename_i heq
          rw [heq]
          exact hnone
        · rfl
      · split
        · rename_i heq
          rw [heq]
          exact lookup_erase _ _
        · rename_i hne
          exact lookup_erase_ne hne
    unfold releasePolicies
    rw [map_cons, map_cons, ih, hpolicy]

variable {comm : CommHandle} {id : ℕ} (hfind : runtime.comms.find? (·.id = id) = some comm)

include hfind in
/-- One communicator less. -/
theorem registeredOn_eraseP (d : ℕ) :
    runtime.registeredOn d = (runtime.comms.eraseP (·.id = comm.id)).countP
      (fun c => c.registered && c.cudaDev == d) +
        if comm.registered && comm.cudaDev == d then 1 else 0 := by
  obtain ⟨hid, A, B, hcomms, hA⟩ := find?_eq_some_iff_append.mp hfind
  obtain rfl := of_decide_eq_true hid
  have herase : (A ++ comm :: B).eraseP (·.id = comm.id) = A ++ B := by
    rw [eraseP_append_right _ fun c hc => by simpa using hA c hc, eraseP_cons_of_pos (by simp)]
  rw [registeredOn, hcomms, herase, countP_append, countP_append, countP_cons, ← add_assoc]

/-- What happens when a communicator is destroyed. -/
inductive Reclaimed (runtime : DeviceRuntime) (comm : CommHandle) (freeOk : ℕ → Bool) :
    DeviceRuntime → Prop where
  | uncounted (hregistered : comm.registered = false) :
      Reclaimed runtime comm freeOk
        { runtime with comms := runtime.comms.eraseP (·.id = comm.id) }
  | counted (hregistered : comm.registered = true)
      (hmore : 1 < runtime.registeredOn comm.cudaDev) :
      Reclaimed runtime comm freeOk
        { runtime with
          communicatorsByDevice := runtime.communicatorsByDevice.insert comm.cudaDev
            (runtime.registeredOn comm.cudaDev - 1)
          comms := runtime.comms.eraseP (·.id = comm.id) }
  | last (hregistered : comm.registered = true)
      (hlast : runtime.registeredOn comm.cudaDev = 1) :
      Reclaimed runtime comm freeOk
        { runtime with
          communicatorsByDevice := runtime.communicatorsByDevice.erase comm.cudaDev
          rankByDevice := runtime.rankByDevice.erase comm.cudaDev
          ownedPolicies := (releasePolicies comm.cudaDev freeOk runtime.ownedPolicies
            runtime.outside).2.1
          outside := (releasePolicies comm.cudaDev freeOk runtime.ownedPolicies
            runtime.outside).2.2
          comms := runtime.comms.eraseP (·.id = comm.id) }

variable {freeOk : ℕ → Bool}

include hfind

theorem reclaim_reclaimed (h : runtime.Balanced)
    (hcounted : runtime.Counted (.reclaim id freeOk)) :
    Reclaimed runtime comm freeOk (runtime.reclaim comm freeOk) := by
  have hlookup := h.counts comm.cudaDev
  unfold reclaim
  cases hregistered : comm.registered with
  | false =>
    cases hlinked : comm.linked with
    | false => exact .uncounted hregistered
    | true =>
      have hzero : runtime.registeredOn comm.cudaDev = 0 := by
        rcases hcounted comm hfind hlinked with hcontra | hzero
        · exact absurd (hregistered.symm.trans hcontra) nofun
        · exact hzero
      rw [if_pos hzero] at hlookup
      simp only [cocclCompressorRuntimeDestroy, hlookup, if_true]
      exact .uncounted hregistered
  | true =>
    have hlinked := h.linked comm (mem_of_find?_eq_some hfind) hregistered
    have hpos : 0 < runtime.registeredOn comm.cudaDev := by
      rw [registeredOn_eraseP hfind, hregistered]
      simp
    rw [if_neg hpos.ne'] at hlookup
    simp only [hlinked, if_true, cocclCompressorRuntimeDestroy, hlookup]
    split
    · exact .counted hregistered (by omega)
    · exact .last hregistered (by omega)

theorem registeredOn_reclaimed
    (h : Reclaimed runtime comm freeOk runtime') (d : ℕ) :
    runtime.registeredOn d =
      runtime'.registeredOn d + if comm.registered && comm.cudaDev == d then 1 else 0 := by
  rw [registeredOn_eraseP hfind]
  cases h <;> rfl

theorem Reclaimed.balanced (hb : runtime.Balanced)
    (h : Reclaimed runtime comm freeOk runtime') : runtime'.Balanced := by
  have hcount := registeredOn_reclaimed hfind h
  have hlinked : ∀ c ∈ runtime.comms.eraseP (·.id = comm.id), c.registered = true →
      c.linked = true := fun c hc => hb.linked c (mem_of_mem_eraseP hc)
  cases h with
  | uncounted hregistered =>
    simp only [hregistered, Bool.false_and, Bool.false_eq_true, if_false, add_zero] at hcount
    refine ⟨fun d => ?_, fun d hd => ?_, fun d hd => ?_, hlinked, hb.uninitialized⟩
    · rw [← hcount]
      exact hb.counts d
    · exact hb.ranks d (hcount d ▸ hd)
    · exact hb.released d ((hcount d).trans hd)
  | counted hregistered hmore =>
    simp only [hregistered, Bool.true_and, beq_iff_eq] at hcount
    refine ⟨fun d => ?_, fun d hd => ?_, fun d hd => ?_, hlinked, hb.uninitialized⟩
    · have hd := hcount d
      by_cases hdev : d = comm.cudaDev
      · subst hdev
        rw [if_pos rfl] at hd
        rw [lookup_insert, if_neg (by omega)]
        exact congrArg some (Nat.sub_eq_of_eq_add hd)
      · rw [if_neg (Ne.symm hdev), add_zero] at hd
        rw [lookup_insert_ne hdev, ← hd]
        exact hb.counts d
    · exact hb.ranks d (by rw [hcount d]; omega)
    · have hd' := hcount d
      rw [hd, zero_add] at hd'
      refine hb.released d ?_
      split at hd'
      · rename_i heq
        rw [heq] at hmore
        omega
      · exact hd'
  | last hregistered hlast =>
    simp only [hregistered, Bool.true_and, beq_iff_eq] at hcount
    refine ⟨fun d => ?_, fun d hd => ?_, fun d hd => ?_, hlinked, fun hnone => ?_⟩
    · have hd := hcount d
      by_cases hdev : d = comm.cudaDev
      · subst hdev
        rw [if_pos rfl] at hd
        rw [lookup_erase, if_pos (by omega)]
      · rw [if_neg (Ne.symm hdev), add_zero] at hd
        rw [lookup_erase_ne hdev, ← hd]
        exact hb.counts d
    · have hd' := hcount d
      by_cases hdev : d = comm.cudaDev
      · subst hdev
        rw [if_pos rfl] at hd'
        omega
      · rw [if_neg (Ne.symm hdev), add_zero] at hd'
        rw [lookup_erase_ne hdev]
        exact hb.ranks d (hd' ▸ hd)
    · have hd' := hcount d
      rw [hd, zero_add] at hd'
      simp only [resourcesOn, resourcesOn_releasePolicies]
      intro r hr
      obtain ⟨policy, hpolicy, rfl⟩ := mem_map.mp hr
      split
      · rfl
      · rename_i hdev
        rw [if_neg (Ne.symm hdev)] at hd'
        exact hb.released d hd' _ (mem_map_of_mem hpolicy)
    · have hnil : runtime.ownedPolicies = [] := hb.uninitialized hnone
      simp [hnil, releasePolicies]

/-- The resources of a device that still has a registered communicator stay. -/
theorem Reclaimed.resourcesOn
    (h : Reclaimed runtime comm freeOk runtime') {d : ℕ} (hd : runtime'.registeredOn d ≠ 0) :
    runtime'.resourcesOn d = runtime.resourcesOn d := by
  have hcount := registeredOn_reclaimed hfind h d
  cases h with
  | uncounted _ | counted _ _ => rfl
  | last hregistered hlast =>
    have hdev : d ≠ comm.cudaDev := by
      rintro rfl
      simp only [hregistered, Bool.true_and, beq_self_eq_true, if_true] at hcount
      omega
    simp only [DeviceRuntime.resourcesOn, resourcesOn_releasePolicies, if_neg hdev]

/-! ### All steps -/

omit hfind

variable {outside : Outside}

/-- What a policy holds for the device a plugin runs on is written anew. -/
theorem acquirePersistent_resources (policy : CompressorPolicy) (cudaDev slot bytes : ℕ)
    (freeOk : Bool) (malloc : Option ℕ) : ∃ device,
    (policy.acquirePersistent cudaDev slot bytes freeOk malloc outside).2.1.resources =
      policy.resources.insert cudaDev device := by
  unfold acquirePersistent
  simp only
  split
  · split
    · exact ⟨_, rfl⟩
    · split <;> exact ⟨_, rfl⟩
  · exact ⟨_, rfl⟩

theorem getOrCreateState_resources (policy : CompressorPolicy) (cudaDev typeKey destroyState : ℕ)
    (created : Option ℕ) : ∃ device,
    (policy.getOrCreateState cudaDev typeKey destroyState created outside).2.1.resources =
      policy.resources.insert cudaDev device := by
  unfold getOrCreateState
  simp only
  split
  · exact ⟨_, rfl⟩
  · split <;> exact ⟨_, rfl⟩

section

variable {index cudaDev : ℕ} {policy policy' : CompressorPolicy} {device : DeviceResources}
  (hindex : runtime.ownedPolicies[index]? = some policy)
  (hpolicy : policy'.resources = policy.resources.insert cudaDev device)

include hindex hpolicy

theorem resourcesOn_setPolicy (d : ℕ) : (runtime.setPolicy index policy' outside).resourcesOn d =
    if d = cudaDev then (runtime.resourcesOn d).set index (some device)
    else runtime.resourcesOn d := by
  obtain ⟨hlt, rfl⟩ := List.getElem?_eq_some_iff.mp hindex
  rw [resourcesOn, setPolicy, map_set, hpolicy]
  split
  · rename_i heq
    rw [heq, lookup_insert]
    rfl
  · rename_i hne
    rw [lookup_insert_ne hne, ← map_set (f := fun policy : CompressorPolicy =>
      policy.resources.lookup d), set_getElem_self]
    rfl

/-- A call of a plugin changes what a policy holds for the device it runs on. -/
theorem setPolicy_balanced (h : runtime.Balanced) (hdevice : runtime.registeredOn cudaDev ≠ 0) :
    (runtime.setPolicy index policy' outside).Balanced := by
  refine ⟨h.counts, h.ranks, fun d hd => ?_, h.linked, fun hnone => ?_⟩
  · have hne : d ≠ cudaDev := by
      rintro rfl
      exact hdevice hd
    rw [resourcesOn_setPolicy hindex hpolicy, if_neg hne]
    exact h.released d hd
  · rw [h.uninitialized hnone] at hindex
    cases hindex

end

/-- What a step leaves of what the policies hold for device `d`. New policies hold nothing, and a
plugin that runs on the device changes what its policy holds there. -/
inductive Kept (d : ℕ) (before : List (Option DeviceResources)) :
    RuntimeAction → List (Option DeviceResources) → Prop
  | same (action : RuntimeAction) : Kept d before action before
  | created (run : InitRun) (policies : ℕ) (h : before = []) :
      Kept d before (.commInit run) (replicate policies none)
  | acquired (index slot bytes : ℕ) (freeOk : Bool) (malloc : Option ℕ) (device : DeviceResources) :
      Kept d before (.acquirePersistent index d slot bytes freeOk malloc)
        (before.set index (some device))
  | constructed (index typeKey destroyState : ℕ) (state : Option ℕ) (device : DeviceResources) :
      Kept d before (.getOrCreateState index d typeKey destroyState state)
        (before.set index (some device))

theorem addComm_ownedPolicies (run : InitRun) (result : Option NcclError)
    (linked registered : Bool) :
    (runtime.addComm run result linked registered).ownedPolicies = runtime.ownedPolicies := by
  unfold addComm
  split <;> rfl

/-- The policies are the same after an initialisation, or new. -/
theorem commInit_kept (h : runtime.Balanced) (run : InitRun) (d : ℕ) :
    Kept d (runtime.resourcesOn d) (.commInit run)
      ((runtime.commInit configReady run).resourcesOn d) := by
  unfold resourcesOn commInit
  split
  · split
    · rw [addComm_ownedPolicies]
      exact .same _
    · change Kept d _ _ (map _ (DeviceRuntime.addComm (runtime.cocclInit configReady run).2 run
        _ true _).ownedPolicies)
      have hinit : (runtime.cocclCompressorRuntimeInit configReady run).2.ownedPolicies =
          (runtime.initializeOnce configReady run).ownedPolicies := by
        unfold cocclCompressorRuntimeInit
        split <;> rfl
      rw [addComm_ownedPolicies, cocclInit_snd, hinit]
      unfold initializeOnce
      split
      · exact .same _
      · rename_i hnone
        rw [h.uninitialized hnone]
        cases configReady with
        | false => exact .same _
        | true =>
          simp only [if_true, map_replicate]
          exact .created run run.policies rfl
  · rw [addComm_ownedPolicies]
    exact .same _

/-- **Every step keeps the counts, and the resources of the devices that are in use.** -/
theorem step_balanced {action : RuntimeAction} (h : runtime.Balanced)
    (hcounted : runtime.Counted action) (hstep : runtime.step configReady action = some runtime') :
    runtime'.Balanced ∧ ∀ d, runtime'.registeredOn d ≠ 0 →
      Kept d (runtime.resourcesOn d) action (runtime'.resourcesOn d) := by
  cases action with
  | commInit run =>
    obtain rfl := Option.some.inj hstep
    exact ⟨commInit_balanced h hcounted, fun d _ => commInit_kept h run d⟩
  | acquirePersistent index cudaDev slot bytes freeOk malloc =>
    simp only [step] at hstep
    split at hstep
    · cases hstep
    · rename_i hdevice
      obtain ⟨policy, hindex, rfl⟩ := Option.map_eq_some_iff.mp hstep
      obtain ⟨device, hpolicy⟩ := @acquirePersistent_resources runtime.outside policy cudaDev slot
        bytes freeOk malloc
      refine ⟨setPolicy_balanced hindex hpolicy h hdevice, fun d _ => ?_⟩
      rw [resourcesOn_setPolicy hindex hpolicy]
      split
      · rename_i heq
        exact heq ▸ .acquired ..
      · exact .same _
  | getOrCreateState index cudaDev typeKey destroyState created =>
    simp only [step] at hstep
    split at hstep
    · cases hstep
    · rename_i hdevice
      obtain ⟨policy, hindex, rfl⟩ := Option.map_eq_some_iff.mp hstep
      obtain ⟨device, hpolicy⟩ := @getOrCreateState_resources runtime.outside policy cudaDev typeKey
        destroyState created
      refine ⟨setPolicy_balanced hindex hpolicy h hdevice, fun d _ => ?_⟩
      rw [resourcesOn_setPolicy hindex hpolicy]
      split
      · rename_i heq
        exact heq ▸ .constructed ..
      · exact .same _
  | reclaim id freeOk =>
    obtain ⟨comm, hfind, rfl⟩ := Option.map_eq_some_iff.mp hstep
    have hreclaimed := reclaim_reclaimed hfind h hcounted
    refine ⟨hreclaimed.balanced hfind h, fun d hd => ?_⟩
    rw [hreclaimed.resourcesOn hfind hd]
    exact .same _

/-- The rank of a device is recorded and its resources are kept as long as it has a registered
communicator, and there are none otherwise. -/
structure LifetimeKept (configReady : Bool) (runtime : DeviceRuntime) : Prop where
  ranks : ∀ d, runtime.registeredOn d ≠ 0 → runtime.rankByDevice.lookup d ≠ none
  released : ∀ d, runtime.registeredOn d = 0 → ∀ r ∈ runtime.resourcesOn d, r = none
  kept : ∀ action runtime', runtime.Counted action →
    runtime.step configReady action = some runtime' →
    ∀ d, runtime'.registeredOn d ≠ 0 →
      Kept d (runtime.resourcesOn d) action (runtime'.resourcesOn d)

theorem reachable_lifetimeKept (h : Reachable (step configReady) Counted initial runtime) :
    LifetimeKept configReady runtime := by
  have hb : runtime.Balanced := h.invariant balanced_initial fun _ _ _ hb hcounted hstep =>
    (step_balanced hb hcounted hstep).1
  exact ⟨hb.ranks, hb.released, fun _ _ hcounted hstep => (step_balanced hb hcounted hstep).2⟩

/-- A communicator that is initialised in a group, with one policy. -/
def goodInit (cudaDev rank : ℕ) : InitRun := ⟨cudaDev, rank, false, true, none, 1, none, none⟩

/-- One that fails after it was linked to the others of its process. -/
def lateInit (cudaDev rank : ℕ) : InitRun :=
  ⟨cudaDev, rank, false, true, some .systemError, 1, none, none⟩

/-- A communicator, and a buffer of its policy. -/
def working : DeviceRuntime :=
  ((initial.commInit true (goodInit 0 3)).step true
    (.acquirePersistent 0 0 0 100 true (some 4096))).getD initial

theorem step_working : (initial.commInit true (goodInit 0 3)).step true
    (.acquirePersistent 0 0 0 100 true (some 4096)) = some working := rfl

theorem working_lifetimeKept :
    working.registeredOn 0 = 1 ∧ (working.resourcesOn 0).map Option.isSome = [true] ∧
      LifetimeKept true working := by
  refine ⟨by decide, by decide, reachable_lifetimeKept
    (.step (.step .start ?_ (show initial.step true (.commInit (goodInit 0 3)) = _ from rfl)) ?_
      step_working)⟩
  · exact fun _ => rfl
  · exact trivial

/-- Another communicator fails and is destroyed: the resources of the first are released, and its
rank is forgotten. -/
theorem lateInit_releases :
    ∃ runtime, Reachable (step true) (fun _ _ => True) initial runtime ∧
      runtime.registeredOn 0 = 1 ∧ runtime.rankByDevice.lookup 0 = none ∧
      (working.resourcesOn 0).map Option.isSome = [true] ∧
      (runtime.resourcesOn 0).map Option.isSome = [false] := by
  have hfirst : initial.step true (.commInit (goodInit 0 3)) = _ := rfl
  have hfailed : working.step true (.commInit (lateInit 0 5)) = _ := rfl
  have hreclaim := show (working.commInit true (lateInit 0 5)).step true
    (.reclaim 1 fun _ => true) = some _ from rfl
  exact ⟨_, .step (.step (.step (.step .start trivial hfirst) trivial step_working) trivial
    hfailed) trivial hreclaim, by decide, by decide, by decide, by decide⟩

end DeviceRuntime

end Coccl
