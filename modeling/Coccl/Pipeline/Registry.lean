import Coccl.Foundations.Transitions
import Coccl.Basic

/-!
# The threads' registries of resources

The cache of streams, events and pinned buffers is thread-local and keyed by the communicator's
address. A communicator is destroyed by one thread, which erases the entry of its own registry only;
the address may be given to a later communicator. Entries are named by the number of the
communicator they were created for. `NoStale` says that no thread holds an entry of one that is
gone.
-/

namespace Coccl

open Transitions Option

variable {τ : Type} [DecidableEq τ]

/-- The communicator that lives at each address, and the registries. -/
structure RegistryState (τ : Type) where
  live : ℕ → Option ℕ
  created : ℕ
  resourcesByComm : τ → ℕ → Option ℕ

/-- What a thread does. `run` is a pipeline run; it may need resources, and creating them may
fail. -/
inductive RegistryAction (τ : Type) where
  | init (comm : ℕ)
  | run (thread : τ) (comm : ℕ) (usesResources creates : Bool)
  | destroy (thread : τ) (comm : ℕ)
  deriving DecidableEq

namespace RegistryState

/-- Nothing has been created. -/
def initial : RegistryState τ where
  live := fun _ => none
  created := 0
  resourcesByComm := fun _ _ => none

variable (state : RegistryState τ)

/-- The registries with one thread's entry for an address replaced. -/
def setEntry (thread : τ) (comm : ℕ) (entry : Option ℕ) : τ → ℕ → Option ℕ :=
  fun t c => if t = thread ∧ c = comm then entry else state.resourcesByComm t c

/-- The entry a run gets: what its thread holds for the address, or a new one for the communicator
that lives there. -/
def findOrCreateEntry (thread : τ) (comm owner : ℕ) (creates : Bool) : Option ℕ :=
  match state.resourcesByComm thread comm with
  | some entry => some entry
  | none => if creates then some owner else none

/-- A new communicator takes a free address; runs and destruction need one that lives. -/
def step : RegistryAction τ → Option (RegistryState τ)
  | .init comm =>
    if (state.live comm).isNone then
      some { state with
        live := Function.update state.live comm (some state.created)
        created := state.created + 1 }
    else none
  | .run thread comm usesResources creates =>
    match state.live comm with
    | none => none
    | some owner =>
      some { state with
        resourcesByComm :=
          if usesResources then
            state.setEntry thread comm (state.findOrCreateEntry thread comm owner creates)
          else state.resourcesByComm }
  | .destroy thread comm =>
    if (state.live comm).isSome then
      some { state with
        live := Function.update state.live comm none
        resourcesByComm := state.setEntry thread comm none }
    else none

/-- No thread holds resources of a communicator that is gone. -/
def NoStale : Prop :=
  ∀ thread comm owner, state.resourcesByComm thread comm = some owner → state.live comm = some owner

variable {state}

omit [DecidableEq τ] in
/-- A run uses the resources of its own communicator. -/
theorem NoStale.uses_own {thread : τ} {comm owner entry : ℕ} {creates : Bool}
    (h : state.NoStale) (hlive : state.live comm = some owner)
    (hentry : state.findOrCreateEntry thread comm owner creates = some entry) : entry = owner := by
  unfold findOrCreateEntry at hentry
  split at hentry
  · rename_i found hfound
    obtain rfl := some.inj hentry
    exact some.inj ((h thread comm found hfound).symm.trans hlive)
  · split at hentry
    · exact (some.inj hentry).symm
    · cases hentry

end RegistryState

/-! ## Histories -/

/-- The threads that took resources for the communicator now at an address, or last there. -/
def runners : List (RegistryAction τ) → ℕ → List τ :=
  List.foldl (fun threads action => match action with
    | .init comm => Function.update threads comm []
    | .run thread comm usesResources creates =>
      if usesResources && creates then Function.update threads comm (thread :: threads comm)
      else threads
    | .destroy _ _ => threads) fun _ => []

/-- A communicator is destroyed by the only thread that took resources for it. -/
def DestroyedByRunner (history : List (RegistryAction τ)) : RegistryAction τ → Prop
  | .destroy thread comm => ∀ t ∈ runners history comm, t = thread
  | _ => True

section

variable {history : List (RegistryAction τ)} {state next : RegistryState τ}

omit [DecidableEq τ] in
theorem runners_snoc (history : List (RegistryAction τ)) (action : RegistryAction τ) :
    runners (history ++ [action]) = match action with
      | .init comm => Function.update (runners history) comm []
      | .run thread comm usesResources creates =>
        if usesResources && creates then
          Function.update (runners history) comm (thread :: runners history comm)
        else runners history
      | .destroy _ _ => runners history := by
  simp only [runners, List.foldl_append, List.foldl_cons, List.foldl_nil]

/-- Threads hold resources exactly for the live communicators they took some for. -/
structure Tracked (history : List (RegistryAction τ)) (state : RegistryState τ) : Prop where
  noStale : state.NoStale
  runner : ∀ t comm, (state.resourcesByComm t comm).isSome ↔
    (state.live comm).isSome ∧ t ∈ runners history comm

omit [DecidableEq τ] in
theorem tracked_initial : Tracked ([] : List (RegistryAction τ)) RegistryState.initial :=
  ⟨nofun, fun _ _ => by simp [RegistryState.initial, runners]⟩

omit [DecidableEq τ] in
theorem Tracked.init {comm : ℕ} (h : Tracked history state) (hfree : state.live comm = none) :
    Tracked (history ++ [.init comm]) { state with
      live := Function.update state.live comm (some state.created)
      created := state.created + 1 } := by
  have hnone : ∀ t, state.resourcesByComm t comm = none := by
    intro t
    cases hentry : state.resourcesByComm t comm with
    | none => rfl
    | some owner => exact absurd ((h.noStale t comm owner hentry).symm.trans hfree) nofun
  constructor
  · intro t c owner hentry
    by_cases hc : c = comm
    · subst hc
      exact absurd ((hnone t).symm.trans hentry) nofun
    · simpa [hc] using h.noStale t c owner hentry
  · intro t c
    rw [runners_snoc]
    by_cases hc : c = comm
    · subst hc
      simp [hnone]
    · simpa [hc] using h.runner t c

theorem Tracked.run {thread : τ} {comm owner : ℕ} {usesResources creates : Bool}
    (h : Tracked history state) (hlive : state.live comm = some owner) :
    Tracked (history ++ [.run thread comm usesResources creates]) { state with
      resourcesByComm :=
        if usesResources then
          state.setEntry thread comm (state.findOrCreateEntry thread comm owner creates)
        else state.resourcesByComm } := by
  cases usesResources with
  | false => exact ⟨h.noStale, fun t c => by rw [runners_snoc]; exact h.runner t c⟩
  | true =>
    constructor
    · intro t c found hfound
      simp only [if_true, RegistryState.setEntry] at hfound
      split at hfound
      · rename_i heq
        obtain ⟨rfl, rfl⟩ := heq
        rw [h.noStale.uses_own hlive hfound]
        exact hlive
      · exact h.noStale t c found hfound
    · intro t c
      have hentry : (state.findOrCreateEntry thread comm owner creates).isSome = true ↔
          thread ∈ runners history comm ∨ creates = true := by
        have hbefore := h.runner thread comm
        rw [hlive] at hbefore
        unfold RegistryState.findOrCreateEntry
        cases hfound : state.resourcesByComm thread comm with
        | some entry => simpa [hfound] using Or.inl (hbefore.mp (by simp [hfound]))
        | none =>
          have hnot : thread ∉ runners history comm := by simpa [hfound] using hbefore
          cases creates <;> simp [hnot]
      rw [runners_snoc]
      by_cases hkey : t = thread ∧ c = comm
      · obtain ⟨rfl, rfl⟩ := hkey
        cases creates <;> simpa [RegistryState.setEntry, hlive] using hentry
      · have hother := h.runner t c
        by_cases hc : c = comm
        · subst hc
          have ht : t ≠ thread := fun ht => hkey ⟨ht, rfl⟩
          cases creates <;> simpa [RegistryState.setEntry, ht] using hother
        · cases creates <;> simpa [RegistryState.setEntry, hc] using hother

/-- Destruction leaves nothing behind exactly when no other thread holds an entry. -/
theorem Tracked.destroy {thread : τ} {comm : ℕ} (h : Tracked history state)
    (hlive : (state.live comm).isSome = true) :
    let next : RegistryState τ := { state with
      live := Function.update state.live comm none
      resourcesByComm := state.setEntry thread comm none }
    (next.NoStale ↔ ∀ t ∈ runners history comm, t = thread) ∧
      ((∀ t ∈ runners history comm, t = thread) →
        Tracked (history ++ [.destroy thread comm]) next) := by
  intro next
  have hholds : ∀ t, (state.resourcesByComm t comm).isSome = true ↔ t ∈ runners history comm :=
    fun t => (h.runner t comm).trans (and_iff_right hlive)
  have hstale : next.NoStale ↔ ∀ t ∈ runners history comm, t = thread := by
    constructor
    · intro hnext t ht
      by_contra hne
      obtain ⟨owner, howner⟩ := isSome_iff_exists.mp ((hholds t).mpr ht)
      have hlive' := hnext t comm owner (by simp [next, RegistryState.setEntry, hne, howner])
      simp [next] at hlive'
    · intro hall t c owner hentry
      simp only [next, RegistryState.setEntry] at hentry
      split at hentry
      · cases hentry
      · rename_i hkey
        have hc : c ≠ comm := by
          rintro rfl
          exact hkey ⟨hall t ((hholds t).mp (by simp [hentry])), rfl⟩
        simpa [next, hc] using h.noStale t c owner hentry
  refine ⟨hstale, fun hall => ⟨hstale.mpr hall, fun t c => ?_⟩⟩
  rw [runners_snoc]
  by_cases hc : c = comm
  · subst hc
    by_cases ht : t = thread
    · simp [next, RegistryState.setEntry, ht]
    · have hnone : ¬(state.resourcesByComm t c).isSome = true := fun hsome =>
        ht (hall t ((hholds t).mp hsome))
      simpa [next, RegistryState.setEntry, ht] using hnone
  · simpa [next, RegistryState.setEntry, hc] using h.runner t c

theorem Tracked.step {action : RegistryAction τ} (h : Tracked history state)
    (hstep : state.step action = some next) :
    (next.NoStale ↔ DestroyedByRunner history action) ∧
      (DestroyedByRunner history action → Tracked (history ++ [action]) next) := by
  cases action with
  | init comm =>
    obtain ⟨hnone, ⟨⟩⟩ := ite_none_right_eq_some.mp hstep
    have htracked := h.init (isNone_iff_eq_none.mp hnone)
    exact ⟨iff_of_true htracked.noStale trivial, fun _ => htracked⟩
  | run thread comm usesResources creates =>
    simp only [RegistryState.step] at hstep
    split at hstep
    · cases hstep
    · rename_i owner hlive
      obtain rfl := some.inj hstep
      have htracked := @Tracked.run _ _ history state thread comm owner usesResources creates
        h hlive
      exact ⟨iff_of_true htracked.noStale trivial, fun _ => htracked⟩
  | destroy thread comm =>
    obtain ⟨hlive, ⟨⟩⟩ := ite_none_right_eq_some.mp hstep
    exact h.destroy hlive

/-- Along a history no thread holds resources of a communicator that is gone, and no run is given
any. -/
structure OwnResources (history : List (RegistryAction τ)) : Prop where
  noStale : AllStates RegistryState.step .initial RegistryState.NoStale history
  runs : ∀ before thread comm creates s owner entry,
    before ++ [.run thread comm true creates] <+: history →
    run RegistryState.step .initial before = some s → s.live comm = some owner →
    s.findOrCreateEntry thread comm owner creates = some entry → entry = owner

/-- **Resources and the life of a communicator.** In a history every thread's resources belong to
live communicators, and every run's to its own, exactly when each communicator is destroyed by the
only thread that took resources for it. -/
theorem ownResources_iff {s : RegistryState τ}
    (h : run RegistryState.step .initial history = some s) :
    OwnResources history ↔ AllSteps DestroyedByRunner history := by
  have hiff : AllStates RegistryState.step .initial RegistryState.NoStale history ↔
      AllSteps DestroyedByRunner history :=
    allStates_iff_allSteps tracked_initial nofun (fun _ _ _ _ => Tracked.step) h
  refine ⟨fun hown => hiff.mp hown.noStale, fun hsteps => ⟨hiff.mpr hsteps, ?_⟩⟩
  intro before thread comm creates t owner entry hbefore ht hlive hentry
  refine RegistryState.NoStale.uses_own (hiff.mpr hsteps before t ?_ ht) hlive hentry
  exact (List.prefix_append _ _).trans hbefore

end

/-- One thread runs a pipeline on a communicator, another destroys it, and the first runs one on a
communicator at the same address. -/
def reusedAddress : List (RegistryAction Bool) :=
  [.init 0, .run true 0 true true, .destroy false 0, .init 0, .run true 0 true true]

theorem reusedAddress_not_ownResources : ¬OwnResources reusedAddress := by
  intro h
  have hentry := h.runs [.init 0, .run true 0 true true, .destroy false 0, .init 0] true 0 true
    _ 1 0 List.prefix_rfl rfl rfl rfl
  exact absurd hentry (by decide)

/-- A communicator used and destroyed in one thread. -/
theorem ownResources_one_thread :
    OwnResources [RegistryAction.init 0, .run true 0 true true, .destroy true 0] := by
  refine (ownResources_iff rfl).mpr ?_
  change AllSteps DestroyedByRunner
    ((([] ++ [.init 0]) ++ [.run true 0 true true]) ++ [.destroy true 0])
  simp only [allSteps_snoc]
  refine ⟨⟨⟨allSteps_nil, trivial⟩, trivial⟩, ?_⟩
  simp [DestroyedByRunner, runners]

end Coccl
