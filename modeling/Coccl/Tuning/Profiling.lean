import Coccl.Foundations.Transitions
import Mathlib

/-!
# Who takes part in profiling

When a communicator is initialised, a member that has nothing to profile on it returns at once; the
others enter an all-gather of all members. Each member is a process of its own; what it has profiled
it keeps for every later communicator. The processes share one configuration, with autotuning, no
call fails, and what is fitted comes from gathered observations, so it is the same on all members.
-/

namespace Coccl

open Transitions Finset

inductive ProfileNeed where
  | intra
  | inter
  | compressors
  deriving DecidableEq

instance : Fintype ProfileNeed where
  elems := {.intra, .inter, .compressors}
  complete need := by cases need <;> simp

/-- `cocclProcessPerformanceModel`, with the published models by what they were needed for. -/
structure ProcessModel (μ : Type) where
  attemptedProfiles : ProfileNeed → Bool
  models : ProfileNeed → Option μ

def ProcessModel.initial {μ : Type} : ProcessModel μ := ⟨fun _ => false, fun _ => none⟩

@[simp] theorem ProcessModel.initial_attemptedProfiles {μ : Type} (need : ProfileNeed) :
    (initial : ProcessModel μ).attemptedProfiles need = false := rfl

/-- A communicator that is initialised, and the valid models that are fitted if it is profiled. -/
structure Initialisation (ι μ : Type) where
  members : Finset ι
  fitted : ProfileNeed → Option μ

section

variable {ι μ : Type} [DecidableEq ι] (hasCompressors : Bool) (node : ι → ℕ)

def localProfileNeeds (members : Finset ι) (process : ι) (attemptedProfiles : ProfileNeed → Bool)
    (need : ProfileNeed) : Bool :=
  hasCompressors && !attemptedProfiles need &&
    match need with
    | .intra => 1 < (members.filter fun other => node other = node process).card
    | .inter => 1 < (members.image node).card
    | .compressors => true

def collectiveProfileNeeds (members : Finset ι) (state : ι → ProcessModel μ) (need : ProfileNeed) :
    Bool :=
  ∃ process ∈ members,
    localProfileNeeds hasCompressors node members process (state process).attemptedProfiles need

/-- `cocclAutotuneEnsureGlobalModels` on all members, `none` if some of them wait in the all-gather
for others that have returned. -/
def cocclAutotuneEnsureGlobalModels (state : ι → ProcessModel μ) (init : Initialisation ι μ) :
    Option (ι → ProcessModel μ) :=
  let enters (process : ι) := ∃ need, localProfileNeeds hasCompressors node init.members process
    (state process).attemptedProfiles need
  let needs := collectiveProfileNeeds hasCompressors node init.members state
  if ∀ process ∈ init.members, ¬enters process then some state
  else if ∀ process ∈ init.members, enters process then
    some fun process =>
      let old := state process
      if process ∈ init.members then
        { attemptedProfiles := fun need => old.attemptedProfiles need || needs need
          models := fun need =>
            if needs need then (init.fitted need).or (old.models need) else old.models need }
      else old
  else none

/-! ## A communicator of all processes -/

variable {attemptedProfiles : ProfileNeed → Bool} {members : Finset ι} {process : ι}

omit [DecidableEq ι] in
/-- What a process ever needs it needs at first on the communicator of all processes. -/
theorem localProfileNeeds_univ [Fintype ι] {need : ProfileNeed}
    (h : localProfileNeeds hasCompressors node members process attemptedProfiles need = true) :
    localProfileNeeds hasCompressors node univ process (fun _ => false) need = true := by
  have hlocal := card_le_card (filter_subset_filter (node · = node process) (subset_univ members))
  have hnodes := card_le_card (image_subset_image (f := node) (subset_univ members))
  cases need <;> simp_all [localProfileNeeds] <;> omega

theorem ensureGlobalModels_univ [Fintype ι] (fitted : ProfileNeed → Option μ) :
    ∃ model : ProcessModel μ, cocclAutotuneEnsureGlobalModels hasCompressors node
        (fun _ => .initial) ⟨univ, fitted⟩ = some (fun _ => model) ∧
      ∀ members process need, localProfileNeeds hasCompressors node members process
        model.attemptedProfiles need = false := by
  simp only [cocclAutotuneEnsureGlobalModels]
  split_ifs with hnone hall
  · refine ⟨.initial, rfl, fun members process need => Bool.eq_false_iff.mpr fun h => ?_⟩
    exact hnone process (mem_univ _) ⟨need, localProfileNeeds_univ _ _ h⟩
  · refine ⟨_, by simp only [mem_univ, if_true]; rfl, fun members process need =>
      Bool.eq_false_iff.mpr fun h => ?_⟩
    have hneed : collectiveProfileNeeds hasCompressors node univ
        (fun _ => (ProcessModel.initial : ProcessModel μ)) need = true :=
      decide_eq_true ⟨process, mem_univ _, localProfileNeeds_univ _ _ h⟩
    simp [localProfileNeeds, hneed] at h
  · -- with compressors everybody needs a model of them at first, without them nobody anything
    cases hasCompressors with
    | false => exact absurd (fun _ _ => by simp [localProfileNeeds]) hnone
    | true => exact absurd (fun _ _ => ⟨.compressors, by simp [localProfileNeeds]⟩) hall

/-- **If a communicator of all processes comes first, profiling never blocks**, and all processes
have the same models ever after. -/
theorem ensureGlobalModels_worldFirst [Fintype ι] (fitted : ProfileNeed → Option μ) :
    ∃ model : ProcessModel μ, ∀ later : List (Initialisation ι μ),
      run (cocclAutotuneEnsureGlobalModels hasCompressors node) (fun _ => .initial)
        (⟨univ, fitted⟩ :: later) = some fun _ => model := by
  obtain ⟨model, hfirst, hneeds⟩ := ensureGlobalModels_univ hasCompressors node fitted
  refine ⟨model, fun later => ?_⟩
  induction later using List.reverseRecOn with
  | nil => simpa [run] using hfirst
  | append_singleton later init ih =>
    rw [← List.cons_append, run_snoc, ih]
    exact if_pos fun process _ => by simp [hneeds]

/-! ## Two communicators on one node -/

omit [DecidableEq ι] in
theorem exists_need_iff :
    (∃ need, localProfileNeeds true (fun _ => 0) members process attemptedProfiles need = true) ↔
      attemptedProfiles .compressors = false ∨
        attemptedProfiles .intra = false ∧ 1 < members.card := by
  have hnodes : (members.image fun _ => 0).card ≤ 1 := card_le_one.mpr fun a ha b hb => by simp_all
  constructor
  · rintro ⟨need, h⟩
    cases need <;> simp_all [localProfileNeeds]
    omega
  · rintro (h | h)
    · exact ⟨.compressors, by simp [localProfileNeeds, h]⟩
    · exact ⟨.intra, by simp [localProfileNeeds, h]⟩

/-- **On one node a second communicator is initialised** exactly if it is inside the first, or apart
from it, or the first has a single member. -/
theorem ensureGlobalModels_second_iff (first second : Initialisation ι μ) :
    (run (cocclAutotuneEnsureGlobalModels true fun _ => 0) (fun _ => .initial)
        [first, second]).isSome ↔
      first.members.card ≤ 1 ∨ second.members ⊆ first.members ∨
        Disjoint first.members second.members := by
  -- who enters the second all-gather: processes that were not in the first, and those alone in it
  obtain ⟨state, hfirst, hstate⟩ : ∃ state, cocclAutotuneEnsureGlobalModels true (fun _ => 0)
      (fun _ => (.initial : ProcessModel μ)) first = some state ∧ ∀ process,
        ((∃ need, localProfileNeeds true (fun _ => 0) second.members process
          (state process).attemptedProfiles need = true) ↔
            process ∉ first.members ∨ first.members.card ≤ 1 ∧ 1 < second.members.card) := by
    simp only [cocclAutotuneEnsureGlobalModels, exists_need_iff]
    rcases first.members.eq_empty_or_nonempty with hempty | ⟨member, hmember⟩
    · exact ⟨_, if_pos (by simp [hempty]), by simp [hempty]⟩
    · have hcompressors : collectiveProfileNeeds true (fun _ => 0) first.members
          (fun _ => (.initial : ProcessModel μ)) .compressors = true :=
        decide_eq_true ⟨member, hmember, rfl⟩
      have hintra : collectiveProfileNeeds true (fun _ => 0) first.members
          (fun _ => (.initial : ProcessModel μ)) .intra = decide (1 < first.members.card) := by
        rw [collectiveProfileNeeds, decide_eq_decide]
        simpa [localProfileNeeds] using fun _ => ⟨member, hmember⟩
      refine ⟨_, (if_neg fun h => h member hmember (.inl rfl)).trans
        (if_pos fun _ _ => .inl rfl), fun process => ?_⟩
      by_cases hmem : process ∈ first.members <;> simp [hmem, hcompressors, hintra]
  have hrun : run (cocclAutotuneEnsureGlobalModels true fun _ => 0) (fun _ => .initial)
      [first, second] = cocclAutotuneEnsureGlobalModels true (fun _ => 0) state second := by
    simp [run, hfirst]
  rw [hrun]
  simp only [cocclAutotuneEnsureGlobalModels, hstate, disjoint_left, subset_iff]
  have hsingle := @card_le_one _ second.members
  split_ifs <;> grind

end

end Coccl
