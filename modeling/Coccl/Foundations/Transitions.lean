import Mathlib.Tactic

/-!
# Runs of transition functions

A system is given by a partial step function: an action that a state does not allow has no next
state. A history is the list of the actions so far; `Reachable` are the states that steps meeting a
condition lead to.
-/

namespace Transitions

open List

variable {σ α : Type*} (step : σ → α → Option σ)

/-- The state after a list of actions. -/
def run (start : σ) (actions : List α) : Option σ := actions.foldlM step start

variable {step} {start : σ}

@[simp] theorem run_nil : run step start [] = some start := rfl

theorem run_append (before after : List α) : run step start (before ++ after) =
      (run step start before).bind fun s => run step s after := foldlM_append

theorem run_snoc (history : List α) (action : α) : run step start (history ++ [action]) =
      (run step start history).bind fun s => step s action := by
  rw [run_append]
  congr 1
  funext s
  simp [run]

variable {history : List α} {action : α}

theorem run_snoc_eq_some {t : σ} : run step start (history ++ [action]) = some t ↔
      ∃ s, run step start history = some s ∧ step s action = some t := by
  rw [run_snoc, Option.bind_eq_some_iff]

/-- Induction along a run, with its history. -/
theorem run_induction {P : List α → σ → Prop} (hstart : P [] start)
    (hstep : ∀ history s action t, P history s → step s action = some t → P (history ++ [action]) t)
    {history : List α} {s : σ} (h : run step start history = some s) : P history s := by
  induction history using reverseRecOn generalizing s with
  | nil =>
    obtain rfl := Option.some.inj h
    exact hstart
  | append_singleton history action ih =>
    obtain ⟨t, ht, hs⟩ := run_snoc_eq_some.mp h
    exact hstep history t action s (ih ht) hs

variable (step start) in
/-- Every state a history passes through has a property. -/
def AllStates (P : σ → Prop) (history : List α) : Prop :=
  ∀ before t, before <+: history → run step start before = some t → P t

/-- Every step of a history meets a condition, given the history before it. -/
def AllSteps (C : List α → α → Prop) (history : List α) : Prop :=
  ∀ before action, before ++ [action] <+: history → C before action

variable {C : List α → α → Prop}

theorem allSteps_nil : AllSteps C [] := by
  intro before action hbefore
  simp at hbefore

theorem allStates_snoc {P : σ → Prop} {t : σ} (h : run step start (history ++ [action]) = some t) :
    AllStates step start P (history ++ [action]) ↔ AllStates step start P history ∧ P t := by
  constructor
  · intro hall
    exact ⟨fun before u hbefore => hall before u (hbefore.trans (prefix_append _ _)),
      hall _ t prefix_rfl h⟩
  · rintro ⟨hall, ht⟩ before u hbefore hu
    rcases prefix_concat_iff.mp hbefore with rfl | hbefore
    · obtain rfl := Option.some.inj (h.symm.trans hu)
      exact ht
    · exact hall before u hbefore hu

theorem allSteps_snoc :
    AllSteps C (history ++ [action]) ↔ AllSteps C history ∧ C history action := by
  constructor
  · intro hall
    exact ⟨fun before a hbefore => hall before a (hbefore.trans (prefix_append _ _)),
      hall history action prefix_rfl⟩
  · rintro ⟨hall, haction⟩ before a hbefore
    rcases prefix_concat_iff.mp hbefore with heq | hbefore
    · obtain ⟨rfl, rfl⟩ := concat_inj.mp (by simpa using heq)
      exact haction
    · exact hall before a hbefore

/-- A property `P` of all states along a run amounts to a condition `C` on its steps, if from a
state with the invariant `I` a step leads to `P` exactly when it meets `C`, and then keeps `I`. -/
theorem allStates_iff_allSteps {P : σ → Prop} {I : List α → σ → Prop} (hI : I [] start)
    (hP : P start) (hstep : ∀ history s action t, I history s → step s action = some t →
      (P t ↔ C history action) ∧ (C history action → I (history ++ [action]) t)) {s : σ}
    (h : run step start history = some s) :
    AllStates step start P history ↔ AllSteps C history := by
  suffices hboth : (AllStates step start P history ↔ AllSteps C history) ∧
      (AllSteps C history → I history s) from hboth.1
  induction history using reverseRecOn generalizing s with
  | nil =>
    obtain rfl := Option.some.inj h
    refine ⟨⟨fun _ => allSteps_nil, fun _ before t hbefore ht => ?_⟩, fun _ => hI⟩
    obtain rfl := prefix_nil.mp hbefore
    obtain rfl := Option.some.inj ht
    exact hP
  | append_singleton history action ih =>
    obtain ⟨t, ht, hs⟩ := run_snoc_eq_some.mp h
    obtain ⟨hiff, hinv⟩ := ih ht
    rw [allStates_snoc h, allSteps_snoc, hiff]
    constructor
    · exact and_congr_right fun hall => (hstep history t action s (hinv hall) hs).1
    · rintro ⟨hall, haction⟩
      exact (hstep history t action s (hinv hall) hs).2 haction

variable (step) in
/-- The states that steps meeting a condition lead to. -/
inductive Reachable (C : σ → α → Prop) (start : σ) : σ → Prop where
  | start : Reachable C start start
  | step {s t : σ} {action : α} (hs : Reachable C start s) (hC : C s action)
      (hstep : step s action = some t) : Reachable C start t

variable {C : σ → α → Prop}

theorem Reachable.invariant {I : σ → Prop} (hI : I start)
    (hkeep : ∀ s action t, I s → C s action → step s action = some t → I t) {s : σ}
    (h : Reachable step C start s) : I s := by
  induction h with
  | start => exact hI
  | step _ hC hstep ih => exact hkeep _ _ _ ih hC hstep

/-- A run leads to a reachable state, if its actions meet the condition in every state. -/
theorem reachable_of_run {history : List α} (hC : ∀ action ∈ history, ∀ s, C s action) {s : σ}
    (h : run step start history = some s) : Reachable step C start s := by
  refine @run_induction _ _ step start
    (fun history s => (∀ action ∈ history, ∀ s, C s action) → Reachable step C start s)
    (fun _ => .start) (fun history s action t ih hstep hall => ?_) history s h hC
  exact .step (ih fun a ha => hall a (mem_append_left _ ha))
    (hall action (mem_append_right _ mem_cons_self) s) hstep

end Transitions
