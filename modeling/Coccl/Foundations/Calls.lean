import Mathlib.Tactic

/-!
# Sequences of calls with an early exit

A call takes a state to a result and a new state, or has no outcome. `sequence` makes calls one
after the other and returns with the first result at which it has to stop.
-/

namespace Calls

variable {σ ρ ι : Type*}

/-- A call on a state. -/
abbrev Call (σ ρ : Type*) := σ → Option (ρ × σ)

/-- Make the calls in order, until one of them returns a result at which to stop. -/
def sequence (stop : ρ → Bool) (done : ρ) : List (Call σ ρ) → Call σ ρ
  | [], s => some (done, s)
  | call :: calls, s =>
    match call s with
    | none => none
    | some (r, s) => if stop r then some (r, s) else sequence stop done calls s

variable {stop : ρ → Bool} {done : ρ}

theorem sequence_spec {I : σ → Prop} {R : σ → σ → Prop} (hrefl : ∀ s, R s s)
    (htrans : ∀ s t u, R s t → R t u → R s u) {calls : List (Call σ ρ)}
    (hcalls : ∀ call ∈ calls, ∀ s, I s → ∃ r s', call s = some (r, s') ∧ I s' ∧ R s s') {s : σ}
    (hs : I s) : ∃ r s', sequence stop done calls s = some (r, s') ∧ I s' ∧ R s s' := by
  induction calls generalizing s with
  | nil => exact ⟨done, s, rfl, hs, hrefl s⟩
  | cons call calls ih =>
    obtain ⟨r, s', hcall, hs', hR⟩ := hcalls call List.mem_cons_self s hs
    rw [sequence, hcall]
    by_cases hstop : stop r
    · exact ⟨r, s', if_pos hstop, hs', hR⟩
    · obtain ⟨r', s'', hrest, hs'', hR'⟩ :=
        ih (fun call h => hcalls call (List.mem_cons_of_mem _ h)) hs'
      exact ⟨r', s'', (if_neg hstop).trans hrest, hs'', htrans _ _ _ hR hR'⟩

/-- The states a list of items leads through, each from the state before by `Q`. -/
inductive Through (Q : ι → σ → σ → Prop) : List ι → σ → σ → Prop where
  | nil (s : σ) : Through Q [] s s
  | cons {i : ι} {is : List ι} {s t u : σ} (h : Q i s t) (hs : Through Q is t u) :
    Through Q (i :: is) s u

/-- A sequence that did not stop has made every call. -/
theorem sequence_through {I : σ → Prop} {Q : ι → σ → σ → Prop} {call : ι → Call σ ρ} {is : List ι}
    (hcalls : ∀ i ∈ is, ∀ s r s', I s → call i s = some (r, s') → stop r = false →
      I s' ∧ Q i s s') {s s' : σ} {r : ρ} (hs : I s)
    (h : sequence stop done (is.map call) s = some (r, s')) (hgo : stop r = false) :
    Through Q is s s' := by
  induction is generalizing s with
  | nil =>
    cases h
    exact .nil _
  | cons i is ih =>
    rw [List.map_cons, sequence] at h
    split at h
    · cases h
    · next r' t hcall =>
      by_cases hstop : stop r' = true
      · rw [if_pos hstop] at h
        cases h
        rw [hgo] at hstop
        cases hstop
      · rw [if_neg hstop] at h
        obtain ⟨ht, hQ⟩ := hcalls i List.mem_cons_self s r' t hs hcall (by simpa using hstop)
        exact .cons hQ (ih (fun i hi => hcalls i (List.mem_cons_of_mem _ hi)) ht h)

end Calls
