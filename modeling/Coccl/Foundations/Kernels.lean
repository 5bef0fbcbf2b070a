import Mathlib.Tactic

/-!
# Kernels

What the threads of a kernel do to a memory: agents that load locations into registers, compute, and
store. All loads of an agent come before its stores, and nothing else is ordered. If no agent stores
to what another one loads, and no location is stored to twice, every legal order leaves what is
computed from the memory before (`run_legal`).
-/

namespace Kernels

open List Function

/-- The loads and stores of a kernel. Registers and stores are named by whoever describes it. -/
structure Kernel (ι L R S V : Type*) where
  loads : List R
  stores : List S
  loader : R → ι
  storer : S → ι
  source : R → L
  target : S → L
  value : S → (R → V) → V
  /-- What is stored is computed from the registers of the agent. -/
  value_congr : ∀ s ∈ stores, ∀ registers registers' : R → V,
    (∀ r ∈ loads, loader r = storer s → registers r = registers' r) →
      value s registers = value s registers'

namespace Kernel

variable {ι L R S V : Type*} (K : Kernel ι L R S V)

/-- An order of all loads and stores in which each agent loads before it stores. -/
structure Legal (order : List (R ⊕ S)) : Prop where
  perm : order.Perm (K.loads.map Sum.inl ++ K.stores.map Sum.inr)
  before : ∀ done s rest, order = done ++ .inr s :: rest →
    ∀ r ∈ K.loads, K.loader r = K.storer s → .inl r ∈ done

/-- The agents do not get in each other's way. -/
structure RaceFree : Prop where
  loads_nodup : K.loads.Nodup
  stores_nodup : K.stores.Nodup
  target_inj : ∀ s ∈ K.stores, ∀ s' ∈ K.stores, K.target s = K.target s' → s = s'
  apart : ∀ s ∈ K.stores, ∀ r ∈ K.loads, K.target s = K.source r → K.storer s = K.loader r

variable {K} {order : List (R ⊕ S)}

theorem Legal.mem_loads (h : K.Legal order) {r : R} : .inl r ∈ order ↔ r ∈ K.loads := by
  rw [h.perm.mem_iff]
  simp

theorem Legal.mem_stores (h : K.Legal order) {s : S} : .inr s ∈ order ↔ s ∈ K.stores := by
  rw [h.perm.mem_iff]
  simp

theorem Legal.nodup (h : K.Legal order) (hfree : K.RaceFree) : order.Nodup := by
  refine h.perm.nodup_iff.mpr (nodup_append.mpr ⟨hfree.loads_nodup.map Sum.inl_injective,
    hfree.stores_nodup.map Sum.inr_injective, ?_⟩)
  intro a ha b hb hab
  obtain ⟨r, -, rfl⟩ := mem_map.mp ha
  obtain ⟨s, -, rfl⟩ := mem_map.mp hb
  cases hab

theorem legal_loads_first : K.Legal (K.loads.map Sum.inl ++ K.stores.map Sum.inr) where
  perm := List.Perm.refl _
  before := by
    intro done s rest heq r hr _
    have hload : (.inl r : R ⊕ S) ∈ K.loads.map Sum.inl := mem_map_of_mem hr
    rcases append_eq_append_iff.mp heq with ⟨stored, rfl, -⟩ | ⟨loaded, hloads, hstores⟩
    · exact mem_append_left _ hload
    · -- the loads do not end in a store
      cases loaded with
      | nil => rwa [hloads, append_nil] at hload
      | cons event loaded =>
        obtain ⟨rfl, -⟩ := cons_eq_cons.mp hstores
        have hmem : (.inr s : R ⊕ S) ∈ K.loads.map Sum.inl := by rw [hloads]; simp
        obtain ⟨_, -, hne⟩ := mem_map.mp hmem
        cases hne

/-! ## Runs -/

/-- A memory and the registers. -/
structure State (L R V : Type*) where
  memory : L → V
  registers : R → V

variable [DecidableEq L] [DecidableEq R]

variable (K) in
/-- A load or a store takes effect. -/
def act (state : State L R V) : R ⊕ S → State L R V
  | .inl r => { state with
      registers := Function.update state.registers r (state.memory (K.source r)) }
  | .inr s => { state with
      memory := Function.update state.memory (K.target s) (K.value s state.registers) }

variable (K) in
/-- The state after some loads and stores. -/
def run (order : List (R ⊕ S)) (state : State L R V) : State L R V := order.foldl K.act state

theorem run_memory_of_not_mem {state : State L R V} {l : L}
    (h : ∀ s, .inr s ∈ order → K.target s ≠ l) : (K.run order state).memory l = state.memory l := by
  induction order generalizing state with
  | nil => rfl
  | cons event order ih =>
    refine (ih fun s hs => h s (mem_cons_of_mem _ hs)).trans ?_
    cases event with
    | inl r => rfl
    | inr s => exact update_of_ne (h s mem_cons_self).symm _ _

theorem run_concat (order : List (R ⊕ S)) (event : R ⊕ S) (state : State L R V) :
    K.run (order ++ [event]) state = K.act (K.run order state) event :=
  foldl_concat ..

/-- When a register is loaded, no store has changed its source. -/
theorem Legal.source_unchanged (horder : K.Legal order) (hfree : K.RaceFree) (state : State L R V)
    {done rest : List (R ⊕ S)} {r : R} (hsplit : order = done ++ .inl r :: rest) :
    (K.run done state).memory (K.source r) = state.memory (K.source r) := by
  refine run_memory_of_not_mem fun s hs heq => ?_
  have hr : r ∈ K.loads := horder.mem_loads.mp (by rw [hsplit]; simp)
  have hs' : s ∈ K.stores := horder.mem_stores.mp (by
    rw [hsplit]
    exact mem_append_left _ hs)
  obtain ⟨front, back, hdone⟩ := append_of_mem hs
  have hload := horder.before front s (back ++ .inl r :: rest)
    (by rw [hsplit, hdone, append_assoc, cons_append]) r hr
    (hfree.apart s hs' r hr heq).symm
  have hnodup := horder.nodup hfree
  rw [hsplit, hdone, append_assoc] at hnodup
  exact (nodup_append.mp hnodup).2.2 _ hload _ (by simp) rfl

theorem run_part (hfree : K.RaceFree) (horder : K.Legal order) (state : State L R V)
    {done rest : List (R ⊕ S)} (hsplit : order = done ++ rest) :
    (∀ r, .inl r ∈ done → (K.run done state).registers r = state.memory (K.source r)) ∧
      ∀ s, .inr s ∈ done → (K.run done state).memory (K.target s) =
        K.value s fun r => state.memory (K.source r) := by
  induction done using reverseRecOn generalizing rest with
  | nil => exact ⟨fun r h => absurd h not_mem_nil, fun s h => absurd h not_mem_nil⟩
  | append_singleton done event ih =>
    rw [append_assoc, singleton_append] at hsplit
    obtain ⟨hregisters, hmemory⟩ := ih hsplit
    rw [run_concat]
    cases event with
    | inl r₀ =>
      refine ⟨fun r hr => ?_, fun s hs => hmemory s (by simpa using hs)⟩
      by_cases heq : r = r₀
      · subst heq
        exact (update_self ..).trans (horder.source_unchanged hfree state hsplit)
      · exact (update_of_ne heq _ _).trans (hregisters r (by simpa [heq] using hr))
    | inr s₀ =>
      have hs₀ : s₀ ∈ K.stores := horder.mem_stores.mp (by rw [hsplit]; simp)
      refine ⟨fun r hr => hregisters r (by simpa using hr), fun s hs => ?_⟩
      by_cases heq : s = s₀
      · subst heq
        refine (update_self ..).trans (K.value_congr s hs₀ _ _ fun r hr hagent => ?_)
        exact hregisters r (horder.before done s rest hsplit r hr hagent)
      · have hdone : .inr s ∈ done := by simpa [heq] using hs
        have hs' : s ∈ K.stores := horder.mem_stores.mp (by
          rw [hsplit]
          exact mem_append_left _ hdone)
        refine (update_of_ne (fun htarget => heq ?_) _ _).trans (hmemory s hdone)
        exact hfree.target_inj s hs' s₀ hs₀ htarget

/-- **Every legal order** leaves what is computed from the memory before where something is stored,
and the rest as it is. -/
theorem run_legal (hfree : K.RaceFree) (horder : K.Legal order) (state : State L R V) :
    (∀ s ∈ K.stores, (K.run order state).memory (K.target s) =
      K.value s fun r => state.memory (K.source r)) ∧
      ∀ l, (∀ s ∈ K.stores, K.target s ≠ l) → (K.run order state).memory l = state.memory l :=
  ⟨fun s hs => (run_part hfree horder state (append_nil order).symm).2 s (horder.mem_stores.mpr hs),
    fun _ h => run_memory_of_not_mem fun s hs => h s (horder.mem_stores.mp hs)⟩

/-! ## Copies -/

section

variable {κ V : Type*} (copies : List κ) (width : ℕ) (source target : κ → ℕ)

/-- A kernel that copies: `width` bytes from one address to another for each copy. -/
def copyKernel : Kernel κ ℕ (κ × ℕ) (κ × ℕ) V where
  loads := copies ×ˢ List.range width
  stores := copies ×ˢ List.range width
  loader := Prod.fst
  storer := Prod.fst
  source := fun byte => source byte.1 + byte.2
  target := fun byte => target byte.1 + byte.2
  value := fun byte registers => registers byte
  value_congr := fun byte hbyte _ _ hsame => hsame byte hbyte rfl

variable {copies width source target}

/-- Different copies to different places, none of which is copied from. -/
theorem copyKernel_raceFree (hnodup : copies.Nodup)
    (hinj : ∀ c ∈ copies, ∀ c' ∈ copies, ∀ b < width, ∀ b' < width,
      target c + b = target c' + b' → c = c')
    (hapart : ∀ c ∈ copies, ∀ c' ∈ copies, ∀ b < width, ∀ b' < width,
      target c + b ≠ source c' + b') :
    (copyKernel (V := V) copies width source target).RaceFree where
  loads_nodup := hnodup.product nodup_range
  stores_nodup := hnodup.product nodup_range
  target_inj := by
    rintro ⟨c, b⟩ hs ⟨c', b'⟩ hs' heq
    obtain ⟨hc, hb⟩ := mem_product.mp hs
    obtain ⟨hc', hb'⟩ := mem_product.mp hs'
    obtain rfl := hinj c hc c' hc' b (mem_range.mp hb) b' (mem_range.mp hb') heq
    exact congrArg (Prod.mk c) (add_left_cancel heq)
  apart := by
    rintro ⟨c, b⟩ hs ⟨c', b'⟩ hr heq
    obtain ⟨hc, hb⟩ := mem_product.mp hs
    obtain ⟨hc', hb'⟩ := mem_product.mp hr
    exact absurd heq (hapart c hc c' hc' b (mem_range.mp hb) b' (mem_range.mp hb'))

/-- What every legal order of the copies leaves. -/
theorem copyKernel_run [DecidableEq κ] {order : List ((κ × ℕ) ⊕ (κ × ℕ))}
    (hfree : (copyKernel (V := V) copies width source target).RaceFree)
    (horder : (copyKernel (V := V) copies width source target).Legal order)
    (state : State ℕ (κ × ℕ) V) :
    (∀ c ∈ copies, ∀ b < width,
      ((copyKernel copies width source target).run order state).memory (target c + b) =
        state.memory (source c + b)) ∧
      ∀ a, (∀ c ∈ copies, ∀ b < width, target c + b ≠ a) →
        ((copyKernel copies width source target).run order state).memory a = state.memory a := by
  obtain ⟨hstored, hkept⟩ := run_legal hfree horder state
  refine ⟨fun c hc b hb => hstored (c, b) (mem_product.mpr ⟨hc, mem_range.mpr hb⟩),
    fun a ha => hkept a ?_⟩
  rintro ⟨c, b⟩ hs
  obtain ⟨hc, hb⟩ := mem_product.mp hs
  exact ha c hc b (mem_range.mp hb)

end

end Kernel

end Kernels
