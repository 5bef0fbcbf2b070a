import Mathlib.Tactic

/-!
# Lists in blocks

Index arithmetic of data laid out in blocks of one size. Lists are given by the function on their
indices, as `(List.range n).map f`.
-/

namespace Blocks

open List Function

variable {α : Type*}

/-! ## Concatenation and blocks -/

variable {n B q j : ℕ}

theorem mul_add_le (hq : q < n) : q * B + B ≤ n * B :=
  calc q * B + B = (q + 1) * B := by ring
    _ ≤ n * B := Nat.mul_le_mul_right B hq

theorem div_add_lt (hq : q < n) (hj : j < B) : q * B + j < n * B :=
  (Nat.add_lt_add_left hj _).trans_le (mul_add_le hq)

theorem mul_add_div (hj : j < B) : (q * B + j) / B = q := by
  rw [mul_comm, Nat.mul_add_div (by omega), Nat.div_eq_of_lt hj, add_zero]

theorem mul_add_mod (hj : j < B) : (q * B + j) % B = j := by
  rw [mul_comm, Nat.mul_add_mod, Nat.mod_eq_of_lt hj]

/-- An entry has one place in one block. -/
theorem mul_add_inj {q' j' : ℕ} (hj : j < B) (hj' : j' < B) (heq : q * B + j = q' * B + j') :
    q = q' ∧ j = j' := by
  have hdiv : (q * B + j) / B = (q' * B + j') / B := by rw [heq]
  have hmod : (q * B + j) % B = (q' * B + j') % B := by rw [heq]
  rw [mul_add_div hj, mul_add_div hj'] at hdiv
  rw [mul_add_mod hj, mul_add_mod hj'] at hmod
  exact ⟨hdiv, hmod⟩

/-- The place of entry `i` when `n` blocks of `B` entries are stored as `B` blocks of `n`. -/
def transpose (n B i : ℕ) : ℕ := i % B * n + i / B

theorem transpose_lt {i : ℕ} (h : i < n * B) : transpose n B i < B * n := by
  have hB : 0 < B := pos_of_ne_zero fun hzero => by simp [hzero] at h
  exact div_add_lt (Nat.mod_lt i hB) (Nat.div_lt_of_lt_mul (by rwa [mul_comm]))

theorem transpose_transpose {i : ℕ} (h : i < n * B) : transpose B n (transpose n B i) = i := by
  have hdiv : i / B < n := Nat.div_lt_of_lt_mul (by rwa [mul_comm])
  rw [transpose, transpose, mul_add_mod hdiv, mul_add_div hdiv, Nat.div_add_mod']

/-- Every place gets one entry. -/
theorem bijOn_transpose (n B : ℕ) :
    Set.BijOn (transpose n B) (Set.Iio (n * B)) (Set.Iio (n * B)) := by
  have hlt : ∀ {n B i : ℕ}, i < n * B → transpose n B i < n * B := fun {n B} i hi => by
    rw [mul_comm]
    exact transpose_lt hi
  refine ⟨fun i hi => hlt hi, fun i hi j hj heq => ?_, fun i hi => ?_⟩
  · rw [← transpose_transpose hi, heq, transpose_transpose hj]
  · have hi' : i < B * n := by rwa [mul_comm]
    refine ⟨transpose B n i, ?_, transpose_transpose hi'⟩
    rw [Set.mem_Iio, mul_comm]
    exact hlt hi'

/-- `n` blocks of `B` entries, one after the other. -/
theorem flatMap_range_blocks (n B : ℕ) (h : ℕ → ℕ → α) :
    ((List.range n).flatMap fun q => (List.range B).map (h q)) =
      (List.range (n * B)).map fun i => h (i / B) (i % B) := by
  induction n with
  | zero => simp
  | succ n ih =>
    rw [range_succ, flatMap_append, ih, Nat.succ_mul, range_add, map_append, map_map]
    congr 1
    rw [flatMap_cons, flatMap_nil, append_nil]
    refine map_congr_left fun j hj => ?_
    have hj := mem_range.mp hj
    simp only [comp_apply]
    rw [mul_add_div hj, mul_add_mod hj]

/-- The entries of one block, by a key that tells the blocks apart. -/
theorem filter_blocks {g : ℕ → ℕ → α} {key : α → ℕ} (hkey : ∀ q j, key (g q j) = q) (hq : q < n) :
    (((List.range n).flatMap fun q => (List.range B).map (g q)).filter fun a => key a = q) =
      (List.range B).map (g q) := by
  induction n with
  | zero => omega
  | succ n ih =>
    rw [range_succ, flatMap_append, filter_append, flatMap_singleton]
    rcases Nat.lt_succ_iff_lt_or_eq.mp hq with hlt | rfl
    · rw [ih hlt, filter_eq_nil_iff.mpr, append_nil]
      intro a ha
      obtain ⟨j, -, rfl⟩ := mem_map.mp ha
      simp only [hkey, decide_eq_true_eq]
      omega
    · have hbefore : (((List.range q).flatMap fun q => (List.range B).map (g q)).filter
          fun a => key a = q) = [] := by
        refine filter_eq_nil_iff.mpr fun a ha => ?_
        obtain ⟨p, hp, ha⟩ := mem_flatMap.mp ha
        obtain ⟨j, -, rfl⟩ := mem_map.mp ha
        have := mem_range.mp hp
        simp only [hkey, decide_eq_true_eq]
        omega
      rw [hbefore, nil_append, filter_eq_self]
      intro a ha
      obtain ⟨j, -, rfl⟩ := mem_map.mp ha
      simp [hkey]

/-- A block inside a list. -/
theorem take_drop_range_map {C a b : ℕ} (h : a + b ≤ C) (f : ℕ → α) :
    (((List.range C).map f).drop a).take b = (List.range b).map fun j => f (a + j) := by
  refine ext_getElem ?_ fun i hi hi' => ?_
  · simp
    omega
  · simp

/-! ## Sums -/

/-- A sum over `n` blocks of `B` entries. -/
theorem sum_range_blocks [AddCommMonoid α] (n B : ℕ) (f : ℕ → α) :
    ((List.range (n * B)).map f).sum =
      ((List.range n).map fun q => ((List.range B).map fun j => f (q * B + j)).sum).sum := by
  induction n with
  | zero => simp
  | succ n ih =>
    rw [Nat.succ_mul, range_add, map_append, sum_append, ih, range_succ,
      map_append, sum_append, map_map]
    simp [comp_def]

/-! ## Moving entries one by one -/

/-- Write the entries of `row` to their destinations, the first one first. -/
def scatter (n : ℕ) (dest : ℕ → ℕ) (row : ℕ → α) (init : List α) : List α :=
  (List.range n).foldl (fun out c => out.set (dest c) (row c)) init

theorem scatter_succ (n : ℕ) (dest : ℕ → ℕ) (row : ℕ → α) (init : List α) :
    scatter (n + 1) dest row init = (scatter n dest row init).set (dest n) (row n) := by
  simp [scatter, range_succ]

@[simp] theorem scatter_length (n : ℕ) (dest : ℕ → ℕ) (row : ℕ → α) (init : List α) :
    (scatter n dest row init).length = init.length := by
  induction n with
  | zero => rfl
  | succ n ih => rw [scatter_succ, length_set, ih]

/-- With different destinations every entry arrives. -/
theorem scatter_getElem? {dest : ℕ → ℕ} {row : ℕ → α} {init : List α}
    (hinj : ∀ c < n, ∀ c' < n, dest c = dest c' → c = c') (hlt : ∀ c < n, dest c < init.length)
    {c : ℕ} (hc : c < n) : (scatter n dest row init)[dest c]? = some (row c) := by
  induction n with
  | zero => omega
  | succ n ih =>
    rw [scatter_succ, getElem?_set]
    by_cases hlast : dest n = dest c
    · obtain rfl : n = c := hinj n (by omega) c hc hlast
      simp [hlt n (by omega)]
    · have hne : c ≠ n := fun h => hlast (by rw [h])
      rw [if_neg hlast]
      exact ih (fun a ha b hb => hinj a (by omega) b (by omega)) (fun a ha => hlt a (by omega))
        (by omega)

/-- A permutation moves every entry to its place. -/
theorem scatter_eq_map {dest src : ℕ → ℕ} {row : ℕ → α} {init : List α} (hlength : init.length = n)
    (hdest : ∀ c < n, dest c < n) (hsrc : ∀ p < n, src p < n) (hinv : ∀ c < n, src (dest c) = c)
    (hinv' : ∀ p < n, dest (src p) = p) :
    scatter n dest row init = (List.range n).map fun p => row (src p) := by
  refine ext_getElem? fun p => ?_
  rcases lt_or_ge p n with hp | hp
  · have harrives := @scatter_getElem? _ n dest row init
      (fun c hc c' hc' h => by rw [← hinv c hc, h, hinv c' hc']) (by rw [hlength]; exact hdest)
      (src p) (hsrc p hp)
    rw [hinv' p hp] at harrives
    rw [harrives]
    simp [hp]
  · rw [getElem?_eq_none (by simp [hlength]; exact hp), getElem?_eq_none (by simp [hp])]

/-! ## Stores -/

/-- Store `n` values one after the other, each at its address. -/
def store (n : ℕ) (address : ℕ → ℕ) (value : ℕ → α) (memory : ℕ → α) : ℕ → α :=
  (List.range n).foldl (fun memory i => Function.update memory (address i) (value i)) memory

theorem store_succ (n : ℕ) (address : ℕ → ℕ) (value : ℕ → α) (memory : ℕ → α) :
    store (n + 1) address value memory =
      Function.update (store n address value memory) (address n) (value n) := by
  simp [store, range_succ]

variable {address : ℕ → ℕ} {memory value : ℕ → α}

/-- Other addresses keep their value. -/
theorem store_of_ne {a : ℕ} (h : ∀ i < n, address i ≠ a) :
    store n address value memory a = memory a := by
  induction n with
  | zero => rfl
  | succ n ih =>
    rw [store_succ, update_of_ne (h n (Nat.lt_succ_self n)).symm]
    exact ih fun i hi => h i (Nat.lt_succ_of_lt hi)

/-- With different addresses every value stays. -/
theorem store_at (hinj : ∀ i < n, ∀ j < n, address i = address j → i = j) {i : ℕ} (hi : i < n) :
    store n address value memory (address i) = value i := by
  induction n with
  | zero => exact absurd hi (Nat.not_lt_zero i)
  | succ n ih =>
    rw [store_succ]
    by_cases hlast : address i = address n
    · obtain rfl := hinj i hi n (Nat.lt_succ_self n) hlast
      rw [update_self]
    · rw [update_of_ne hlast]
      have hne : i ≠ n := fun h => hlast (by rw [h])
      exact ih (fun a ha b hb => hinj a (by omega) b (by omega)) (by omega)

end Blocks
