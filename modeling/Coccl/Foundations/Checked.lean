import Mathlib.Tactic

/-!
# Checked machine arithmetic

Unsigned arithmetic with an explicit check against a largest value `max`: a checked operation
returns `none` where the machine operation would wrap. A caller meets a failed check as an `Option`,
or as an `Except` with an error of its own.
-/

namespace Checked

open List

/-- Multiplication that fails instead of exceeding `max`. -/
def mul (max a b : ℕ) : Option ℕ :=
  if a ≠ 0 ∧ max / a < b then none else some (a * b)

/-- Addition that fails instead of exceeding `max`; the first summand is within range already. -/
def add (max a b : ℕ) : Option ℕ :=
  if max - a < b then none else some (a + b)

/-- Round `n` up to a multiple of `unit`, failing where the padded size exceeds `max`. -/
def alignUp (max unit n : ℕ) : Option ℕ :=
  (add max n (unit - 1)).map fun padded => padded / unit * unit

/-- Turn a failed check into the error `e`. -/
def orElse {ε α : Type*} (e : ε) : Option α → Except ε α
  | none => .error e
  | some a => .ok a

variable {max a b c n unit : ℕ}

theorem mul_eq_some : mul max a b = some c ↔ c = a * b ∧ a * b ≤ max := by
  unfold mul
  rcases eq_zero_or_pos a with rfl | ha
  · simp [eq_comm]
  · have key : max / a < b ↔ max < a * b := by
      rw [Nat.div_lt_iff_lt_mul ha, mul_comm]
    by_cases h : max < a * b
    · simp [ha.ne', key, h]
    · simp [key, h, eq_comm, not_lt.mp h]

theorem add_eq_some (ha : a ≤ max) : add max a b = some c ↔ c = a + b ∧ a + b ≤ max := by
  unfold add
  have key : max - a < b ↔ max < a + b := by omega
  by_cases h : max < a + b
  · simp [key, h]
  · simp [key, h, eq_comm, not_lt.mp h]

/-- The checked product in closed form. -/
theorem mul_eq (max a b : ℕ) : mul max a b = if a * b ≤ max then some (a * b) else none := by
  ext c
  rw [mul_eq_some]
  split <;> simp_all [eq_comm]

/-- The checked sum in closed form. -/
theorem add_eq (ha : a ≤ max) : add max a b = if a + b ≤ max then some (a + b) else none := by
  ext c
  rw [add_eq_some ha]
  split <;> simp_all [eq_comm]

theorem add_le (h : add max a b = some c) : c = a + b := by
  unfold add at h
  split at h
  · cases h
  · exact (Option.some.inj h).symm

theorem alignUp_spec (hu : 0 < unit) (h : alignUp max unit n = some c) :
    unit ∣ c ∧ n ≤ c ∧ c < n + unit := by
  obtain ⟨padded, hp, rfl⟩ := Option.map_eq_some_iff.mp h
  obtain rfl := add_le hp
  have hdiv := Nat.div_add_mod (n + (unit - 1)) unit
  have hmod := Nat.mod_lt (n + (unit - 1)) hu
  rw [mul_comm unit] at hdiv
  exact ⟨dvd_mul_left _ _, by omega, by omega⟩

section

universe u v

variable {ε : Type v} {α β : Type u} {e : ε}

theorem orElse_eq_ok {o : Option α} {x : α} : orElse e o = .ok x ↔ o = some x := by
  cases o <;> simp [orElse]

variable {f : α → Except ε β}

theorem bind_eq_ok {x : Except ε α} {r : β} : x >>= f = .ok r ↔ ∃ y, x = .ok y ∧ f y = .ok r := by
  cases x <;> simp [bind, Except.bind]

theorem map_eq_ok {ε α β : Type*} {x : Except ε α} {f : α → β} {b : β} (h : x.map f = .ok b) :
    ∃ a, x = .ok a ∧ f a = b := by
  cases x with
  | error e => cases h
  | ok a => exact ⟨a, rfl, Except.ok.inj h⟩

/-- A computation whose value passes a test has a value. -/
theorem exists_of_any {ε α : Type*} {x : Except ε α} {p : α → Bool}
    (h : x.toOption.any p = true) : ∃ a, x = .ok a ∧ p a = true := by
  cases x with
  | ok a => exact ⟨a, rfl, h⟩
  | error e => cases h

/-- A guard that returns `e` on failure. -/
theorem ite_error_eq_ok {p : Prop} [Decidable p] {x : Except ε α} {r : α} :
    (if p then .error e else x) = .ok r ↔ ¬p ∧ x = .ok r := by
  by_cases h : p <;> simp [h]

/-- A list computed element by element. -/
theorem mapM_eq_ok {xs : List α} {ys : List β} (h : xs.mapM f = .ok ys) :
    List.Forall₂ (fun x y => f x = .ok y) xs ys := by
  induction xs generalizing ys with
  | nil =>
    obtain rfl := Except.ok.inj h
    exact .nil
  | cons x xs ih =>
    rw [mapM_cons] at h
    obtain ⟨y, hy, h⟩ := bind_eq_ok.mp h
    obtain ⟨rest, hrest, h⟩ := bind_eq_ok.mp h
    obtain rfl := Except.ok.inj h
    exact .cons hy (ih hrest)

/-- A list computed element by element, each one guarded by the same error. -/
theorem mapM_guard {p : α → Prop} [DecidablePred p] {f : α → β} (xs : List α) :
    (xs.mapM fun x => if p x then .ok (f x) else .error e) =
      if ∀ x ∈ xs, p x then .ok (xs.map f) else (.error e : Except ε (List β)) := by
  induction xs with
  | nil => rfl
  | cons x xs ih =>
    rw [mapM_cons, ih]
    by_cases hx : p x
    · by_cases hxs : ∀ y ∈ xs, p y
      · rw [if_pos hx, if_pos hxs, if_pos (forall_mem_cons.mpr ⟨hx, hxs⟩)]
        rfl
      · rw [if_pos hx, if_neg hxs, if_neg fun h => hxs (forall_mem_cons.mp h).2]
        rfl
    · rw [if_neg hx, if_neg fun h => hx (forall_mem_cons.mp h).1]
      rfl

/-- Two computations whose values are related if both succeed. -/
def Related (R : α → α → Prop) (x y : Except ε α) : Prop :=
  ∀ ⦃a b⦄, x = .ok a → y = .ok b → R a b

namespace Related

variable {R : α → α → Prop} {S : β → β → Prop} {x y : Except ε α}

theorem ok {a b : α} (h : R a b) : Related R (.ok a) (.ok b : Except ε α) := by
  rintro _ _ ⟨⟩ ⟨⟩
  exact h

theorem refl : Related Eq x x := fun _ _ ha hb => Except.ok.inj (ha.symm.trans hb)

theorem bind {g : α → Except ε β} (h : Related R x y)
    (hf : ∀ ⦃a b⦄, R a b → Related S (f a) (g b)) :
    Related S (x >>= f) (y >>= g) := by
  intro c d hc hd
  obtain ⟨a, ha, hc⟩ := bind_eq_ok.mp hc
  obtain ⟨b, hb, hd⟩ := bind_eq_ok.mp hd
  exact hf (h ha hb) hc hd

theorem guard {p q : Prop} [Decidable p] [Decidable q] {e' : ε} (h : Related R x y) :
    Related R (if p then .error e else x) (if q then .error e' else y) := fun _ _ ha hb =>
  h (ite_error_eq_ok.mp ha).2 (ite_error_eq_ok.mp hb).2

end Related

end

section

variable {α β : Type*} {l : List α}

/-- A loop whose rounds all succeed. -/
theorem mapM_eq_some_of_map {f : α → Option β} {l' : List β} (h : l.map f = l'.map some) :
    l.mapM f = some l' := by
  induction l generalizing l' with
  | nil =>
    obtain rfl : l' = [] := by simpa using h.symm
    rfl
  | cons a l ih =>
    cases l' with
    | nil => simp at h
    | cons b l' =>
      simp only [map_cons, List.cons.injEq] at h
      simp [mapM_cons, h.1, ih h.2]

theorem mapM_congr {f f' : α → Option β} (h : ∀ a ∈ l, f a = f' a) : l.mapM f = l.mapM f' := by
  induction l with
  | nil => rfl
  | cons a l ih =>
    rw [mapM_cons, mapM_cons, h a mem_cons_self, ih fun b hb => h b (mem_cons_of_mem a hb)]

end

end Checked
