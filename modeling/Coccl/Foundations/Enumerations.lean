import Mathlib.Data.List.MinMax
import Mathlib.Data.List.TakeWhile
import Mathlib.Tactic

/-!
# Enumerations of finite sets of numbers

What loops over a list leave: the maximum (`maxFrom`), the first of the least members, the members
from the first on that has a property (`fromFirst`). A loop over the keys of an ordered map visits
them in their order, which is any order at all if the keys may be renumbered
(`mergeSort_map_number`, `exists_enumeration`).
-/

namespace Enumerations

open List

/-! ## Maxima -/

section

variable {α : Type*} [LinearOrder α]

/-- A number raised to every member of a list. -/
def maxFrom (base : α) (values : List α) : α := values.foldl max base

@[simp] theorem maxFrom_nil (base : α) : maxFrom base [] = base := rfl

@[simp] theorem maxFrom_cons (base a : α) (values : List α) :
    maxFrom base (a :: values) = maxFrom (max base a) values := rfl

theorem maxFrom_concat (base a : α) (values : List α) :
    maxFrom base (values ++ [a]) = max (maxFrom base values) a := by
  simp [maxFrom]

variable {values : List α} {base x : α}

theorem maxFrom_le_iff : maxFrom base values ≤ x ↔ base ≤ x ∧ ∀ a ∈ values, a ≤ x := by
  induction values generalizing base with
  | nil => simp
  | cons a values ih =>
    rw [maxFrom_cons, ih, max_le_iff, forall_mem_cons, and_assoc]

theorem le_maxFrom (base : α) (values : List α) : base ≤ maxFrom base values :=
  (maxFrom_le_iff.mp le_rfl).1

theorem le_maxFrom_of_mem {a : α} (h : a ∈ values) : a ≤ maxFrom base values :=
  (maxFrom_le_iff.mp le_rfl).2 a h

variable {values' : List α}

/-- More values give a larger maximum. -/
theorem maxFrom_mono (h : values ⊆ values') : maxFrom base values ≤ maxFrom base values' :=
  maxFrom_le_iff.mpr ⟨le_maxFrom _ _, fun _ ha => le_maxFrom_of_mem (h ha)⟩

theorem maxFrom_congr (h : ∀ a, a ∈ values ↔ a ∈ values') :
    maxFrom base values = maxFrom base values' :=
  le_antisymm (maxFrom_mono fun a ha => (h a).mp ha) (maxFrom_mono fun a ha => (h a).mpr ha)

theorem le_maxFrom_iff : x ≤ maxFrom base values ↔ x ≤ base ∨ ∃ a ∈ values, x ≤ a := by
  induction values generalizing base with
  | nil => simp
  | cons a values ih =>
    rw [maxFrom_cons, ih, le_max_iff, exists_mem_cons_iff, or_assoc]

/-- A loop that replaces what it has by a lesser member ends with the first of the least. -/
theorem argmin_cons_foldl {β : Type*} (f : β → α) (first : β) (rest : List β) :
    argmin f (first :: rest) = some (rest.foldl (fun x y => if f y < f x then y else x) first) := by
  induction rest using reverseRecOn with
  | nil => rfl
  | append_singleton rest y ih =>
    rw [← cons_append, argmin_concat, ih, foldl_append]
    exact (apply_ite some _ _ _).symm

end

/-! ## From the first on -/

section

variable {α : Type*} (p : α → Bool) {l : List α} {a : α}

/-- The members of a list from the first one with a property on. -/
def fromFirst (l : List α) : List α := l.dropWhile fun a => !p a

variable {p}

theorem fromFirst_subset : fromFirst p l ⊆ l := (dropWhile_sublist _).subset

theorem mem_fromFirst (hmem : a ∈ l) (ha : p a = true) : a ∈ fromFirst p l := by
  rw [fromFirst]
  have hsplit := takeWhile_append_dropWhile (p := fun a => !p a) (l := l)
  rw [← hsplit, mem_append] at hmem
  rcases hmem with hbefore | hfrom
  · have := mem_takeWhile_imp hbefore
    rw [ha] at this
    cases this
  · exact hfrom

theorem fromFirst_cons_of_pos (ha : p a = true) : fromFirst p (a :: l) = a :: l := by
  simp [fromFirst, ha]

theorem fromFirst_cons_of_neg (ha : p a = false) : fromFirst p (a :: l) = fromFirst p l := by
  simp [fromFirst, ha]

theorem fromFirst_eq_nil_iff : fromFirst p l = [] ↔ ∀ a ∈ l, p a = false := by
  simp [fromFirst, dropWhile_eq_nil_iff]

theorem head?_fromFirst : (fromFirst p l).head? = l.find? p :=
  (find?_eq_head?_dropWhile_not p l).symm

theorem fromFirst_append_of_exists {l' : List α} (h : ∃ a ∈ l, p a = true) :
    fromFirst p (l ++ l') = fromFirst p l ++ l' := by
  obtain ⟨a, hmem, ha⟩ := h
  have hne : fromFirst p l ≠ [] := ne_nil_of_mem (mem_fromFirst hmem ha)
  rw [fromFirst, dropWhile_append]
  simp [show l.dropWhile (fun a => !p a) ≠ [] from hne, fromFirst]

theorem fromFirst_append_of_forall {l' : List α} (h : ∀ a ∈ l, p a = false) :
    fromFirst p (l ++ l') = fromFirst p l' := by
  have hnil : l.dropWhile (fun a => !p a) = [] := fromFirst_eq_nil_iff.mpr h
  rw [fromFirst, dropWhile_append, hnil]
  rfl

end

/-! ## Before a member -/

section

variable {α : Type*} [DecidableEq α] {a : α} {l l' : List α}

/-- What comes before a member. -/
def before (a : α) (l : List α) : List α := l.takeWhile (· ≠ a)

theorem before_subset : before a l ⊆ l := (takeWhile_sublist _).subset

theorem before_of_not_mem (h : a ∉ l) : before a l = l := by
  refine takeWhile_eq_self_iff.mpr fun b hb => ?_
  simpa using fun hba : b = a => h (hba ▸ hb)

theorem before_append_of_mem (h : a ∈ l) : before a (l ++ l') = before a l := by
  induction l with
  | nil => cases h
  | cons b l ih =>
    by_cases hba : b = a
    · simp [before, hba]
    · have hmem : a ∈ l := (mem_cons.mp h).resolve_left (Ne.symm hba)
      simpa [before, hba] using ih hmem

theorem before_concat_self (h : a ∉ l) : before a (l ++ [a]) = l := by
  rw [before, takeWhile_append_of_pos fun b hb => by
    simpa using fun hba : b = a => h (hba ▸ hb)]
  simp

@[simp] theorem before_cons_self : before a (a :: l) = [] := by simp [before]

end

/-! ## Renumbering -/

section

/-- The members of a list get their positions for numbers, and everything else what comes after. -/
def number (order : List ℕ) (n : ℕ) : ℕ :=
  if n ∈ order then order.idxOf n else order.length + n

theorem number_injective (order : List ℕ) : Function.Injective (number order) := by
  intro a b h
  unfold number at h
  split at h <;> rename_i ha <;> split at h <;> rename_i hb
  · exact (idxOf_inj ha).mp h
  · have := idxOf_lt_length_iff.mpr ha
    omega
  · have := idxOf_lt_length_iff.mpr hb
    omega
  · omega

theorem map_number {order : List ℕ} (h : order.Nodup) :
    order.map (number order) = List.range order.length := by
  refine ext_getElem (by simp) fun i hi _ => ?_
  rw [getElem_map, getElem_range]
  have hi' : i < order.length := by simpa using hi
  rw [number, if_pos (getElem_mem hi'), List.Nodup.idxOf_getElem h]

/-- Renumbered by an enumeration, a set of numbers is sorted as the enumeration is. -/
theorem mergeSort_map_number {order l : List ℕ} (h : order.Nodup) (hperm : order.Perm l) :
    (l.map (number order)).mergeSort = order.map (number order) := by
  refine List.Perm.eq_of_pairwise (fun a b _ _ => le_antisymm) (pairwise_mergeSort' (· ≤ ·) _) ?_ ?_
  · rw [map_number h]
    exact pairwise_lt_range.imp le_of_lt
  · exact (mergeSort_perm _ _).trans (hperm.map _).symm

/-- A renumbered set of numbers in its order is an enumeration of the set, renumbered. -/
theorem exists_enumeration {rename : ℕ → ℕ} (hrename : Function.Injective rename) (l : List ℕ) :
    ∃ order : List ℕ, order.Perm l ∧ (l.map rename).mergeSort = order.map rename := by
  have hperm : (l.map rename).mergeSort.Perm (l.map rename) := mergeSort_perm _ _
  have hinv : Function.LeftInverse (Function.invFun rename) rename :=
    Function.leftInverse_invFun hrename
  refine ⟨(l.map rename).mergeSort.map (Function.invFun rename), ?_, ?_⟩
  · simpa [Function.comp_def, hinv _] using hperm.map (Function.invFun rename)
  · rw [map_map]
    refine (map_id _).symm.trans (map_congr_left fun n hn => ?_)
    obtain ⟨m, -, rfl⟩ := mem_map.mp (hperm.mem_iff.mp hn)
    exact (congrArg rename (hinv m)).symm

end

end Enumerations
