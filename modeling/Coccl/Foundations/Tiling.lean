import Mathlib.Data.List.Range

/-!
# Tilings

A list of ranges that follow one another without a gap, from a start to an end, none of them
empty. A range is any value with an offset and a size.
-/

namespace Coccl

namespace Tiling

variable {α : Type*} (offset size : α → ℕ)

/-- The ranges follow one another from `start` to `finish`. -/
def Tiles : ℕ → List α → ℕ → Prop
  | start, [], finish => start = finish
  | start, a :: rest, finish => offset a = start ∧ 0 < size a ∧ Tiles (start + size a) rest finish

variable {offset size} {start middle finish : ℕ} {xs ys : List α}

theorem Tiles.append (hxs : Tiles offset size start xs middle)
    (hys : Tiles offset size middle ys finish) : Tiles offset size start (xs ++ ys) finish := by
  induction xs generalizing start with
  | nil =>
    obtain rfl : start = middle := hxs
    exact hys
  | cons a rest ih => exact ⟨hxs.1, hxs.2.1, ih hxs.2.2⟩

variable (offset size) in
/-- The ranges follow one another from `start` to `finish`; some may be empty. -/
def Chain : ℕ → List α → ℕ → Prop
  | start, [], finish => start = finish
  | start, a :: rest, finish => offset a = start ∧ Chain (start + size a) rest finish

theorem tiles_iff_chain : Tiles offset size start xs finish ↔
    Chain offset size start xs finish ∧ ∀ a ∈ xs, 0 < size a := by
  induction xs generalizing start with
  | nil => simp [Tiles, Chain]
  | cons a rest ih =>
    simp only [Tiles, Chain, ih, List.forall_mem_cons]
    tauto

theorem Chain.append (hxs : Chain offset size start xs middle)
    (hys : Chain offset size middle ys finish) : Chain offset size start (xs ++ ys) finish := by
  induction xs generalizing start with
  | nil =>
    obtain rfl : start = middle := hxs
    exact hys
  | cons a rest ih => exact ⟨hxs.1, ih hxs.2⟩

theorem chain_append : Chain offset size start (xs ++ ys) finish ↔
    ∃ middle, Chain offset size start xs middle ∧ Chain offset size middle ys finish := by
  constructor
  · intro h
    induction xs generalizing start with
    | nil => exact ⟨start, rfl, h⟩
    | cons a rest ih =>
      obtain ⟨middle, hrest, hys⟩ := ih h.2
      exact ⟨middle, ⟨h.1, hrest⟩, hys⟩
  · rintro ⟨middle, hxs, hys⟩
    exact hxs.append hys

/-- A part of a chain may be cut in another way. -/
theorem Chain.replace {part part' : List α}
    (h : Chain offset size start (xs ++ (part ++ ys)) finish)
    (hpart : ∀ a b, Chain offset size a part b → Chain offset size a part' b) :
    Chain offset size start (xs ++ (part' ++ ys)) finish := by
  obtain ⟨a, hxs, hrest⟩ := chain_append.mp h
  obtain ⟨b, hpart', hys⟩ := chain_append.mp hrest
  exact hxs.append ((hpart a b hpart').append hys)

section

variable (h : Chain offset size start xs finish)

include h

theorem Chain.le : start ≤ finish := by
  induction xs generalizing start with
  | nil => exact h.le
  | cons a rest ih => exact (Nat.le_add_right _ _).trans (ih h.2)

/-- Every range lies between the start and the end. -/
theorem Chain.inside {a : α} (ha : a ∈ xs) : start ≤ offset a ∧ offset a + size a ≤ finish := by
  induction xs generalizing start with
  | nil => cases ha
  | cons b rest ih =>
    obtain ⟨hoffset, hrest⟩ := h
    rcases List.mem_cons.mp ha with rfl | ha
    · exact ⟨hoffset.ge, hoffset ▸ hrest.le⟩
    · obtain ⟨hle, hend⟩ := ih hrest ha
      exact ⟨(Nat.le_add_right _ _).trans hle, hend⟩

/-- The ranges are in order. -/
theorem Chain.pairwise : xs.Pairwise fun a b => offset a + size a ≤ offset b := by
  induction xs generalizing start with
  | nil => exact .nil
  | cons a rest ih =>
    refine .cons (fun b hb => ?_) (ih h.2)
    rw [h.1]
    exact (h.2.inside hb).1

/-- Every point is in some range. -/
theorem Chain.cover {x : ℕ} (hstart : start ≤ x) (hfinish : x < finish) :
    ∃ a ∈ xs, offset a ≤ x ∧ x < offset a + size a := by
  induction xs generalizing start with
  | nil =>
    obtain rfl : start = finish := h
    omega
  | cons a rest ih =>
    obtain ⟨hoffset, hrest⟩ := h
    by_cases hx : x < start + size a
    · exact ⟨a, List.mem_cons_self, hoffset.le.trans hstart, hoffset ▸ hx⟩
    · obtain ⟨b, hb, hrange⟩ := ih hrest (not_lt.mp hx)
      exact ⟨b, List.mem_cons_of_mem _ hb, hrange⟩

end

/-- Ranges that meet at the bounds `bound 0, bound 1, ...`. -/
theorem tiles_map_range {f : ℕ → α} {bound : ℕ → ℕ} {n : ℕ}
    (h : ∀ k < n, offset (f k) = bound k ∧ 0 < size (f k) ∧ bound k + size (f k) = bound (k + 1)) :
    Tiles offset size (bound 0) ((List.range n).map f) (bound n) := by
  induction n with
  | zero => rfl
  | succ n ih =>
    obtain ⟨hoffset, hsize, hnext⟩ := h n (Nat.lt_succ_self n)
    rw [List.range_succ, List.map_append]
    exact (ih fun k hk => h k (Nat.lt_succ_of_lt hk)).append ⟨hoffset, hsize, hnext⟩

end Tiling

end Coccl
