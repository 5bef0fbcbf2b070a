import Coccl.Foundations.Blocks
import Mathlib.Data.Fin.Tuple.Sort

/-!
# Grids

Two colourings of a finite type form a `Grid` when each colour of the one meets each colour of the
other in exactly one element. Dividing the elements of `Fin n` by one width that divides `n` gives a
grid (`grid_div_mod`); several widths do not whenever the widest come first
(`not_grid_of_antitone`).
-/

namespace Coccl

open Finset

section

variable {α β γ : Type*} [Fintype α] [DecidableEq β] [DecidableEq γ] {f : α → β} {g : α → γ}

/-- Every colour of `f` meets every colour of `g` in exactly one element. -/
def Grid (f : α → β) (g : α → γ) : Prop := ∀ a b, ∃! m, f m = f a ∧ g m = g b

omit [Fintype α] [DecidableEq β] [DecidableEq γ] in
theorem Grid.symm (h : Grid f g) : Grid g f := by
  intro a b
  obtain ⟨m, hm, huniq⟩ := h b a
  exact ⟨m, hm.symm, fun k hk => huniq k hk.symm⟩

omit [Fintype α] [DecidableEq β] [DecidableEq γ] in
theorem Grid.injective (h : Grid f g) : Function.Injective fun m => (f m, g m) := by
  intro a b hab
  obtain ⟨hf, hg⟩ := Prod.mk.inj hab
  exact (h b b).unique ⟨hf, hg⟩ ⟨rfl, rfl⟩

/-- A class of the first colouring has one element for each colour of the second. -/
theorem Grid.card_left (h : Grid f g) (a : α) : #{m | f m = f a} = #(univ.image g) := by
  have himage : univ.image g = image g {m | f m = f a} := by
    ext c
    simp only [mem_image, mem_univ, true_and, mem_filter]
    constructor
    · rintro ⟨b, rfl⟩
      obtain ⟨m, ⟨hf, hg⟩, -⟩ := h a b
      exact ⟨m, hf, hg⟩
    · rintro ⟨m, -, hm⟩
      exact ⟨m, hm⟩
  rw [himage, card_image_of_injOn]
  intro m hm k hk hmk
  simp only [coe_filter, mem_univ, true_and, Set.mem_ofPred_eq] at hm hk
  exact h.injective (Prod.ext (hm.trans hk.symm) hmk)

theorem Grid.card_right (h : Grid f g) (a : α) : #{m | g m = g a} = #(univ.image f) :=
  h.symm.card_left a

end

section

variable {n : ℕ} {width : Fin n → ℕ}

/-- Widths that agree cut the elements into rows of that width. -/
theorem grid_div_mod {w : ℕ} (hw : 0 < w) (hdvd : w ∣ n) (hwidth : ∀ r, width r = w) :
    Grid (fun r : Fin n => r.val / width r) fun r : Fin n => r.val % width r := by
  obtain ⟨rows, hrows⟩ := hdvd
  intro a b
  simp only [hwidth]
  have hrow : a.val / w < rows := Nat.div_lt_of_lt_mul (hrows ▸ a.isLt)
  have hmod : b.val % w < w := Nat.mod_lt _ hw
  have hlt : a.val / w * w + b.val % w < n := calc
    a.val / w * w + b.val % w < rows * w := Blocks.div_add_lt hrow hmod
    _ = n := (mul_comm rows w).trans hrows.symm
  refine ⟨⟨a.val / w * w + b.val % w, hlt⟩, ⟨?_, ?_⟩, fun k hk => Fin.ext ?_⟩
  · exact Blocks.mul_add_div hmod
  · exact Blocks.mul_add_mod hmod
  · calc k.val = k.val / w * w + k.val % w := (Nat.div_add_mod' k.val w).symm
      _ = a.val / w * w + b.val % w := by rw [hk.1, hk.2]

/-- The last of `rows` full rows is the row of the last element. -/
theorem pred_mul_div {w rows : ℕ} (hw : 0 < w) (hrows : 0 < rows) :
    (w * rows - 1) / w + 1 = rows := by
  obtain ⟨k, rfl⟩ := Nat.exists_eq_succ_of_ne_zero hrows.ne'
  have hsplit : w * (k + 1) - 1 = w * k + (w - 1) := by
    rw [Nat.mul_succ]
    omega
  rw [Nat.succ_eq_add_one, hsplit, Nat.mul_add_div hw, Nat.div_eq_of_lt (Nat.sub_one_lt hw.ne'),
    add_zero]

/-- Widths that divide `n`, come in decreasing order and differ are no grid: the last element lies
in a row which the widest elements would reach only beyond the end, so that the last colour of the
widest is missing from it. -/
theorem not_grid_of_antitone {first last : Fin n} (hfirst : first.val = 0)
    (hlast : last.val = n - 1) (hpos : ∀ r, 0 < width r) (hdvd : ∀ r, width r ∣ n)
    (hanti : Antitone width) (hwide : width first ≤ #{r | width first ≤ width r})
    (hlt : width last < width first) :
    ¬Grid (fun r : Fin n => r.val / width r) fun r : Fin n => r.val % width r := by
  intro h
  have hn : 0 < n := Nat.zero_lt_of_lt first.isLt
  have hmax : ∀ r, width r ≤ width first := fun r => hanti (by
    rw [Fin.le_def, hfirst]
    exact Nat.zero_le _)
  have hwn : width first ≤ n := Nat.le_of_dvd hn (hdvd first)
  have hone := hpos first
  -- the element at `width first - 1` is one of the widest, and the last of the first row
  obtain ⟨edge, hedge⟩ : ∃ edge : Fin n, edge.val = width first - 1 := ⟨⟨_, by omega⟩, rfl⟩
  have hedgeWidth : width edge = width first := by
    refine le_antisymm (hmax edge) ?_
    refine (Tuple.lt_card_ge_iff_apply_ge_of_antitone hanti).mp ?_
    omega
  obtain ⟨m, ⟨hdiv, hmod⟩, -⟩ := h last edge
  dsimp only at hdiv hmod
  rw [hedgeWidth, hedge, Nat.mod_eq_of_lt (by omega : width first - 1 < width first)] at hmod
  have hmWidth : width m = width first := by
    have := Nat.mod_lt m.val (hpos m)
    have := hmax m
    omega
  obtain ⟨rows, hrows⟩ := hdvd last
  have hrowsPos : 0 < rows := Nat.pos_of_mul_pos_left (by omega : 0 < width last * rows)
  have hlastRow : last.val / width last + 1 = rows := by
    rw [hlast, hrows]
    exact pred_mul_div (hpos last) hrowsPos
  have hm : m.val + 1 = width first * rows := by
    have := Nat.div_add_mod m.val (width m)
    rw [hdiv, hmod, hmWidth] at this
    rw [← hlastRow, Nat.mul_succ]
    omega
  have : n < width first * rows := by
    rw [hrows]
    exact Nat.mul_lt_mul_of_pos_right hlt hrowsPos
  have := m.isLt
  omega

end

end Coccl
