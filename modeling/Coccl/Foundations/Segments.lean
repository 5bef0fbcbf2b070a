import Mathlib.Tactic

/-!
# Segments of equal length

A list cut into consecutive segments of one length, and lists built of such segments. A reader that
knows the length finds each segment again (`piece_join`), and does not see padding at the end
(`piece_append`).
-/

namespace Segments

open List

variable {α β : Type*}

/-- Segment `i` of a list cut into pieces of `w` entries; the last one may be shorter. -/
def piece (w : ℕ) (xs : List α) (i : ℕ) : List α := (xs.drop (i * w)).take w

/-- The segments `f 0, …, f (m - 1)` one after the other. -/
def join (m : ℕ) (f : ℕ → List α) : List α := (List.range m).flatMap f

theorem join_succ (m : ℕ) (f : ℕ → List α) : join (m + 1) f = join m f ++ f m := by
  simp [join, range_succ]

theorem join_succ' (m : ℕ) (f : ℕ → List α) :
    join (m + 1) f = f 0 ++ join m fun i => f (i + 1) := by
  simp [join, range_succ_eq_map, flatMap_map]

theorem join_congr {m : ℕ} {f g : ℕ → List α} (h : ∀ i < m, f i = g i) : join m f = join m g := by
  induction m with
  | zero => rfl
  | succ m ih => rw [join_succ, join_succ, ih fun i hi => h i (by omega), h m (by omega)]

@[simp] theorem join_one (f : ℕ → List α) : join 1 f = f 0 := by
  simp [join]

variable {f : ℕ → List α}

theorem length_join {m w : ℕ} (h : ∀ i < m, (f i).length = w) : (join m f).length = m * w := by
  induction m with
  | zero => simp [join]
  | succ m ih =>
    rw [join_succ, length_append, ih fun i hi => h i (by omega), h m (by omega), Nat.succ_mul]

/-- Blocks of blocks. -/
theorem join_join (m k : ℕ) (f : ℕ → List α) :
    (join m fun i => join k fun j => f (i * k + j)) = join (m * k) f := by
  induction m with
  | zero => simp [join]
  | succ m ih =>
    rw [join_succ, ih, Nat.succ_mul]
    simp [join, range_add, flatMap_map]

/-- Two indices as one. -/
theorem join_join_div_mod (m k : ℕ) (g : ℕ → ℕ → List α) :
    (join m fun i => join k (g i)) = join (m * k) fun p => g (p / k) (p % k) := by
  rw [← join_join m k]
  refine join_congr fun i _ => join_congr fun j hj => ?_
  rw [add_comm, Nat.add_mul_div_right _ _ (by omega), Nat.div_eq_of_lt hj,
    Nat.add_mul_mod_self_right, Nat.mod_eq_of_lt hj, zero_add]

variable {xs : List α}

theorem length_piece {w i : ℕ} (h : i * w + w ≤ xs.length) : (piece w xs i).length = w := by
  simp only [piece, length_take, length_drop]
  omega

/-- A segment ends before what is appended. -/
theorem piece_append {w i : ℕ} (ys : List α) (h : i * w + w ≤ xs.length) :
    piece w (xs ++ ys) i = piece w xs i := by
  rw [piece, piece, drop_append_of_le_length (by omega),
    take_append_of_le_length (by rw [length_drop]; omega)]

/-- The reader finds each segment again. -/
theorem piece_join {m w i : ℕ} (h : ∀ i < m, (f i).length = w) (hi : i < m) :
    piece w (join m f) i = f i := by
  induction m with
  | zero => omega
  | succ m ih =>
    have hlength : (join m f).length = m * w := length_join fun i hi => h i (by omega)
    rw [join_succ]
    rcases Nat.lt_succ_iff_lt_or_eq.mp hi with hlt | rfl
    · have hle : i * w + w ≤ m * w := by
        rw [← Nat.succ_mul]
        exact Nat.mul_le_mul_right w hlt
      rw [piece_append _ (by rw [hlength]; exact hle)]
      exact ih (fun i hi => h i (by omega)) hlt
    · rw [piece, ← hlength, drop_left, take_of_length_le (h i (by omega)).le]

/-- The reader of longer segments gets the ones inside. -/
theorem piece_join_mul {m k w i : ℕ} (h : ∀ j < m * k, (f j).length = w) (hi : i < m) :
    piece (k * w) (join (m * k) f) i = join k fun j => f (i * k + j) := by
  have hblock : ∀ i < m, (join k fun j => f (i * k + j)).length = k * w := by
    refine fun i hi => length_join fun j hj => h _ ?_
    calc i * k + j < i * k + k := by omega
      _ = (i + 1) * k := by ring
      _ ≤ m * k := Nat.mul_le_mul_right k hi
  rw [← join_join, piece_join hblock hi]

/-- A segment of a long segment is a segment of the list. -/
theorem piece_piece {w k i j : ℕ} (xs : List α) (hj : j < k) :
    piece w (piece (k * w) xs i) j = piece w xs (i * k + j) := by
  have hle : w ≤ k * w - j * w := by
    rw [← Nat.sub_mul]
    exact Nat.le_mul_of_pos_left w (by omega)
  rw [piece, piece, piece, drop_take, drop_drop, take_take, min_eq_left hle]
  congr 2
  ring

theorem piece_zero {w : ℕ} (h : xs.length ≤ w) : piece w xs 0 = xs := by
  rw [piece, zero_mul, drop_zero, take_of_length_le h]

/-! ## Padding -/

/-- `n` rounded up to a multiple of `unit`. -/
def roundUp (unit n : ℕ) : ℕ := (n + (unit - 1)) / unit * unit

theorem le_roundUp {unit : ℕ} (hunit : 0 < unit) (n : ℕ) : n ≤ roundUp unit n := by
  have hdiv := Nat.div_add_mod (n + (unit - 1)) unit
  have hmod := Nat.mod_lt (n + (unit - 1)) hunit
  rw [mul_comm] at hdiv
  unfold roundUp
  omega

theorem dvd_roundUp (unit n : ℕ) : unit ∣ roundUp unit n := Dvd.intro_left _ rfl

theorem roundUp_of_dvd {unit n : ℕ} (hunit : 0 < unit) (h : unit ∣ n) : roundUp unit n = n := by
  obtain ⟨k, rfl⟩ := h
  rw [roundUp, Nat.mul_add_div hunit, Nat.div_eq_of_lt (by omega), add_zero, mul_comm]

/-- Fill up with `pad` to a multiple of `unit` entries. -/
def padTo (unit : ℕ) (pad : α) (xs : List α) : List α :=
  xs ++ List.replicate (roundUp unit xs.length - xs.length) pad

theorem length_padTo {unit : ℕ} (hunit : 0 < unit) (pad : α) (xs : List α) :
    (padTo unit pad xs).length = roundUp unit xs.length := by
  rw [padTo, length_append, length_replicate]
  have := le_roundUp hunit xs.length
  omega

theorem padTo_of_dvd {unit : ℕ} (hunit : 0 < unit) (pad : α) (h : unit ∣ xs.length) :
    padTo unit pad xs = xs := by
  rw [padTo, roundUp_of_dvd hunit h, Nat.sub_self, replicate_zero, append_nil]

end Segments
