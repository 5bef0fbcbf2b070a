import Mathlib.Algebra.BigOperators.Fin
import Mathlib.Tactic.Positivity
import Mathlib.Tactic.Ring

/-!
# Polynomial hashes

The hash of a list is its value as a polynomial in a base; that of a block is read off the hashes of
two beginnings (`hash_block`). The difference of the hashes of the two Thue-Morse words of one
length is a product of `base ^ 2 ^ i - 1`, which soon vanishes modulo a power of two.
-/

namespace RollingHash

open List

variable {R : Type*} [CommRing R] (base : R)

/-- The hash of a list. -/
def hash (letters : List R) : R := letters.foldl (fun h letter => h * base + letter) 0

theorem foldl_eq (letters : List R) (h : R) : letters.foldl (fun h letter => h * base + letter) h =
      h * base ^ letters.length + hash base letters := by
  induction letters generalizing h with
  | nil => simp [hash]
  | cons letter letters ih =>
    have hcons : hash base (letter :: letters) =
        (0 * base + letter) * base ^ letters.length + hash base letters := ih (0 * base + letter)
    rw [foldl_cons, ih, hcons, length_cons]
    ring

theorem hash_append (letters letters' : List R) : hash base (letters ++ letters') =
      hash base letters * base ^ letters'.length + hash base letters' := by
  rw [hash, foldl_append, foldl_eq]
  rfl

/-- The hash of a block, from the hashes of what comes before it and of what ends with it. -/
theorem hash_block (letters : List R) {start length : ℕ} (h : start + length ≤ letters.length) :
    hash base (letters.take (start + length)) - hash base (letters.take start) * base ^ length =
      hash base ((letters.drop start).take length) := by
  have hlength : ((letters.drop start).take length).length = length := by
    rw [length_take, length_drop]
    omega
  rw [take_add, hash_append, hlength]
  ring

/-! ## Thue-Morse words -/

/-- The word of length `2 ^ k` that starts with `a`, over the letters `a` and `b`. -/
def thueMorse {α : Type*} (a b : α) : ℕ → List α
  | 0 => [a]
  | k + 1 => thueMorse a b k ++ thueMorse b a k

theorem length_thueMorse {α : Type*} (a b : α) (k : ℕ) : (thueMorse a b k).length = 2 ^ k := by
  induction k generalizing a b with
  | zero => rfl
  | succ k ih =>
    rw [thueMorse, length_append, ih, ih, pow_succ]
    ring

theorem map_thueMorse {α β : Type*} (f : α → β) (a b : α) (k : ℕ) :
    (thueMorse a b k).map f = thueMorse (f a) (f b) k := by
  induction k generalizing a b with
  | zero => rfl
  | succ k ih => rw [thueMorse, map_append, ih, ih, thueMorse]

theorem mem_thueMorse {α : Type*} {a b letter : α} {k : ℕ} (h : letter ∈ thueMorse a b k) :
    letter = a ∨ letter = b := by
  induction k generalizing a b with
  | zero => exact .inl (mem_singleton.mp h)
  | succ k ih =>
    rcases mem_append.mp h with h | h
    · exact ih h
    · exact (ih h).symm

theorem hash_sub_hash (a b : R) (k : ℕ) :
    hash base (thueMorse a b k) - hash base (thueMorse b a k) =
      (a - b) * ∏ i ∈ Finset.range k, (base ^ 2 ^ i - 1) := by
  induction k with
  | zero => simp [thueMorse, hash]
  | succ k ih =>
    rw [thueMorse, thueMorse, hash_append, hash_append, length_thueMorse, length_thueMorse,
      Finset.prod_range_succ, ← mul_assoc, ← ih]
    ring

end RollingHash
