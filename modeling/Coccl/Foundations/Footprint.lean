import Mathlib

/-!
# Operations with footprints

An operation on a memory `L → V` declares the locations it may read and those it may write. Two
operations that do not write what the other touches are independent. A set of operations may run in
any order that keeps the order of its dependent pairs: the final memory is the same
(`run_eq_of_order`), and every operation finds the same contents (`run_agree_before`).
-/

namespace Footprint

open List

variable {ι L V : Type*}

/-- An operation with its footprint. -/
structure Op (L V : Type*) where
  reads : Set L
  writes : Set L
  act : (L → V) → L → V
  frame : ∀ m l, l ∉ writes → act m l = m l
  stable : ∀ m m', (∀ l, l ∈ reads ∨ l ∈ writes → m l = m' l) → ∀ l ∈ writes, act m l = act m' l

variable {l : L}

namespace Op

/-- The locations an operation may touch. -/
def touches (a : Op L V) : Set L := a.reads ∪ a.writes

/-- Neither operation writes what the other touches. -/
def Indep (a b : Op L V) : Prop :=
  Disjoint a.writes b.touches ∧ Disjoint b.writes a.touches

variable {a b : Op L V}

theorem Indep.symm (h : a.Indep b) : b.Indep a := ⟨h.2, h.1⟩

theorem Indep.notMem_writes (h : a.Indep b) (hl : l ∈ b.touches) :
    l ∉ a.writes := fun hw => Set.disjoint_left.mp h.1 hw hl

theorem Indep.act_eq (h : a.Indep b) (m : L → V) (hl : l ∈ b.touches) :
    a.act m l = m l := a.frame m l (h.notMem_writes hl)

theorem Indep.act_comm (h : a.Indep b) (m : L → V) : a.act (b.act m) = b.act (a.act m) := by
  funext l
  by_cases ha : l ∈ a.writes
  · have hb : l ∉ b.writes := h.symm.notMem_writes (Or.inr ha)
    rw [b.frame _ _ hb]
    exact a.stable _ _ (fun l' hl' => h.symm.act_eq m hl') l ha
  · rw [a.frame _ _ ha]
    by_cases hb : l ∈ b.writes
    · exact (b.stable _ _ (fun l' hl' => h.act_eq m hl') l hb).symm
    · rw [b.frame _ _ hb, b.frame _ _ hb, a.frame _ _ ha]

end Op

/-! ## Runs -/

/-- Run a list of operations, the head first. -/
def run (ops : ι → Op L V) : List ι → (L → V) → L → V
  | [], m => m
  | i :: is, m => run ops is ((ops i).act m)

@[simp] theorem run_nil (ops : ι → Op L V) (m : L → V) : run ops [] m = m := rfl

@[simp] theorem run_cons (ops : ι → Op L V) (i : ι) (is : List ι) (m : L → V) :
    run ops (i :: is) m = run ops is ((ops i).act m) := rfl

theorem run_append (ops : ι → Op L V) (xs ys : List ι) (m : L → V) :
    run ops (xs ++ ys) m = run ops ys (run ops xs m) := by
  induction xs generalizing m with
  | nil => rfl
  | cons x xs ih => exact ih _

variable {xs : List ι}

theorem run_frame (ops : ι → Op L V) (h : ∀ i ∈ xs, l ∉ (ops i).writes) (m : L → V) :
    run ops xs m l = m l := by
  induction xs generalizing m with
  | nil => rfl
  | cons x xs ih =>
    rw [run_cons, ih (fun i hi => h i (mem_cons_of_mem _ hi)),
      (ops x).frame _ _ (h x mem_cons_self)]

/-- An operation independent of a whole list moves past it. -/
theorem run_act_comm (ops : ι → Op L V) {a : Op L V} (h : ∀ i ∈ xs, a.Indep (ops i)) (m : L → V) :
    run ops xs (a.act m) = a.act (run ops xs m) := by
  induction xs generalizing m with
  | nil => rfl
  | cons x xs ih =>
    have hx : a.Indep (ops x) := h x mem_cons_self
    rw [run_cons, run_cons, ← hx.act_comm, ih fun i hi => h i (mem_cons_of_mem _ hi)]

open Classical in
/-- The operation that writes one value everywhere it may write. -/
noncomputable def Op.fill (reads writes : Set L) (v : V) : Op L V where
  reads := reads
  writes := writes
  act := fun m l => if l ∈ writes then v else m l
  frame := fun m l hl => if_neg hl
  stable := fun m m' _ l hl => by rw [if_pos hl, if_pos hl]

variable {ops : ι → Op L V}

/-- What a list of filling operations has written holds the value, and so does what held it. -/
theorem run_fill {v : V} (hops : ∀ i, ∃ reads writes, ops i = Op.fill reads writes v) {m : L → V}
    (h : m l = v ∨ ∃ i ∈ xs, l ∈ (ops i).writes) : run ops xs m l = v := by
  induction xs generalizing m with
  | nil => simpa using h
  | cons x xs ih =>
    obtain ⟨reads, writes, hx⟩ := hops x
    refine ih ?_
    by_cases hl : l ∈ (ops x).writes
    · left
      rw [hx] at hl ⊢
      exact if_pos hl
    · rw [(ops x).frame m l hl]
      refine h.imp_right ?_
      rintro ⟨i, hi, hli⟩
      rcases mem_cons.mp hi with rfl | hi
      · exact absurd hli hl
      · exact ⟨i, hi, hli⟩

/-! ## Orders that keep the dependent pairs -/

/-- `ys` lists the operations of `xs` and keeps the order of its dependent pairs. -/
structure Reorders (ops : ι → Op L V) (xs ys : List ι) : Prop where
  perm : xs.Perm ys
  keeps : ∀ i j, ¬(ops i).Indep (ops j) → [i, j].Sublist xs → [i, j].Sublist ys

/-- In a list without repetitions an element of the front part does not follow the middle. -/
theorem not_pair_sublist_of_mem_front {p q : List ι} {x y : ι} (hn : (p ++ x :: q).Nodup)
    (hy : y ∈ p) : ¬[x, y].Sublist (p ++ x :: q) := by
  intro hsub
  obtain ⟨-, -, hdis⟩ := nodup_append.mp hn
  obtain ⟨l₁, l₂, hl, hl₁, hl₂⟩ := sublist_append_iff.mp hsub
  rcases l₁ with _ | ⟨a, l₁⟩
  · rw [nil_append] at hl
    exact hdis y hy y (hl₂.subset (by simp [← hl])) rfl
  · obtain ⟨rfl, -⟩ := cons_eq_cons.mp hl
    exact hdis x (hl₁.subset (by simp)) x (by simp) rfl

/-- The head of `xs` is independent of everything `ys` runs before it. -/
theorem Reorders.indep_front {x : ι} {p q : List ι} (h : Reorders ops (x :: xs) (p ++ x :: q))
    (hn : (x :: xs).Nodup) {y : ι} (hy : y ∈ p) : (ops x).Indep (ops y) := by
  by_contra hdep
  have hny : (p ++ x :: q).Nodup := h.perm.nodup_iff.mp hn
  have hxy : y ≠ x := by
    rintro rfl
    exact (nodup_append.mp hny).2.2 y hy y (by simp) rfl
  have hmem : y ∈ xs := by
    have : y ∈ x :: xs := h.perm.mem_iff.mpr (by simp [hy])
    exact (mem_cons.mp this).resolve_left hxy
  have hsub : [x, y].Sublist (x :: xs) := (singleton_sublist.mpr hmem).cons_cons x
  exact not_pair_sublist_of_mem_front hny hy (h.keeps x y hdep hsub)

/-- Taking the head of `xs` out of both lists leaves a reordering. -/
theorem Reorders.tail {ops : ι → Op L V} {x : ι} {p q : List ι}
    (h : Reorders ops (x :: xs) (p ++ x :: q)) (hn : (x :: xs).Nodup) :
    Reorders ops xs (p ++ q) := by
  classical
  have hx : x ∉ xs := (nodup_cons.mp hn).1
  have hny : (p ++ x :: q).Nodup := h.perm.nodup_iff.mp hn
  refine ⟨(perm_cons x).mp (h.perm.trans perm_middle), fun i j hdep hsub => ?_⟩
  have hij := h.keeps i j hdep (hsub.cons x)
  have hi : i ≠ x := fun e => hx (e ▸ hsub.subset (by simp))
  have hj : j ≠ x := fun e => hx (e ▸ hsub.subset (by simp))
  have hp : ∀ a ∈ p, a ≠ x := by
    rintro a ha rfl
    exact (nodup_append.mp hny).2.2 a ha a (by simp) rfl
  have hq : ∀ a ∈ q, a ≠ x := by
    rintro a ha rfl
    exact (nodup_cons.mp (nodup_append.mp hny).2.1).1 ha
  -- erasing `x` from the longer list keeps the pair and leaves `p ++ q`
  have hpair : [i, j].filter (fun a => decide (a ≠ x)) = [i, j] := by simp [hi, hj]
  have hrest : (p ++ x :: q).filter (fun a => decide (a ≠ x)) = p ++ q := by
    rw [filter_append, filter_cons_of_neg (by simp),
      filter_eq_self.mpr (by simpa using hp), filter_eq_self.mpr (by simpa using hq)]
  simpa only [hpair, hrest] using hij.filter (fun a => decide (a ≠ x))

/-- **Orders that agree on the dependent pairs compute the same memory.** -/
theorem run_eq_of_order {ys : List ι} (hn : xs.Nodup) (h : Reorders ops xs ys) (m : L → V) :
    run ops xs m = run ops ys m := by
  induction xs generalizing ys m with
  | nil => rw [nil_perm.mp h.perm]
  | cons x xs ih =>
    obtain ⟨p, q, rfl⟩ := append_of_mem (h.perm.mem_iff.mp mem_cons_self)
    have hfront : ∀ y ∈ p, (ops x).Indep (ops y) := fun y hy => h.indep_front hn hy
    rw [run_cons, ih (nodup_cons.mp hn).2 (h.tail hn), run_append, run_append, run_cons,
      run_act_comm ops hfront]

/-- **Orders that agree on the dependent pairs show every operation the same memory**: the
contents of the locations `i` touches, when it is about to run, are the same in both. -/
theorem run_agree_before {ys : List ι} (hn : xs.Nodup) (h : Reorders ops xs ys) {i : ι}
    {a b c d : List ι} (hx : xs = a ++ i :: b) (hy : ys = c ++ i :: d) (m : L → V)
    (hl : l ∈ (ops i).touches) : run ops a m l = run ops c m l := by
  induction xs generalizing ys m a c d with
  | nil => simp at hx
  | cons x xs ih =>
    have hny : ys.Nodup := h.perm.nodup_iff.mp hn
    obtain ⟨p, q, rfl⟩ := append_of_mem (h.perm.mem_iff.mp mem_cons_self)
    have hfront : ∀ y ∈ p, (ops x).Indep (ops y) := fun y hy => h.indep_front hn hy
    have hnp : x ∉ p := fun hp => (nodup_append.mp hny).2.2 x hp x (by simp) rfl
    have hnq : x ∉ q := (nodup_cons.mp (nodup_append.mp hny).2.1).1
    rcases a with _ | ⟨x', a⟩
    · -- `i` is the first operation of `xs`: nothing before it in `ys` touches its footprint
      obtain ⟨rfl, rfl⟩ := cons_eq_cons.mp hx
      have hc : c = p := by
        rcases append_eq_append_iff.mp hy with ⟨e, rfl, he⟩ | ⟨e, rfl, he⟩
        · rcases e with _ | ⟨z, e⟩
          · simp
          · obtain ⟨rfl, rfl⟩ := cons_eq_cons.mp he
            exact absurd (by simp) hnq
        · rcases e with _ | ⟨z, e⟩
          · simp
          · obtain ⟨rfl, rfl⟩ := cons_eq_cons.mp he
            exact absurd (by simp) hnp
      subst hc
      exact (run_frame ops (fun j hj => (hfront j hj).symm.notMem_writes hl) m).symm
    · obtain ⟨rfl, htail⟩ := cons_eq_cons.mp hx
      have hix : i ≠ x := by
        rintro rfl
        exact (nodup_cons.mp hn).1 (by simp [htail])
      rw [run_cons]
      rcases append_eq_append_iff.mp hy with ⟨e, rfl, he⟩ | ⟨e, rfl, he⟩
      · -- `i` comes after `x` in `ys` too
        rcases e with _ | ⟨z, e⟩
        · exact absurd (cons_eq_cons.mp he).1.symm hix
        · obtain ⟨rfl, rfl⟩ := cons_eq_cons.mp he
          rw [ih (nodup_cons.mp hn).2 (h.tail hn) htail
            (by rw [append_assoc] : p ++ (e ++ i :: d) = (p ++ e) ++ i :: d),
            run_append, run_append, run_cons, run_act_comm ops hfront]
      · -- `ys` runs `i` before `x`, so the two are independent
        rcases e with _ | ⟨z, e⟩
        · exact absurd (cons_eq_cons.mp he).1 hix
        · obtain ⟨rfl, rfl⟩ := cons_eq_cons.mp he
          have hc : ∀ y ∈ c, (ops x).Indep (ops y) := fun y hy => hfront y (by simp [hy])
          rw [ih (nodup_cons.mp hn).2 (h.tail hn) htail
            (by simp : c ++ i :: e ++ q = c ++ i :: (e ++ q)), run_act_comm ops hc,
            (hfront i (by simp)).act_eq _ hl]

end Footprint
