import Coccl.Foundations.Blocks

/-!
# Loops with a counter

The values a counter takes in a loop (`visits`), for any test and any way to count on; a counter
that never ends the loop has none. The progressions of all starts below a step together run through
everything once (`flatMap_progression_perm`).
-/

namespace Loops

open List

section

variable {α : Type*} (test : α → Bool) (next : α → α)

/-- The values of the counter of a loop from `x` on; `none` if it does not end within the fuel. -/
def visits : ℕ → α → Option (List α)
  | 0, _ => none
  | fuel + 1, x => if test x then (visits fuel (next x)).map (x :: ·) else some []

/-- The value with which the counter leaves the loop. -/
def leaves : ℕ → α → Option α
  | 0, _ => none
  | fuel + 1, x => if test x then leaves fuel (next x) else some x

variable {test next} {fuel : ℕ} {x : α}

theorem visits_of_false (h : test x = false) : visits test next (fuel + 1) x = some [] := by
  rw [visits, h]
  rfl

/-- A loop that ends after some rounds. -/
theorem visits_eq_some {n : ℕ} (hfuel : n < fuel) (htest : ∀ k < n, test (next^[k] x) = true)
    (hend : test (next^[n] x) = false) :
    visits test next fuel x = some ((List.range n).map fun k => next^[k] x) := by
  induction n generalizing fuel x with
  | zero =>
    obtain ⟨fuel, rfl⟩ : ∃ f, fuel = f + 1 := ⟨fuel - 1, by omega⟩
    exact visits_of_false hend
  | succ n ih =>
    obtain ⟨fuel, rfl⟩ : ∃ f, fuel = f + 1 := ⟨fuel - 1, by omega⟩
    have hfirst : test x = true := htest 0 (by omega)
    rw [visits, if_pos hfirst, ih (by omega) (fun k hk => htest (k + 1) (by omega)) hend,
      Option.map_some, range_succ_eq_map, map_cons, map_map]
    rfl

theorem leaves_eq_some {n : ℕ} (hfuel : n < fuel) (htest : ∀ k < n, test (next^[k] x) = true)
    (hend : test (next^[n] x) = false) : leaves test next fuel x = some (next^[n] x) := by
  induction n generalizing fuel x with
  | zero =>
    obtain ⟨fuel, rfl⟩ : ∃ f, fuel = f + 1 := ⟨fuel - 1, by omega⟩
    have hfalse : test x = false := hend
    rw [leaves, hfalse]
    rfl
  | succ n ih =>
    obtain ⟨fuel, rfl⟩ : ∃ f, fuel = f + 1 := ⟨fuel - 1, by omega⟩
    have hfirst : test x = true := htest 0 (by omega)
    rw [leaves, if_pos hfirst]
    exact ih (by omega) (fun k hk => htest (k + 1) (by omega)) hend

/-- A loop whose test is always met. -/
theorem visits_eq_none (fuel : ℕ) (htest : ∀ k, test (next^[k] x) = true) :
    visits test next fuel x = none := by
  induction fuel generalizing x with
  | zero => rfl
  | succ fuel ih =>
    have hfirst : test x = true := htest 0
    rw [visits, if_pos hfirst, ih fun k => htest (k + 1)]
    rfl

/-- A loop that ends visits no value twice. -/
theorem nodup_of_visits {l : List α} (h : visits test next fuel x = some l) : l.Nodup := by
  obtain ⟨n, hn, rfl, htest, hend⟩ : ∃ n, n < fuel ∧ l = (List.range n).map (next^[·] x) ∧
      (∀ k < n, test (next^[k] x) = true) ∧ test (next^[n] x) = false := by
    induction fuel generalizing x l with
    | zero => cases h
    | succ fuel ih =>
      cases hx : test x with
      | false =>
        rw [visits_of_false hx] at h
        obtain rfl := Option.some.inj h
        exact ⟨0, by omega, rfl, fun k hk => absurd hk (Nat.not_lt_zero k), hx⟩
      | true =>
        rw [visits, if_pos hx] at h
        obtain ⟨rest, hrest, rfl⟩ := Option.map_eq_some_iff.mp h
        obtain ⟨n, hn, rfl, htest, hend⟩ := ih hrest
        refine ⟨n + 1, by omega, ?_, fun k hk => ?_, hend⟩
        · rw [range_succ_eq_map, map_cons, map_map]
          rfl
        · cases k with
          | zero => exact hx
          | succ k => exact htest k (by omega)
  -- a value met again would be met for ever
  have hperiodic : ∀ i j, i < j → j < n → next^[i] x ≠ next^[j] x := by
    intro i j hij hj heq
    have hlast : next^[n] x = next^[n - j + i] x := by
      rw [Function.iterate_add_apply, heq, ← Function.iterate_add_apply, Nat.sub_add_cancel hj.le]
    rw [hlast, htest _ (by omega)] at hend
    cases hend
  refine pairwise_map.mpr (pairwise_lt_range.imp_of_mem fun {i j} _ hj hij => ?_)
  exact hperiodic i j hij (mem_range.mp hj)

end

section

/-- The rounds of a loop from `start` by `step` below `stop`. -/
def rounds (start step stop : ℕ) : ℕ := (stop - start + (step - 1)) / step

/-- `start`, `start + step`, … below `stop`. -/
def progression (start step stop : ℕ) : List ℕ :=
  (List.range (rounds start step stop)).map fun k => start + k * step

variable {start step stop x k : ℕ}

theorem lt_rounds_iff (hstep : 0 < step) :
    k < rounds start step stop ↔ start + k * step < stop := by
  rw [rounds, Nat.lt_iff_add_one_le, Nat.le_div_iff_mul_le hstep, add_mul, one_mul]
  omega

/-- A loop that is entered some rounds later. -/
theorem rounds_add (hstep : 0 < step) (m : ℕ) :
    rounds (start + m * step) step stop = rounds start step stop - m := by
  refine eq_of_forall_lt_iff fun k => ?_
  rw [lt_rounds_iff hstep, Nat.lt_sub_iff_add_lt, lt_rounds_iff hstep, add_mul, add_assoc,
    add_comm (m * step)]

/-- The first value that a loop does not visit. -/
theorem start_add_rounds_lt (hstep : 0 < step) (hstart : start < stop + step) :
    start + rounds start step stop * step < stop + step := by
  rcases eq_zero_or_pos (rounds start step stop) with hzero | hpos
  · rwa [hzero, zero_mul, add_zero]
  · have hlast := (lt_rounds_iff hstep).mp (Nat.sub_one_lt hpos.ne')
    have hsplit : rounds start step stop * step = (rounds start step stop - 1) * step + step := by
      rw [← Nat.succ_mul, Nat.succ_eq_add_one, Nat.sub_add_cancel hpos]
    omega

theorem mem_progression (hstep : 0 < step) :
    x ∈ progression start step stop ↔ start ≤ x ∧ x < stop ∧ x % step = start % step := by
  simp only [progression, mem_map, mem_range, lt_rounds_iff hstep]
  constructor
  · rintro ⟨k, hk, rfl⟩
    exact ⟨Nat.le_add_right _ _, hk, Nat.add_mul_mod_self_right _ _ _⟩
  · rintro ⟨hle, hlt, hmod⟩
    obtain ⟨k, hk⟩ := (Nat.modEq_iff_dvd' hle).mp hmod.symm
    refine ⟨k, ?_, ?_⟩ <;> rw [mul_comm k] <;> omega

theorem nodup_progression (hstep : 0 < step) : (progression start step stop).Nodup := by
  refine nodup_range.map fun a b h => ?_
  have hmul : a * step = b * step := by simpa using h
  exact Nat.eq_of_mul_eq_mul_right hstep hmul

/-- A divided loop visits everything once. -/
theorem flatMap_progression_perm (hstep : 0 < step) :
    ((List.range step).flatMap fun start => progression start step stop).Perm
      (List.range stop) := by
  refine (perm_ext_iff_of_nodup ?_ nodup_range).mpr fun x => ?_
  · refine nodup_flatMap.mpr ⟨fun start _ => nodup_progression hstep,
      nodup_range.imp_of_mem fun {a b} ha hb hne => ?_⟩
    rw [Function.onFun, disjoint_left]
    intro x hxa hxb
    have hmoda := ((mem_progression hstep).mp hxa).2.2
    have hmodb := ((mem_progression hstep).mp hxb).2.2
    rw [Nat.mod_eq_of_lt (mem_range.mp ha)] at hmoda
    rw [Nat.mod_eq_of_lt (mem_range.mp hb)] at hmodb
    exact hne (hmoda.symm.trans hmodb)
  · simp only [mem_flatMap, mem_range, mem_progression hstep]
    constructor
    · rintro ⟨start, -, -, hlt, -⟩
      exact hlt
    · exact fun hlt => ⟨x % step, Nat.mod_lt _ hstep, Nat.mod_le _ _, hlt, (Nat.mod_mod _ _).symm⟩

/-- A loop in a loop that are divided among the threads of a grid visit everything once. -/
theorem flatMap_grid_perm {τ : Type*} {threads : List τ} {column row : τ → ℕ} {X Y : ℕ}
    (hX : 0 < X) (hY : 0 < Y) (hnodup : threads.Nodup)
    (hbound : ∀ t ∈ threads, column t < X ∧ row t < Y)
    (hinj : ∀ t ∈ threads, ∀ t' ∈ threads, column t = column t' → row t = row t' → t = t')
    (hsurj : ∀ x < X, ∀ y < Y, ∃ t ∈ threads, column t = x ∧ row t = y) (rows columns : ℕ) :
    (threads.flatMap fun t => progression (row t) Y rows ×ˢ progression (column t) X columns).Perm
      (List.range rows ×ˢ List.range columns) := by
  -- a thread visits what is congruent to it
  have hmem : ∀ {t}, t ∈ threads → ∀ {y x : ℕ},
      (y, x) ∈ progression (row t) Y rows ×ˢ progression (column t) X columns ↔
        (y < rows ∧ x < columns) ∧ y % Y = row t ∧ x % X = column t := by
    intro t ht y x
    have hy := Nat.mod_eq_of_lt (hbound t ht).2
    have hx := Nat.mod_eq_of_lt (hbound t ht).1
    rw [mem_product, mem_progression hY, mem_progression hX, hy, hx]
    have := Nat.mod_le y Y
    have := Nat.mod_le x X
    omega
  refine (perm_ext_iff_of_nodup (nodup_flatMap.mpr ⟨fun t _ =>
    (nodup_progression hY).product (nodup_progression hX), hnodup.imp_of_mem ?_⟩)
    (nodup_range.product nodup_range)).mpr ?_
  · intro t t' ht ht' hne
    refine disjoint_left.mpr ?_
    rintro ⟨y, x⟩ h h'
    obtain ⟨-, hy, hx⟩ := (hmem ht).mp h
    obtain ⟨-, hy', hx'⟩ := (hmem ht').mp h'
    exact hne (hinj t ht t' ht' (hx.symm.trans hx') (hy.symm.trans hy'))
  · rintro ⟨y, x⟩
    rw [mem_product, mem_range, mem_range, mem_flatMap]
    constructor
    · rintro ⟨t, ht, h⟩
      exact ((hmem ht).mp h).1
    · intro h
      obtain ⟨t, ht, hx, hy⟩ := hsurj (x % X) (Nat.mod_lt x hX) (y % Y) (Nat.mod_lt y hY)
      exact ⟨t, ht, (hmem ht).mpr ⟨h, hy.symm, hx.symm⟩⟩

/-- A sum that is divided among threads. -/
theorem sum_progression {V : Type*} [AddCommMonoid V] (hstep : 0 < step) (f : ℕ → V) :
    ∑ start ∈ Finset.range step, ((progression start step stop).map f).sum =
      ∑ x ∈ Finset.range stop, f x := by
  have hlist : ∀ (n : ℕ) (g : ℕ → V), ∑ x ∈ Finset.range n, g x = ((List.range n).map g).sum :=
    fun _ _ => rfl
  rw [hlist, hlist, ← ((flatMap_progression_perm hstep).map f).sum_eq, map_flatMap,
    flatMap_def, sum_flatten, map_map]
  rfl

section

variable {α : Type*} {embed : ℕ → α} {test : α → Bool} {next : α → α} {fuel : ℕ} (hstep : 0 < step)
  (htest : ∀ x < stop + step, test (embed x) = decide (x < stop))
  (hnext : ∀ x < stop, next (embed x) = embed (x + step)) (hstart : start < stop + step)

include hstep hnext in
theorem iterate_counter (hk : k ≤ rounds start step stop) :
    next^[k] (embed start) = embed (start + k * step) := by
  induction k with
  | zero => simp
  | succ k ih =>
    rw [Function.iterate_succ_apply', ih (by omega), hnext _ ((lt_rounds_iff hstep).mp hk),
      Nat.succ_mul, add_assoc]

include hstep htest hnext in
theorem test_counter (hk : k < rounds start step stop) : test (next^[k] (embed start)) = true := by
  have hlt := (lt_rounds_iff hstep).mp hk
  rw [iterate_counter hstep hnext hk.le, htest _ (by omega)]
  exact decide_eq_true hlt

include hstep htest hnext hstart in
theorem test_counter_end : test (next^[rounds start step stop] (embed start)) = false := by
  rw [iterate_counter hstep hnext le_rfl, htest _ (start_add_rounds_lt hstep hstart)]
  exact decide_eq_false fun h => absurd ((lt_rounds_iff hstep).mpr h) (lt_irrefl _)

include hstep in
theorem rounds_le : rounds start step stop ≤ stop := by
  by_contra hlt
  have hstop := (lt_rounds_iff hstep).mp (not_le.mp hlt)
  have hmul := Nat.le_mul_of_pos_right stop hstep
  omega

variable (hfuel : stop < fuel)

include hstep htest hnext hstart hfuel in
/-- A machine counter that does not get to wrap. -/
theorem visits_progression :
    visits test next fuel (embed start) = some ((progression start step stop).map embed) := by
  rw [visits_eq_some ((rounds_le hstep).trans_lt hfuel)
    (fun k hk => test_counter hstep htest hnext hk) (test_counter_end hstep htest hnext hstart),
    progression, map_map]
  exact congrArg some (map_congr_left fun k hk =>
    iterate_counter hstep hnext (mem_range.mp hk).le)

include hstep htest hnext hstart hfuel in
theorem leaves_progression :
    leaves test next fuel (embed start) = some (embed (start + rounds start step stop * step)) := by
  rw [leaves_eq_some ((rounds_le hstep).trans_lt hfuel)
    (fun k hk => test_counter hstep htest hnext hk) (test_counter_end hstep htest hnext hstart),
    iterate_counter hstep hnext le_rfl]

end

section

variable {test : ℕ → Bool} {next : ℕ → ℕ} {fuel : ℕ} (hstep : 0 < step)
  (htest : ∀ x < stop + step, test x = decide (x < stop)) (hnext : ∀ x < stop, next x = x + step)
  (hstart : start < stop + step) (hfuel : stop < fuel)

include hstep htest hnext hstart hfuel

theorem visits_progression_nat : visits test next fuel start = some (progression start step stop) :=
  (@visits_progression _ _ _ _ id _ _ _ hstep htest hnext hstart hfuel).trans
    (congrArg some (map_id _))

theorem leaves_progression_nat :
    leaves test next fuel start = some (start + rounds start step stop * step) :=
  @leaves_progression _ _ _ _ id _ _ _ hstep htest hnext hstart hfuel

end

/-! ## Unrolled loops -/

/-- Rounds of `unroll` steps, as long as all of them are below `stop`, and then single steps visit
what single steps visit. -/
theorem progression_unrolled (hstep : 0 < step) {unroll : ℕ} (hunroll : 0 < unroll) :
    ((progression start (unroll * step) (stop - (unroll - 1) * step)).flatMap fun x =>
        (List.range unroll).map fun i => x + i * step) ++
      progression (start + rounds start (unroll * step) (stop - (unroll - 1) * step) *
        (unroll * step)) step stop = progression start step stop := by
  set outer := rounds start (unroll * step) (stop - (unroll - 1) * step) with houter
  have hle : outer * unroll ≤ rounds start step stop := by
    rcases eq_zero_or_pos outer with hzero | hpos
    · rw [hzero, Nat.zero_mul]
      exact Nat.zero_le _
    · have hlast : start + (outer - 1) * (unroll * step) < stop - (unroll - 1) * step :=
        (lt_rounds_iff (mul_pos hunroll hstep)).mp (Nat.sub_one_lt hpos.ne')
      have hsplit : outer * unroll = (outer - 1) * unroll + (unroll - 1) + 1 := by
        rw [add_assoc, Nat.sub_add_cancel hunroll, ← Nat.succ_mul, Nat.succ_eq_add_one,
          Nat.sub_add_cancel hpos]
      rw [hsplit]
      refine (lt_rounds_iff hstep).mpr ?_
      rw [add_mul, mul_assoc]
      omega
  have hblocks : ((progression start (unroll * step) (stop - (unroll - 1) * step)).flatMap fun x =>
      (List.range unroll).map fun i => x + i * step) =
        (List.range (outer * unroll)).map fun k => start + k * step := by
    rw [progression, flatMap_map, Blocks.flatMap_range_blocks]
    refine map_congr_left fun k _ => ?_
    nth_rewrite 3 [← Nat.div_add_mod' k unroll]
    ring
  have hsplit := range_add (n := outer * unroll) (m := rounds start step stop - outer * unroll)
  rw [Nat.add_sub_cancel' hle] at hsplit
  rw [hblocks, ← mul_assoc, progression, rounds_add hstep, progression, hsplit,
    map_append, map_map]
  refine congrArg _ (map_congr_left fun k _ => ?_)
  rw [Function.comp_apply, add_mul, add_assoc]

end

end Loops
