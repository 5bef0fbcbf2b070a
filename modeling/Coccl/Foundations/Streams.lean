import Mathlib.Tactic

/-!
# Programs on first-in first-out streams

A host enqueues items on streams: work, the record of an event, or a wait for one. The items of one
stream take effect in order; a wait also takes effect after the most recent record of its event
enqueued before it, if there is one. A legal order is any order that respects these two rules.
-/

namespace Streams

open List

variable {σ ε ω : Type*}

/-- What an item does. -/
inductive Cmd (ε ω : Type*) where
  | record (event : ε)
  | wait (event : ε)
  | work (op : ω)

/-- An item and the stream it is enqueued on. -/
structure Item (σ ε ω : Type*) where
  stream : σ
  cmd : Cmd ε ω

/-- The work an item does, if it does any. -/
def Item.work? : Item σ ε ω → Option ω
  | ⟨_, .work op⟩ => some op
  | _ => none

@[simp] theorem Item.work?_work (s : σ) (op : ω) :
    (⟨s, .work op⟩ : Item σ ε ω).work? = some op := rfl

@[simp] theorem Item.work?_record (s : σ) (e : ε) :
    (⟨s, .record e⟩ : Item σ ε ω).work? = none := rfl

@[simp] theorem Item.work?_wait (s : σ) (e : ε) : (⟨s, .wait e⟩ : Item σ ε ω).work? = none := rfl

/-- The item at position `j` has to wait for the one at position `i`. -/
def Dep (prog : List (Item σ ε ω)) (i j : ℕ) : Prop :=
  i < j ∧ ∃ x y, prog[i]? = some x ∧ prog[j]? = some y ∧
    (x.stream = y.stream ∨ ∃ e, x.cmd = .record e ∧ y.cmd = .wait e ∧
      ∀ k z, i < k → k < j → prog[k]? = some z → z.cmd ≠ .record e)

/-- An order of the positions of a program that respects every dependency. -/
structure Legal (prog : List (Item σ ε ω)) (order : List ℕ) : Prop where
  perm : order.Perm (List.range prog.length)
  deps : ∀ i j, Dep prog i j → [i, j].Sublist order

/-- The work done along an order. -/
def works (prog : List (Item σ ε ω)) (order : List ℕ) : List ω :=
  order.filterMap fun i => prog[i]?.bind Item.work?

/-- The work of a program in the order the host enqueued it. -/
def hostWorks (prog : List (Item σ ε ω)) : List ω := prog.filterMap Item.work?

@[simp] theorem hostWorks_nil : hostWorks ([] : List (Item σ ε ω)) = [] := rfl

@[simp] theorem hostWorks_work (s : σ) (op : ω) (prog : List (Item σ ε ω)) :
    hostWorks (⟨s, .work op⟩ :: prog) = op :: hostWorks prog := rfl

@[simp] theorem hostWorks_record (s : σ) (e : ε) (prog : List (Item σ ε ω)) :
    hostWorks (⟨s, .record e⟩ :: prog) = hostWorks prog := rfl

@[simp] theorem hostWorks_wait (s : σ) (e : ε) (prog : List (Item σ ε ω)) :
    hostWorks (⟨s, .wait e⟩ :: prog) = hostWorks prog := rfl

@[simp] theorem hostWorks_append (xs ys : List (Item σ ε ω)) :
    hostWorks (xs ++ ys) = hostWorks xs ++ hostWorks ys := filterMap_append

@[simp] theorem hostWorks_flatMap {ι : Type*} (l : List ι) (f : ι → List (Item σ ε ω)) :
    hostWorks (l.flatMap f) = l.flatMap fun i => hostWorks (f i) := by
  induction l with
  | nil => rfl
  | cons i l ih => rw [flatMap_cons, hostWorks_append, ih, flatMap_cons]

/-- `v` runs before `w` in every legal order. -/
def Precedes (prog : List (Item σ ε ω)) (v w : ω) : Prop :=
  ∀ order, Legal prog order → [v, w].Sublist (works prog order)

/-! ## Pairs in a list -/

variable {α : Type*} {l : List α}

theorem pair_sublist_iff {x y : α} :
    [x, y].Sublist l ↔ ∃ i j : ℕ, i < j ∧ l[i]? = some x ∧ l[j]? = some y := by
  constructor
  · intro h
    induction l with
    | nil => simp at h
    | cons a l ih =>
      cases h with
      | cons _ h =>
        obtain ⟨i, j, hij, hi, hj⟩ := ih h
        exact ⟨i + 1, j + 1, by omega, by simpa using hi, by simpa using hj⟩
      | cons_cons _ h =>
        obtain ⟨j, hj⟩ := mem_iff_getElem?.mp (singleton_sublist.mp h)
        exact ⟨0, j + 1, by omega, by simp, by simpa using hj⟩
  · rintro ⟨i, j, hij, hi, hj⟩
    induction l generalizing i j with
    | nil => simp at hi
    | cons a l ih =>
      obtain ⟨j, rfl⟩ : ∃ j', j = j' + 1 := ⟨j - 1, by omega⟩
      rw [getElem?_cons_succ] at hj
      rcases i with _ | i
      · obtain rfl : a = x := by simpa using hi
        exact (singleton_sublist.mpr (mem_of_getElem? hj)).cons_cons a
      · exact (ih i j (by omega) (by simpa using hi) hj).cons a

theorem pair_sublist_trans (hn : l.Nodup) {x y z : α} (h₁ : [x, y].Sublist l)
    (h₂ : [y, z].Sublist l) : [x, z].Sublist l := by
  obtain ⟨i, j, hij, hi, hj⟩ := pair_sublist_iff.mp h₁
  obtain ⟨j', k, hjk, hj', hk⟩ := pair_sublist_iff.mp h₂
  have : j' = j := by
    have hlt := (List.getElem?_eq_some_iff.mp hj).1
    exact (getElem?_inj hlt hn).mp (hj.trans hj'.symm) |>.symm
  subst this
  exact pair_sublist_iff.mpr ⟨i, k, by omega, hi, hk⟩

/-- In a list without repetitions two elements come in one order only. -/
theorem pair_sublist_antisymm (hn : l.Nodup) {x y : α} (h₁ : [x, y].Sublist l) :
    ¬[y, x].Sublist l := fun h₂ => by
  have := hn.sublist (pair_sublist_trans hn h₁ h₂)
  simp at this

theorem pair_sublist_split {x y : α} (h : [x, y].Sublist l) : ∃ p q, l = p ++ y :: q ∧ x ∈ p := by
  obtain ⟨r₁, r₂, rfl, hx, hy⟩ := cons_sublist_iff.mp h
  obtain ⟨p, q, rfl⟩ := append_of_mem (singleton_sublist.mp hy)
  exact ⟨r₁ ++ p, q, by simp, mem_append_left _ hx⟩

theorem pair_sublist_append_iff {l₁ l₂ : List α} {x y : α} : [x, y].Sublist (l₁ ++ l₂) ↔
      [x, y].Sublist l₁ ∨ (x ∈ l₁ ∧ y ∈ l₂) ∨ [x, y].Sublist l₂ := by
  constructor
  · intro h
    obtain ⟨p, q, hpq, hp, hq⟩ := sublist_append_iff.mp h
    rcases p with _ | ⟨a, _ | ⟨b, p⟩⟩
    · exact .inr (.inr (hpq ▸ hq))
    · obtain ⟨rfl, rfl⟩ := cons_eq_cons.mp hpq
      exact .inr (.inl ⟨hp.subset (by simp), hq.subset (by simp)⟩)
    · simp only [cons_append, List.cons.injEq, nil_eq, append_eq_nil_iff] at hpq
      obtain ⟨rfl, rfl, rfl, rfl⟩ := hpq
      exact .inl hp
  · rintro (h | ⟨hx, hy⟩ | h)
    · exact h.trans (sublist_append_left _ _)
    · exact (singleton_sublist.mpr hx).append (singleton_sublist.mpr hy)
    · exact h.trans (sublist_append_right _ _)

/-- A pair of a concatenation comes from two of its parts, or from one. -/
theorem pair_sublist_flatMap_iff {ι α : Type*} {l : List ι} {f : ι → List α} {x y : α} :
    [x, y].Sublist (l.flatMap f) ↔
      (∃ i j, [i, j].Sublist l ∧ x ∈ f i ∧ y ∈ f j) ∨ ∃ i ∈ l, [x, y].Sublist (f i) := by
  induction l with
  | nil => simp
  | cons a l ih =>
    rw [flatMap_cons, pair_sublist_append_iff, ih]
    constructor
    · rintro (h | ⟨hx, hy⟩ | ⟨i, j, hij, hi, hj⟩ | ⟨i, hi, h⟩)
      · exact .inr ⟨a, by simp, h⟩
      · obtain ⟨j, hj, hyj⟩ := mem_flatMap.mp hy
        exact .inl ⟨a, j, (singleton_sublist.mpr hj).cons_cons a, hx, hyj⟩
      · exact .inl ⟨i, j, hij.cons a, hi, hj⟩
      · exact .inr ⟨i, by simp [hi], h⟩
    · rintro (⟨i, j, hij, hi, hj⟩ | ⟨i, hi, h⟩)
      · cases hij with
        | cons _ hij => exact .inr (.inr (.inl ⟨i, j, hij, hi, hj⟩))
        | cons_cons _ hj' =>
          exact .inr (.inl ⟨hi, mem_flatMap.mpr ⟨j, singleton_sublist.mp hj', hj⟩⟩)
      · rcases mem_cons.mp hi with rfl | hi
        · exact .inl h
        · exact .inr (.inr (.inr ⟨i, hi, h⟩))

theorem pair_sublist_range_iff {n i j : ℕ} : [i, j].Sublist (List.range n) ↔ i < j ∧ j < n := by
  rw [pair_sublist_iff]
  constructor
  · rintro ⟨p, q, hpq, hp, hq⟩
    obtain ⟨hp', rfl⟩ := List.getElem?_eq_some_iff.mp hp
    obtain ⟨hq', rfl⟩ := List.getElem?_eq_some_iff.mp hq
    rw [length_range] at hq'
    simpa using ⟨hpq, hq'⟩
  · rintro ⟨hij, hj⟩
    exact ⟨i, j, hij, getElem?_range (hij.trans hj), getElem?_range hj⟩

variable {f : ℕ → List α}

/-- Parts of two parts of a concatenation, in their order. -/
theorem append_sublist_flatMap_range {n i j : ℕ} (hij : i < j) (hj : j < n) {l₁ l₂ : List α}
    (h₁ : l₁.Sublist (f i)) (h₂ : l₂.Sublist (f j)) :
    (l₁ ++ l₂).Sublist ((List.range n).flatMap f) := by
  have hpair := (pair_sublist_range_iff.mpr ⟨hij, hj⟩).flatMap f
  simp only [flatMap_cons, flatMap_nil, append_nil] at hpair
  exact (h₁.append h₂).trans hpair

theorem sublist_flatMap_range {n i : ℕ} (hi : i < n) (h : l.Sublist (f i)) :
    l.Sublist ((List.range n).flatMap f) := by
  have hpart := (singleton_sublist.mpr (mem_range.mpr hi)).flatMap f
  rw [flatMap_cons, flatMap_nil, append_nil] at hpart
  exact h.trans hpart

theorem flatMap_range_single {n c : ℕ} (hc : c < n) (l : List α) :
    ((List.range n).flatMap fun k => if k = c then l else []) = l := by
  induction n with
  | zero => omega
  | succ n ih =>
    rw [range_succ, flatMap_append, flatMap_cons, flatMap_nil, append_nil]
    by_cases hlast : n = c
    · have hnone : ((List.range n).flatMap fun k => if k = c then l else []) = [] := by
        refine flatMap_eq_nil_iff.mpr fun k hk => if_neg ?_
        have := mem_range.mp hk
        omega
      rw [hnone, if_pos hlast, nil_append]
    · rw [ih (by omega), if_neg hlast, append_nil]

/-- Two nested loops do the same in either nesting, up to the order. -/
theorem flatMap_swap_perm {ι ι' α : Type*} (l : List ι) (m : List ι') (f : ι → ι' → List α) :
    (l.flatMap fun i => m.flatMap (f i)).Perm (m.flatMap fun j => l.flatMap fun i => f i j) := by
  induction l with
  | nil => simp
  | cons i l ih =>
    simp only [flatMap_cons]
    exact (ih.append_left _).trans (flatMap_append_perm m (f i) _)

/-! ## Legal orders -/

/-- The host's own order is legal. -/
theorem legal_range (prog : List (Item σ ε ω)) : Legal prog (List.range prog.length) where
  perm := .refl _
  deps := fun i j ⟨hij, x, y, _, hj, _⟩ => by
    have hlt := (List.getElem?_eq_some_iff.mp hj).1
    exact pair_sublist_iff.mpr ⟨i, j, hij, getElem?_range (hij.trans hlt), getElem?_range hlt⟩

theorem filterMap_range_getElem? {α β : Type*} (f : α → Option β) (l : List α) :
    (List.range l.length).filterMap (fun i => l[i]?.bind f) = l.filterMap f := by
  induction l with
  | nil => rfl
  | cons x l ih =>
    rw [length_cons, range_succ_eq_map, filterMap_cons, filterMap_map, filterMap_cons]
    simp only [Function.comp_def, Nat.succ_eq_add_one, getElem?_cons_succ,
      getElem?_cons_zero, Option.bind_some, ih]

variable {prog : List (Item σ ε ω)} {order : List ℕ}

theorem Legal.works_perm (h : Legal prog order) : (works prog order).Perm (hostWorks prog) := by
  rw [hostWorks, ← filterMap_range_getElem?]
  exact h.perm.filterMap _

theorem Legal.works_nodup (h : Legal prog order) (hn : (hostWorks prog).Nodup) :
    (works prog order).Nodup :=
  h.works_perm.nodup_iff.mpr hn

/-- Two positions in order do their work in order. -/
theorem works_pair {i j : ℕ} {x y : Item σ ε ω} {v w : ω} (h : [i, j].Sublist order)
    (hi : prog[i]? = some x) (hj : prog[j]? = some y) (hx : x.work? = some v)
    (hy : y.work? = some w) : [v, w].Sublist (works prog order) := by
  have := h.filterMap fun i => prog[i]?.bind Item.work?
  simpa [works, hi, hj, hx, hy] using this

/-! ## Work that runs in one order only -/

theorem Precedes.trans (hn : (hostWorks prog).Nodup) {u v w : ω} (h₁ : Precedes prog u v)
    (h₂ : Precedes prog v w) : Precedes prog u w :=
  fun order hlegal =>
    pair_sublist_trans (hlegal.works_nodup hn) (h₁ order hlegal) (h₂ order hlegal)

/-- Work of one stream runs in the order it was enqueued. -/
theorem precedes_of_stream {s : σ} {v w : ω}
    (h : [(⟨s, .work v⟩ : Item σ ε ω), ⟨s, .work w⟩].Sublist prog) : Precedes prog v w := by
  intro order hlegal
  obtain ⟨i, j, hij, hi, hj⟩ := pair_sublist_iff.mp h
  exact works_pair (hlegal.deps i j ⟨hij, _, _, hi, hj, .inl rfl⟩) hi hj rfl rfl

/-- A wait depends on the last record of its event before it. -/
theorem exists_last_record {e : ε} {r q : ℕ} {x y : Item σ ε ω} (hrq : r < q)
    (hr : prog[r]? = some x) (hx : x.cmd = .record e) (hq : prog[q]? = some y)
    (hy : y.cmd = .wait e) :
    ∃ r' z, r ≤ r' ∧ prog[r']? = some z ∧ z.cmd = .record e ∧ Dep prog r' q := by
  classical
  let Records : ℕ → Prop := fun i => i < q ∧ ∃ z, prog[i]? = some z ∧ z.cmd = .record e
  have hrec : Records r := ⟨hrq, x, hr, hx⟩
  obtain ⟨hlt, z, hz, hcmd⟩ := Nat.findGreatest_spec (P := Records) hrq.le hrec
  refine ⟨_, z, Nat.le_findGreatest hrq.le hrec, hz, hcmd, hlt, z, y, hz, hq,
    .inr ⟨e, hcmd, hy, fun k w hk hkq hw hcmd' => ?_⟩⟩
  exact Nat.findGreatest_is_greatest hk hkq.le ⟨hkq, w, hw, hcmd'⟩

/-- An event that only one stream records orders the work before a record of it and the work after
a later wait for it. -/
theorem precedes_of_event {s t : σ} {e : ε} {v w : ω}
    (hrecords : ∀ z ∈ prog, z.cmd = .record e → z.stream = s)
    (h : [(⟨s, .work v⟩ : Item σ ε ω), ⟨s, .record e⟩, ⟨t, .wait e⟩, ⟨t, .work w⟩].Sublist prog) :
    Precedes prog v w := by
  intro order hlegal
  obtain ⟨f, hf⟩ := sublist_iff_exists_orderEmbedding_getElem?_eq.mp h
  have hlt : ∀ {i j}, i < j → f i < f j := fun hij => f.strictMono hij
  obtain ⟨r, z, hle, hz, hcmd, hdep⟩ := exists_last_record (hlt (show 1 < 2 by omega))
    (hf 1).symm rfl (hf 2).symm rfl
  have hstream := hrecords z (mem_of_getElem? hz) hcmd
  have hfirst : Dep prog (f 0) r :=
    ⟨(hlt Nat.zero_lt_one).trans_le hle, _, _, (hf 0).symm, hz, .inl hstream.symm⟩
  have hlast : Dep prog (f 2) (f 3) :=
    ⟨hlt (by omega), _, _, (hf 2).symm, (hf 3).symm, .inl rfl⟩
  have hnodup : order.Nodup := hlegal.perm.nodup_iff.mpr nodup_range
  exact works_pair (pair_sublist_trans hnodup (hlegal.deps _ _ hfirst)
    (pair_sublist_trans hnodup (hlegal.deps _ _ hdep) (hlegal.deps _ _ hlast)))
    (hf 0).symm (hf 3).symm rfl rfl

/-! ## Running a closed part first -/

/-- A set of positions that waits for nothing outside it may run before everything else. -/
theorem legal_of_closed (p : ℕ → Bool) (hclosed : ∀ i j, Dep prog i j → p j → p i) :
    Legal prog ((List.range prog.length).filter p ++
      (List.range prog.length).filter fun i => !p i) where
  perm := filter_append_perm p _
  deps := fun i j hdep => by
    have hsub := (legal_range prog).deps i j hdep
    by_cases hj : p j
    · have hi := hclosed i j hdep hj
      have := hsub.filter p
      rw [filter_eq_self.mpr (by simp [hi, hj])] at this
      exact this.trans (sublist_append_left _ _)
    · by_cases hi : p i
      · have himem : i ∈ (List.range prog.length).filter p :=
          mem_filter.mpr ⟨hsub.subset (by simp), hi⟩
        have hjmem : j ∈ (List.range prog.length).filter fun i => !p i :=
          mem_filter.mpr ⟨hsub.subset (by simp), by simp [hj]⟩
        exact (singleton_sublist.mpr himem).append (singleton_sublist.mpr hjmem)
      · have := hsub.filter fun i => !p i
        rw [filter_eq_self.mpr (by simp [hi, hj])] at this
        exact this.trans (sublist_append_right _ _)

/-- The streams of a set run first, with the program's first item before them, if they wait for no
record of another stream behind that item. -/
theorem exists_legal_streams_first {first : Item σ ε ω} {rest : List (Item σ ε ω)}
    (hfirst : first.work? = none) (p : σ → Bool)
    (hclosed : ∀ y ∈ first :: rest, p y.stream → ∀ e, y.cmd = .wait e →
      ∀ x ∈ rest, x.cmd = .record e → p x.stream) :
    ∃ order, Legal (first :: rest) order ∧ ∃ early late,
      works (first :: rest) order = early ++ late ∧
      (∀ w ∈ early, ∃ x ∈ rest, x.work? = some w ∧ p x.stream) ∧
      ∀ w ∈ late, ∃ x ∈ rest, x.work? = some w ∧ ¬p x.stream := by
  let q : ℕ → Bool := fun i => i = 0 || (first :: rest)[i]?.any fun x => p x.stream
  have hq : ∀ {i x}, (first :: rest)[i]? = some x → (q i ↔ i = 0 ∨ p x.stream) := by
    intro i x hx
    simp [q, hx]
  refine ⟨_, legal_of_closed q ?_, _, _, filterMap_append, ?_, ?_⟩
  · rintro i j ⟨hij, x, y, hx, hy, hdep⟩ hqj
    have hpj : p y.stream := ((hq hy).mp hqj).resolve_left (by omega)
    refine (hq hx).mpr ?_
    rcases hdep with hstream | ⟨e, hrecord, hwait, -⟩
    · exact .inr (hstream ▸ hpj)
    · rcases i with _ | i
      · exact .inl rfl
      · exact .inr (hclosed y (mem_of_getElem? hy) hpj e hwait x
          (mem_of_getElem? (by simpa using hx)) hrecord)
  -- the first item does no work, so the work of either part comes from the rest
  all_goals
    intro w hw
    obtain ⟨i, hi, hwork⟩ := mem_filterMap.mp hw
    obtain ⟨x, hx, hxw⟩ := Option.bind_eq_some_iff.mp hwork
    have hqi := (mem_filter.mp hi).2
    rcases i with _ | i
    · obtain rfl : first = x := by simpa using hx
      rw [hfirst] at hxw
      cases hxw
  · exact ⟨x, mem_of_getElem? (by simpa using hx), hxw, ((hq hx).mp hqi).resolve_left (by omega)⟩
  · refine ⟨x, mem_of_getElem? (by simpa using hx), hxw, fun hp => ?_⟩
    rw [(hq hx).mpr (.inr hp)] at hqi
    cases hqi

end Streams
