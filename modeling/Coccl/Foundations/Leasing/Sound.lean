import Coccl.Foundations.Leasing.Moves
import Coccl.Foundations.Tiling
import Mathlib.Tactic

/-!
# Leases are backed by cells of their own

`Sound` says that the cells of a region follow one another without a gap, and that every lease is
backed by a leased cell of its own; `Sized`, that no cell is empty, regions are apart, and a lease
is as large as was requested.
-/

namespace Leasing

open Coccl.Tiling List

variable {σ : Type*}

structure Region.Sound (unit fresh : ℕ) (g : Region σ) : Prop where
  tiled : Chain Cell.offset Cell.size 0 g.cells g.size
  used_dvd : ∀ c ∈ g.cells, c.status ≠ .free → unit ∣ c.size
  ids : (g.cells.map Cell.id).Nodup
  cell_lt : ∀ c ∈ g.cells, c.id < fresh
  id_lt : g.id < fresh

structure Sound (unit : ℕ) (s : State σ) : Prop where
  region : ∀ g ∈ s.regions, g.Sound unit s.fresh
  ids : (s.regions.map Region.id).Nodup
  backed : ∀ l ∈ s.leases, ∃ g ∈ s.regions, ∃ c ∈ g.cells, Backs g c l
  lease_ids : (s.leases.map fun l => (l.region, l.cell)).Nodup

variable {c : Cell σ}

section

variable {unit : ℕ} {s s' : State σ} {A B : List (Region σ)} {g g' : Region σ} {fresh fresh' : ℕ}

theorem Region.Sound.mono (h : g.Sound unit fresh) (hle : fresh ≤ fresh') : g.Sound unit fresh' :=
  ⟨h.tiled, h.used_dvd, h.ids, fun c hc => (h.cell_lt c hc).trans_le hle, h.id_lt.trans_le hle⟩

theorem Sound.region_eq (h : Sound unit s) {g h' : Region σ} (hg : g ∈ s.regions)
    (hh : h' ∈ s.regions) (hid : g.id = h'.id) : g = h' :=
  inj_on_of_nodup_map h.ids hg hh hid

variable {d : Cell σ}

theorem Region.Sound.cell_eq (h : g.Sound unit fresh) (hc : c ∈ g.cells) (hd : d ∈ g.cells)
    (hid : c.id = d.id) : c = d :=
  inj_on_of_nodup_map h.ids hc hd hid

/-- One region is replaced, and the leases change with it. -/
theorem Sound.update (h : Sound unit s) (hregions : s.regions = A ++ g :: B) (hid : g'.id = g.id)
    (hregions' : s'.regions = A ++ g' :: B) (hg' : g'.Sound unit s'.fresh)
    (hfresh : s.fresh ≤ s'.fresh)
    (hlease_ids : (s'.leases.map fun l => (l.region, l.cell)).Nodup)
    (hleases : ∀ l ∈ s'.leases,
      (∃ c ∈ g'.cells, Backs g' c l) ∨ (l ∈ s.leases ∧ l.region ≠ g.id)) : Sound unit s' := by
  refine ⟨?_, ?_, ?_, hlease_ids⟩
  · intro r hr
    rw [hregions', mem_middle] at hr
    rcases hr with rfl | hr
    · exact hg'
    · exact (h.region r (hregions ▸ mem_middle.mpr (.inr hr))).mono hfresh
  · have hids := h.ids
    rw [hregions] at hids
    rw [hregions']
    simpa [hid] using hids
  · intro l hl
    rcases hleases l hl with ⟨c, hc, hbacks⟩ | ⟨hold, hne⟩
    · exact ⟨g', mem_of_split hregions', c, hc, hbacks⟩
    · obtain ⟨r, hr, c, hc, hbacks⟩ := h.backed l hold
      rw [hregions, mem_middle] at hr
      have hr := hr.resolve_left fun hrg => hne (hrg ▸ hbacks.region.symm)
      exact ⟨r, hregions' ▸ mem_middle.mpr (.inr hr), c, hc, hbacks⟩

theorem Sound.keeps (h : Sound unit s) (hregions : s.regions = A ++ g :: B) (hid : g'.id = g.id)
    {K : Cell σ → Prop}
    (hkeep : ∀ c ∈ g.cells, c.status = .leased → K c → c ∈ g'.cells ∧ g'.base = g.base)
    {l : Lease σ} (hl : l ∈ s.leases)
    (hlkeep : l.region = g.id → ∀ c ∈ g.cells, c.id = l.cell → K c) :
    (∃ c ∈ g'.cells, Backs g' c l) ∨ (l ∈ s.leases ∧ l.region ≠ g.id) := by
  by_cases hregion : l.region = g.id
  · left
    obtain ⟨r, hr, c, hc, hbacks⟩ := h.backed l hl
    obtain rfl := h.region_eq hr (mem_of_split hregions) (hbacks.region.trans hregion)
    obtain ⟨hmem, hbase⟩ := hkeep c hc hbacks.status (hlkeep hregion c hc hbacks.cell)
    refine ⟨c, hmem, ?_⟩
    exact ⟨hid.trans hbacks.region, hbacks.cell, hbacks.status, hbase ▸ hbacks.base, hbacks.size⟩
  · exact .inr ⟨hl, hregion⟩

/-- A part of a region's cells is cut in another way. -/
theorem Region.Sound.recut {X part part' Y : List (Cell σ)} (h : g.Sound unit fresh)
    (hcells : g.cells = X ++ (part ++ Y)) (hle : fresh ≤ fresh')
    (htiles : ∀ a b, Chain Cell.offset Cell.size a part b → Chain Cell.offset Cell.size a part' b)
    (hused : ∀ c ∈ part', c.status ≠ .free → unit ∣ c.size) (hids : (part'.map Cell.id).Nodup)
    (hnew : ∀ c ∈ part', (∃ d ∈ part, d.id = c.id) ∨ (fresh ≤ c.id ∧ c.id < fresh')) :
    Region.Sound unit fresh' { g with cells := X ++ (part' ++ Y) } := by
  have htiled := h.tiled
  have huses := h.used_dvd
  have hnodup := h.ids
  have hlt := h.cell_lt
  rw [hcells] at htiled huses hnodup hlt
  rw [map_append, map_append] at hnodup
  obtain ⟨hX, hrest, hXrest⟩ := nodup_append.mp hnodup
  obtain ⟨-, hY, hpartY⟩ := nodup_append.mp hrest
  refine ⟨htiled.replace htiles, ?_, ?_, ?_, h.id_lt.trans_le hle⟩
  · intro c hc
    simp only [mem_append] at hc huses
    rcases hc with hc | hc | hc
    · exact huses c (.inl hc)
    · exact hused c hc
    · exact huses c (.inr (.inr hc))
  · -- an identity of the new part is one of the old part or has not been given away
    have hother : ∀ c ∈ X ++ Y, ∀ d ∈ part', c.id ≠ d.id := by
      intro c hc d hd heq
      rcases hnew d hd with ⟨e, he, hed⟩ | ⟨hge, -⟩
      · have he := mem_map_of_mem (f := Cell.id) he
        rcases mem_append.mp hc with hc | hc
        · exact hXrest _ (mem_map_of_mem hc) _ (mem_append_left _ he) (heq.trans hed.symm)
        · exact hpartY _ he _ (mem_map_of_mem hc) (hed.trans heq.symm)
      · have := hlt c (by simp only [mem_append] at hc ⊢; tauto)
        omega
    rw [map_append, map_append]
    refine nodup_append.mpr ⟨hX, nodup_append.mpr ⟨hids, hY, ?_⟩, ?_⟩
    · intro i hi j hj heq
      obtain ⟨d, hd, rfl⟩ := mem_map.mp hi
      obtain ⟨c, hc, rfl⟩ := mem_map.mp hj
      exact hother c (mem_append_right _ hc) d hd heq.symm
    · intro i hi j hj heq
      obtain ⟨c, hc, rfl⟩ := mem_map.mp hi
      rcases mem_append.mp hj with hj | hj
      · obtain ⟨d, hd, rfl⟩ := mem_map.mp hj
        exact hother c (mem_append_left _ hc) d hd heq
      · exact hXrest _ hi _ (mem_append_right _ hj) heq
  · intro c hc
    simp only [mem_append] at hc hlt
    rcases hc with hc | hc | hc
    · exact (hlt c (.inl hc)).trans_le hle
    · rcases hnew c hc with ⟨d, hd, hid⟩ | ⟨-, hlt'⟩
      · exact hid ▸ (hlt d (.inr (.inl hd))).trans_le hle
      · exact hlt'
    · exact (hlt c (.inr (.inr hc))).trans_le hle

/-- The status of one cell changes. -/
theorem Region.Sound.relabel {X Y : List (Cell σ)} (h : g.Sound unit fresh)
    (hcells : g.cells = X ++ c :: Y) (hdvd : unit ∣ c.size) (status : Status σ) :
    Region.Sound unit fresh { g with cells := X ++ { c with status := status } :: Y } :=
  @Region.Sound.recut _ _ g _ _ X [c] [{ c with status := status }] Y h hcells le_rfl
    (fun _ _ h => h) (by simpa using fun _ => hdvd) (by simp) (by simp)

/-- A cell that is not leased backs no lease. -/
theorem Sound.not_backed (h : Sound unit s) (hg : g ∈ s.regions) (hc : c ∈ g.cells)
    (hnot : c.status ≠ .leased) {l : Lease σ} (hl : l ∈ s.leases) (hregion : l.region = g.id) :
    l.cell ≠ c.id := by
  intro hcell
  obtain ⟨r, hr, d, hd, hbacks⟩ := h.backed l hl
  obtain rfl := h.region_eq hr hg (hbacks.region.trans hregion)
  obtain rfl := (h.region r hr).cell_eq hd hc (hbacks.cell.trans hcell)
  exact hnot hbacks.status

theorem Region.Sound.cells_apart (h : g.Sound unit fresh) (hc : c ∈ g.cells) (hd : d ∈ g.cells)
    (hne : c.id ≠ d.id) : c.offset + c.size ≤ d.offset ∨ d.offset + d.size ≤ c.offset := by
  have hpairwise : g.cells.Pairwise fun a b =>
      a.offset + a.size ≤ b.offset ∨ b.offset + b.size ≤ a.offset :=
    h.tiled.pairwise.imp .inl
  have : Std.Symm fun a b : Cell σ =>
      a.offset + a.size ≤ b.offset ∨ b.offset + b.size ≤ a.offset := ⟨fun _ _ => Or.symm⟩
  exact hpairwise.forall hc hd fun heq => hne (heq ▸ rfl)

theorem Region.Sound.id_ne (h : g.Sound unit fresh) {X Y : List (Cell σ)}
    (hcells : g.cells = X ++ c :: Y) (hd : d ∈ X ∨ d ∈ Y) : d.id ≠ c.id := by
  have hids := h.ids
  rw [hcells, map_append, map_cons, nodup_middle, nodup_cons, ← map_append] at hids
  exact fun heq => hids.1 (mem_map.mpr ⟨d, mem_append.mpr hd, heq⟩)

theorem Region.Sound.single {id base size i : ℕ} (hi : i < fresh) (hid : id < fresh) :
    Region.Sound unit fresh (⟨id, base, size, [⟨i, 0, size, .free⟩]⟩ : Region σ) :=
  ⟨⟨rfl, zero_add size⟩, by simp, by simp, by simpa using hi, hid⟩

/-- Members other than the one replaced stay. -/
theorem mem_replace {X part part' Y : List (Cell σ)} (hd : d ∈ X ++ (part ++ Y)) (hne : d ∉ part) :
    d ∈ X ++ (part' ++ Y) := by
  simp only [mem_append] at hd ⊢
  tauto

/-- Cells that are free, or pending with their records seen, become free cells of the same
memory. -/
structure Recut (s : State σ) (part part' : List (Cell σ)) (fresh : ℕ) : Prop where
  le : s.fresh ≤ fresh
  tiles : ∀ a b, Chain Cell.offset Cell.size a part b → Chain Cell.offset Cell.size a part' b
  idle : ∀ c ∈ part, c.status = .free ∨ ∃ r ∈ s.seen, c.status = .pending r
  free : ∀ c ∈ part', c.status = .free
  ids : (∀ c ∈ part, c.id < s.fresh) → (part'.map Cell.id).Nodup
  new : ∀ c ∈ part', (∃ d ∈ part, d.id = c.id) ∨ (s.fresh ≤ c.id ∧ c.id < fresh)

namespace Recut

variable {c d : Cell σ}

theorem settle {r : Record σ} (hstatus : c.status = .pending r) (hseen : r ∈ s.seen) :
    Recut s [c] [{ c with status := .free }] s.fresh where
  le := le_rfl
  tiles _ _ := id
  idle := by simpa using .inr ⟨r, hseen, hstatus⟩
  free := by simp
  ids := by simp
  new := by simp

theorem merge (hc : c.status = .free) (hd : d.status = .free) :
    Recut s [c, d] [{ c with size := c.size + d.size }] s.fresh where
  le := le_rfl
  tiles := by
    rintro a b ⟨hoffset, -, hend⟩
    exact ⟨hoffset, (add_assoc _ _ _).symm.trans hend⟩
  idle := by simp [hc, hd]
  free := by simp [hc]
  ids := by simp
  new := by simp

theorem split {n : ℕ} (hstatus : c.status = .free) (hlt : n < c.size) :
    Recut s [c] [{ c with size := n }, ⟨s.fresh, c.offset + n, c.size - n, .free⟩]
      (s.fresh + 1) where
  le := Nat.le_succ _
  tiles := by
    rintro a b ⟨rfl, hend⟩
    have hend : c.offset + c.size = b := hend
    exact ⟨rfl, rfl, show c.offset + n + (c.size - n) = b by omega⟩
  idle := by simp [hstatus]
  free := by simp [hstatus]
  ids h := by simp [(h c mem_cons_self).ne]
  new := by simp

theorem not_leased {part part' : List (Cell σ)} (h : Recut s part part' fresh) (hc : c ∈ part) :
    c.status ≠ .leased := by
  rcases h.idle c hc with hfree | ⟨r, -, hpending⟩
  · simp [hfree]
  · simp [hpending]

end Recut

theorem Sound.recut {X part part' Y : List (Cell σ)} (h : Sound unit s)
    (hregions : s.regions = A ++ g :: B) (hcells : g.cells = X ++ (part ++ Y))
    (hrecut : Recut s part part' fresh) :
    Sound unit { s with
      regions := A ++ { g with cells := X ++ (part' ++ Y) } :: B, fresh := fresh } := by
  have hg := h.region g (mem_of_split hregions)
  have hids := hrecut.ids fun c hc => hg.cell_lt c (by simp [hcells, hc])
  have hg' := hg.recut hcells hrecut.le hrecut.tiles
    (fun c hc hused => absurd (hrecut.free c hc) hused) hids hrecut.new
  refine h.update hregions (by rfl) (by rfl) hg' hrecut.le h.lease_ids fun l hl => ?_
  refine h.keeps hregions (by rfl) (K := fun _ => True) (fun c hc hleased _ => ⟨?_, by rfl⟩) hl
    fun _ _ _ _ => trivial
  exact mem_replace (hcells ▸ hc) fun hmem => hrecut.not_leased hmem hleased

theorem Move.sound {own fits : Prop} (h : Sound unit s) (hmove : Move unit own fits s s') :
    Sound unit s' := by
  cases hmove with
  | advance hseen hfresh =>
    exact ⟨fun g hg => (h.region g hg).mono hfresh, h.ids, h.backed, h.lease_ids⟩
  | settle hregions hcells hstatus hseen => exact h.recut hregions hcells (.settle hstatus hseen)
  | merge hregions hcells hc hd => exact h.recut hregions hcells (.merge hc hd)
  | split hregions hcells hstatus hunit hpos hlt =>
    exact h.recut hregions hcells (.split hstatus hlt)
  | @lease A B g X Y c requested stream hregions hcells hstatus hunit hrequested =>
    have hg := h.region g (mem_of_split hregions)
    have hc := mem_of_split hcells
    have hnot : c.status ≠ .leased := by rcases hstatus with h | ⟨r, h, -⟩ <;> simp [h]
    have hdvd : unit ∣ c.size := by
      rcases hstatus with hfree | ⟨r, hpending, -⟩
      · exact hunit hfree
      · exact hg.used_dvd c hc (by simp [hpending])
    refine h.update hregions (by rfl) (by rfl) (hg.relabel hcells hdvd .leased) le_rfl ?_
      fun l hl => ?_
    · refine nodup_cons.mpr ⟨fun hmem => ?_, h.lease_ids⟩
      obtain ⟨l, hl, heq⟩ := mem_map.mp hmem
      obtain ⟨hlregion, hlcell⟩ := Prod.mk.inj heq
      exact h.not_backed (mem_of_split hregions) hc hnot hl hlregion hlcell
    · rcases mem_cons.mp hl with rfl | hl
      · exact .inl ⟨{ c with status := .leased }, by simp, rfl, rfl, rfl, rfl, rfl⟩
      · refine h.keeps hregions (by rfl) (K := fun _ => True)
          (fun d hd hleased _ => ⟨?_, by rfl⟩) hl fun _ _ _ _ => trivial
        rw [hcells, mem_middle] at hd
        exact mem_middle.mpr (.inr (hd.resolve_left fun heq => hnot (heq ▸ hleased)))
  | @giveBack A B g X Y c L M l stream hregions hcells hleases hregion hcell _ =>
    have hmem := mem_of_split hregions
    have hg := h.region g hmem
    have hc := mem_of_split hcells
    have hdvd : unit ∣ c.size := hg.used_dvd c hc fun hfree =>
      h.not_backed hmem hc (by simp [hfree]) (mem_of_split hleases) hregion.symm hcell.symm
    have hids := h.lease_ids
    rw [hleases, map_append, map_cons, nodup_middle, nodup_cons, ← map_append] at hids
    refine h.update hregions (by rfl) (by rfl) (hg.relabel hcells hdvd _) le_rfl hids.2
      fun l' hl' => ?_
    refine h.keeps hregions (by rfl) (K := fun d => d ≠ c) (fun d hd _ hne => ⟨?_, by rfl⟩) ?_ ?_
    · exact mem_middle.mpr (.inr ((mem_middle.mp (hcells ▸ hd)).resolve_left hne))
    · exact hleases ▸ mem_middle.mpr (.inr hl')
    · rintro hregion' d hd hid rfl
      -- two leases of one cell are one lease
      refine hids.1 (mem_map.mpr ⟨l', hl', ?_⟩)
      rw [hregion', ← hid, hregion, hcell]
  | @reset A B g base size hregions hfree hsize hapart =>
    have hg := h.region g (mem_of_split hregions)
    have hg' : Region.Sound unit (s.fresh + 1)
        (⟨g.id, base, size, [⟨s.fresh, 0, size, .free⟩]⟩ : Region σ) :=
      .single (Nat.lt_succ_self _) (hg.id_lt.trans_le (Nat.le_succ _))
    refine h.update hregions (by rfl) (by rfl) hg' (Nat.le_succ _) h.lease_ids fun l hl => ?_
    refine h.keeps hregions (by rfl) (K := fun _ => True) (fun c hc hleased _ => ?_) hl
      fun _ _ _ _ => trivial
    rw [hfree c hc] at hleased
    cases hleased
  | @create A B base size hregions hsize hapart =>
    refine ⟨fun r hr => ?_, ?_, fun l hl => ?_, h.lease_ids⟩
    · rcases mem_middle.mp hr with rfl | hr
      · exact .single (Nat.lt_succ_self _) (by simp)
      · exact (h.region r (hregions ▸ hr)).mono (by simp)
    · rw [map_append, map_cons, nodup_middle, nodup_cons, ← map_append, ← hregions]
      refine ⟨fun hfresh => ?_, h.ids⟩
      obtain ⟨r, hr, hid⟩ := mem_map.mp hfresh
      exact absurd (h.region r hr).id_lt (by simp [hid])
    · obtain ⟨r, hr, hback⟩ := h.backed l hl
      exact ⟨r, mem_middle.mpr (.inr (hregions ▸ hr)), hback⟩
  | @drop A D B hregions hfinished =>
    have hsub : (A ++ B).Sublist s.regions := by
      rw [hregions]
      exact (sublist_append_left A D).append (List.Sublist.refl B)
    refine ⟨fun r hr => h.region r (hsub.subset hr), h.ids.sublist (hsub.map _),
      fun l hl => ?_, h.lease_ids.sublist (filter_sublist.map _)⟩
    obtain ⟨hl, hkept⟩ := mem_filter.mp hl
    obtain ⟨r, hr, c, hc, hbacks⟩ := h.backed l hl
    refine ⟨r, ?_, c, hc, hbacks⟩
    have hnot : r ∉ D := fun hD =>
      absurd (mem_map_of_mem (f := Region.id) hD) (by
        rw [hbacks.region]
        exact of_decide_eq_true hkept)
    rw [hregions] at hr
    simp only [mem_append] at hr ⊢
    tauto

end

/-! ## Sizes that fit -/

structure Sized (unit : ℕ) (s : State σ) : Prop where
  cells : ∀ g ∈ s.regions, ∀ c ∈ g.cells, 0 < c.size ∧ unit ∣ c.size
  apart : s.regions.Pairwise Region.Apart
  requested : ∀ l ∈ s.leases, l.requested ≤ l.size

section

variable {unit : ℕ} {s s' : State σ} {A B : List (Region σ)} {g g' : Region σ}

theorem pairwise_apart_middle : (A ++ g :: B).Pairwise Region.Apart ↔
    (∀ r ∈ A ++ B, g.Apart r) ∧ (A ++ B).Pairwise Region.Apart :=
  (pairwise_middle Region.Apart.symm).trans pairwise_cons

theorem Sized.apart_others (h : Sized unit s) (hregions : s.regions = A ++ g :: B) :
    ∀ r ∈ A ++ B, g.Apart r :=
  (pairwise_apart_middle.mp (hregions ▸ h.apart)).1

/-- One region is replaced. -/
theorem Sized.update (h : Sized unit s) (hregions : s.regions = A ++ g :: B)
    (hregions' : s'.regions = A ++ g' :: B)
    (hcells : ∀ c ∈ g'.cells, 0 < c.size ∧ unit ∣ c.size) (hapart : ∀ r ∈ A ++ B, g'.Apart r)
    (hrequested : ∀ l ∈ s'.leases, l.requested ≤ l.size) : Sized unit s' := by
  refine ⟨?_, ?_, hrequested⟩
  · intro r hr
    rw [hregions', mem_middle] at hr
    rcases hr with rfl | hr
    · exact hcells
    · exact h.cells r (hregions ▸ mem_middle.mpr (.inr hr))
  · rw [hregions']
    exact pairwise_apart_middle.mpr ⟨hapart, (pairwise_apart_middle.mp (hregions ▸ h.apart)).2⟩

/-- A part of the cells of one region is cut in another way. -/
theorem Sized.recut {X part part' Y : List (Cell σ)} (h : Sized unit s)
    (hregions : s.regions = A ++ g :: B) (hcells : g.cells = X ++ (part ++ Y))
    (hregions' : s'.regions = A ++ { g with cells := X ++ (part' ++ Y) } :: B)
    (hpart : ∀ c ∈ part', 0 < c.size ∧ unit ∣ c.size)
    (hrequested : ∀ l ∈ s'.leases, l.requested ≤ l.size) : Sized unit s' := by
  have hold := h.cells g (mem_of_split hregions)
  rw [hcells] at hold
  refine h.update hregions hregions' ?_ (fun r hr => h.apart_others hregions r hr) hrequested
  intro c hc
  simp only [mem_append] at hc hold
  rcases hc with hc | hc | hc
  · exact hold c (.inl hc)
  · exact hpart c hc
  · exact hold c (.inr (.inr hc))

/-- The status of one cell changes. -/
theorem Sized.relabel {X Y : List (Cell σ)} {status : Status σ} (h : Sized unit s)
    (hregions : s.regions = A ++ g :: B) (hcells : g.cells = X ++ c :: Y)
    (hregions' : s'.regions = A ++ { g with cells := X ++ { c with status := status } :: Y } :: B)
    (hrequested : ∀ l ∈ s'.leases, l.requested ≤ l.size) : Sized unit s' := by
  have hc := h.cells g (mem_of_split hregions) c (mem_of_split hcells)
  exact @Sized.recut _ _ s _ A B g X [c] [{ c with status := status }] Y h hregions hcells
    hregions' (by simpa using hc) hrequested

theorem Move.sized {own fits : Prop} (hfits : fits) (h : Sized unit s)
    (hmove : Move unit own fits s s') : Sized unit s' := by
  cases hmove with
  | advance hseen hfresh => exact ⟨h.cells, h.apart, h.requested⟩
  | settle hregions hcells _ _ => exact h.relabel hregions hcells rfl h.requested
  | @merge A B g X Y c d hregions hcells hc hd =>
    have hg := h.cells g (mem_of_split hregions)
    have hc := hg c (mem_of_split hcells)
    have hd := hg d (by simp [hcells])
    exact @Sized.recut _ _ s _ A B g X [c, d] [{ c with size := c.size + d.size }] Y h hregions
      hcells rfl (by simpa using ⟨.inl hc.1, dvd_add hc.2 hd.2⟩) h.requested
  | @split A B g X Y c n hregions hcells hstatus hunit hpos hlt =>
    have hc := h.cells g (mem_of_split hregions) c (mem_of_split hcells)
    exact @Sized.recut _ _ s _ A B g X [c]
      [{ c with size := n }, ⟨s.fresh, c.offset + n, c.size - n, .free⟩] Y h hregions hcells rfl
      (by simpa using ⟨⟨hpos hfits, hunit⟩, hlt, Nat.dvd_sub hc.2 hunit⟩) h.requested
  | lease hregions hcells _ _ hrequested =>
    refine h.relabel hregions hcells rfl fun l hl => ?_
    rcases mem_cons.mp hl with rfl | hl
    · exact hrequested hfits
    · exact h.requested l hl
  | giveBack hregions hcells hleases _ _ _ =>
    exact h.relabel hregions hcells rfl fun l hl =>
      h.requested l (hleases ▸ mem_middle.mpr (.inr hl))
  | @reset A B g base size hregions hfree hsize hapart =>
    refine @Sized.update _ _ s _ A B g ⟨g.id, base, size, [⟨s.fresh, 0, size, .free⟩]⟩ h hregions
      rfl ?_ (hapart hfits) h.requested
    simpa using hsize hfits
  | @create A B base size hregions hsize hapart =>
    refine ⟨fun r hr => ?_, ?_, h.requested⟩
    · rcases mem_middle.mp hr with rfl | hr
      · simpa using hsize hfits
      · exact h.cells r (hregions ▸ hr)
    · exact pairwise_apart_middle.mpr ⟨hapart hfits, hregions ▸ h.apart⟩
  | @drop A D B hregions hfinished =>
    have hsub : (A ++ B).Sublist s.regions := by
      rw [hregions]
      exact (sublist_append_left A D).append (List.Sublist.refl B)
    exact ⟨fun r hr => h.cells r (hsub.subset hr), h.apart.sublist hsub,
      fun l hl => h.requested l (mem_of_mem_filter hl)⟩

/-- Leases are of different memory. -/
theorem leases_apart (hs : Sound unit s) (h : Sized unit s) :
    s.leases.Pairwise fun l l' => l.base + l.size ≤ l'.base ∨ l'.base + l'.size ≤ l.base := by
  have hdistinct : s.leases.Pairwise fun l l' => (l.region, l.cell) ≠ (l'.region, l'.cell) :=
    pairwise_map.mp hs.lease_ids
  refine hdistinct.imp_of_mem fun {l l'} hl hl' hne => ?_
  obtain ⟨g, hg, c, hc, hbacks⟩ := hs.backed l hl
  obtain ⟨g', hg', c', hc', hbacks'⟩ := hs.backed l' hl'
  have hinside := (hs.region g hg).tiled.inside hc
  have hinside' := (hs.region g' hg').tiled.inside hc'
  rw [hbacks.base, hbacks.size, hbacks'.base, hbacks'.size]
  by_cases hregion : g.id = g'.id
  · obtain rfl := hs.region_eq hg hg' hregion
    have hcells := (hs.region g hg).cells_apart hc hc' fun hcell => hne (by
      rw [← hbacks.region, ← hbacks'.region, ← hbacks.cell, ← hbacks'.cell, hcell])
    omega
  · have : Std.Symm fun a b : Region σ => a.Apart b := ⟨fun _ _ => Or.symm⟩
    have hapart : g.Apart g' := h.apart.forall hg hg' fun heq => hregion (heq ▸ rfl)
    unfold Region.Apart at hapart
    omega

end

end Leasing
