import Coccl.Foundations.Leasing.Sound

/-!
# Memory is reused in stream order

`Ordered` says what of a cell's past uses may still be unfinished: nothing for a free cell, only
work before its record for a pending one, only work of its own stream for a leased one. It holds
after any move if every lease is given back on the stream it was made for (`Move.ordered`).
-/

namespace Leasing

open Coccl.Tiling List Region

variable {σ : Type*}

/-- What a cell's status says about a past use of its memory that has not been seen complete. -/
def Excused (leases : List (Lease σ)) (region : ℕ) (c : Cell σ) (use : Use σ) : Prop :=
  match c.status with
  | .free => False
  | .pending r => use.record.stream = r.stream ∧ use.record.time ≤ r.time
  | .leased => ∀ l ∈ leases, l.region = region → l.cell = c.id → use.record.stream = l.stream

def Allows (seen : List (Record σ)) (leases : List (Lease σ)) (region : ℕ) (c : Cell σ)
    (use : Use σ) : Prop :=
  Finished seen use.record ∨ Excused leases region c use

structure Ordered (s : State σ) : Prop where
  time_lt : ∀ use ∈ s.uses, use.record.time < s.clock
  region_lt : ∀ use ∈ s.uses, use.region < s.fresh
  inside : ∀ use ∈ s.uses, ∀ g ∈ s.regions, use.region = g.id → 0 < use.size →
    use.offset + use.size ≤ g.size ∨ Finished s.seen use.record
  allows : ∀ g ∈ s.regions, ∀ c ∈ g.cells, ∀ use ∈ s.uses, use.region = g.id → use.Overlaps c →
    Allows s.seen s.leases g.id c use

variable {fresh : ℕ} {status : Status σ}

section

variable {unit : ℕ} {s s' : State σ} {A B : List (Region σ)} {g g' : Region σ} {c : Cell σ}
  {leases : List (Lease σ)} {use : Use σ} {region : ℕ}

theorem Allows.mono {seen seen' : List (Record σ)} {leases' : List (Lease σ)}
    (h : Allows seen leases region c use) (hseen : seen ⊆ seen')
    (hleases : ∀ l ∈ leases', l.region = region → l.cell = c.id → l ∈ leases) :
    Allows seen' leases' region c use := by
  rcases h with h | h
  · exact .inl (h.mono hseen)
  · refine .inr ?_
    unfold Excused at h ⊢
    cases hstatus : c.status with
    | free => simp only [hstatus] at h
    | pending r => simpa only [hstatus] using h
    | leased =>
      simp only [hstatus] at h ⊢
      exact fun l hl hregion hcell => h l (hleases l hl hregion hcell) hregion hcell

theorem Allows.finished {seen : List (Record σ)} (h : Allows seen leases region c use)
    (hidle : c.status = .free ∨ ∃ r ∈ seen, c.status = .pending r) : Finished seen use.record := by
  rcases h with h | h
  · exact h
  · unfold Excused at h
    rcases hidle with hfree | ⟨r, hr, hpending⟩
    · rw [hfree] at h
      exact h.elim
    · rw [hpending] at h
      exact ⟨r, hr, h.1.symm, h.2⟩

/-- One region is replaced, without a use. -/
theorem Ordered.update (h : Ordered s) (hregions : s.regions = A ++ g :: B) (hid : g'.id = g.id)
    (hregions' : s'.regions = A ++ g' :: B) (huses : s'.uses = s.uses)
    (hseen : s'.seen = s.seen) (hfresh : s.fresh ≤ s'.fresh) (hclock : s'.clock = s.clock)
    (hleases : ∀ r ∈ A ++ B, ∀ l ∈ s'.leases, l.region = r.id → l ∈ s.leases)
    (hcells : ∀ c ∈ g'.cells, ∀ use ∈ s.uses, use.region = g.id → use.Overlaps c →
      Allows s.seen s'.leases g.id c use)
    (hinside : ∀ use ∈ s.uses, use.region = g.id → 0 < use.size →
      use.offset + use.size ≤ g'.size ∨ Finished s.seen use.record) : Ordered s' := by
  have hothers : ∀ r ∈ s'.regions, r = g' ∨ (r ∈ A ++ B ∧ r ∈ s.regions) := by
    intro r hr
    rw [hregions', mem_middle] at hr
    exact hr.imp_right fun hr => ⟨hr, hregions ▸ mem_middle.mpr (.inr hr)⟩
  refine ⟨?_, ?_, ?_, ?_⟩
  · rw [huses, hclock]
    exact h.time_lt
  · rw [huses]
    exact fun use huse => (h.region_lt use huse).trans_le hfresh
  · rw [huses, hseen]
    intro use huse r hr hregion
    rcases hothers r hr with rfl | ⟨-, hr⟩
    · exact hinside use huse (hregion.trans hid)
    · exact h.inside use huse r hr hregion
  · rw [huses, hseen]
    intro r hr c hc use huse hregion hoverlap
    rcases hothers r hr with rfl | ⟨hAB, hr⟩
    · rw [hid] at hregion ⊢
      exact hcells c hc use huse hregion hoverlap
    · exact (h.allows r hr c hc use huse hregion hoverlap).mono (List.Subset.refl _)
        fun l hl hlregion _ => hleases r hAB l hl hlregion

/-- What was done to the memory of a new cell is finished, since the cells it was are idle. -/
theorem Ordered.recut {X part part' Y : List (Cell σ)} (h : Ordered s) (hs : Sound unit s)
    (hregions : s.regions = A ++ g :: B) (hcells : g.cells = X ++ (part ++ Y))
    (hrecut : Recut s part part' fresh) :
    Ordered { s with
      regions := A ++ { g with cells := X ++ (part' ++ Y) } :: B, fresh := fresh } := by
  have hg := mem_of_split hregions
  refine @Ordered.update _ s _ A B g { g with cells := X ++ (part' ++ Y) } h hregions rfl rfl
    rfl rfl hrecut.le rfl (fun _ _ _ hl _ => hl) ?_ fun use huse => h.inside use huse g hg
  intro c hc use huse hregion hoverlap
  simp only [mem_append] at hc
  rcases hc with hc | hc | hc
  · exact h.allows g hg c (by simp [hcells, hc]) use huse hregion hoverlap
  · have htiled := (hs.region g hg).tiled
    rw [hcells] at htiled
    obtain ⟨a, -, hrest⟩ := chain_append.mp htiled
    obtain ⟨b, hpart, -⟩ := chain_append.mp hrest
    obtain ⟨hle, hend⟩ := (hrecut.tiles a b hpart).inside hc
    obtain ⟨x, hx, hx'⟩ := hoverlap
    obtain ⟨d, hd, hin⟩ := hpart.cover (hle.trans hx'.1) (hx'.2.trans_le hend)
    exact .inl ((h.allows g hg d (by simp [hcells, hd]) use huse hregion
      ⟨x, hx, hin⟩).finished (hrecut.idle d hd))
  · exact h.allows g hg c (by simp [hcells, hc]) use huse hregion hoverlap

/-- The status of one cell changes, and the leases with it. -/
theorem Ordered.relabel {X Y : List (Cell σ)} (h : Ordered s) (hs : Sound unit s)
    (hregions : s.regions = A ++ g :: B) (hcells : g.cells = X ++ c :: Y)
    (hleases : ∀ l ∈ leases, l ∈ s.leases ∨ l.region = g.id ∧ l.cell = c.id)
    (hnew : ∀ use ∈ s.uses, Allows s.seen s.leases g.id c use →
      Allows s.seen leases g.id { c with status := status } use) :
    Ordered { s with
      regions := A ++ { g with cells := X ++ { c with status := status } :: Y } :: B
      leases := leases } := by
  have hg := mem_of_split hregions
  have hids := hs.ids
  rw [hregions, map_append, map_cons, nodup_middle, nodup_cons, ← map_append] at hids
  refine @Ordered.update _ s _ A B g { g with cells := X ++ { c with status := status } :: Y } h
    hregions rfl rfl rfl rfl le_rfl rfl (fun r hr l hl hregion => ?_) ?_
    fun use huse => h.inside use huse g hg
  · exact (hleases l hl).resolve_right fun hnew =>
      hids.1 (mem_map.mpr ⟨r, hr, hregion.symm.trans hnew.1⟩)
  · intro d hd use huse hregion hoverlap
    rcases mem_middle.mp hd with rfl | hd
    · exact hnew use huse (h.allows g hg c (mem_of_split hcells) use huse hregion hoverlap)
    · exact (h.allows g hg d (hcells ▸ mem_middle.mpr (.inr hd)) use huse hregion hoverlap).mono
        (List.Subset.refl _) fun l hl _ hcell => (hleases l hl).resolve_right fun hnew =>
          (hs.region g hg).id_ne hcells (mem_append.mp hd) (hcell.symm.trans hnew.2)

/-- The use of a cell that has become pending is written down. -/
theorem Ordered.addUse (h : Ordered s) (hs : Sound unit s) (hg : g ∈ s.regions) (hc : c ∈ g.cells)
    {stream : σ} (hstatus : c.status = .pending ⟨stream, s.clock⟩) :
    Ordered { s with
      uses := ⟨g.id, c.offset, c.size, ⟨stream, s.clock⟩⟩ :: s.uses, clock := s.clock + 1 } := by
  have hgs := hs.region g hg
  refine ⟨?_, ?_, ?_, ?_⟩
  · intro use huse
    rcases mem_cons.mp huse with rfl | huse
    · exact Nat.lt_succ_self _
    · exact (h.time_lt use huse).trans (Nat.lt_succ_self _)
  · intro use huse
    rcases mem_cons.mp huse with rfl | huse
    · exact hgs.id_lt
    · exact h.region_lt use huse
  · intro use huse r hr hregion
    rcases mem_cons.mp huse with rfl | huse
    · obtain rfl := hs.region_eq hg hr hregion
      exact fun _ => .inl (hgs.tiled.inside hc).2
    · exact h.inside use huse r hr hregion
  · intro r hr d hd use huse hregion hoverlap
    rcases mem_cons.mp huse with rfl | huse
    · obtain rfl := hs.region_eq hg hr hregion
      have hid : c.id = d.id := by
        by_contra hne
        have hapart := hgs.cells_apart hc hd hne
        obtain ⟨x, hx, hx'⟩ := hoverlap
        simp only at hx
        omega
      obtain rfl := hgs.cell_eq hc hd hid
      refine .inr ?_
      unfold Excused
      rw [hstatus]
      exact ⟨rfl, le_rfl⟩
    · exact h.allows r hr d hd use huse hregion hoverlap

theorem Move.ordered {own fits : Prop} (hown : own) (hs : Sound unit s) (h : Ordered s)
    (hmove : Move unit own fits s s') : Ordered s' := by
  cases hmove with
  | advance hseen hfresh =>
    exact ⟨h.time_lt, fun use huse => (h.region_lt use huse).trans_le hfresh,
      fun use huse g hg hregion hpos =>
        (h.inside use huse g hg hregion hpos).imp_right fun hfinished => hfinished.mono hseen,
      fun g hg c hc use huse hregion hoverlap =>
        (h.allows g hg c hc use huse hregion hoverlap).mono hseen fun _ hl _ _ => hl⟩
  | settle hregions hcells hstatus hseen =>
    exact h.recut hs hregions hcells (.settle hstatus hseen)
  | merge hregions hcells hc hd => exact h.recut hs hregions hcells (.merge hc hd)
  | split hregions hcells hstatus hunit hpos hlt =>
    exact h.recut hs hregions hcells (.split hstatus hlt)
  | @lease A B g X Y c requested stream hregions hcells hstatus hunit hrequested =>
    have hnot : c.status ≠ .leased := by rcases hstatus with h | ⟨r, h, -⟩ <;> simp [h]
    refine h.relabel hs hregions hcells (fun l hl => ?_) fun use _ hallows => ?_
    · rcases mem_cons.mp hl with rfl | hl
      · exact .inr ⟨rfl, rfl⟩
      · exact .inl hl
    · rcases hallows with hfinished | hexcused
      · exact .inl hfinished
      · refine .inr fun l hl hlregion hlcell => ?_
        rcases mem_cons.mp hl with rfl | hl
        · unfold Excused at hexcused
          rcases hstatus with hfree | ⟨r, hpending, rfl⟩
          · rw [hfree] at hexcused
            exact hexcused.elim
          · rw [hpending] at hexcused
            exact hexcused.1
        · exact absurd hlcell (hs.not_backed (mem_of_split hregions) (mem_of_split hcells) hnot hl
            hlregion)
  | @giveBack A B g X Y c L M l stream hregions hcells hleases hregion hcell hstream =>
    have hl := mem_of_split hleases
    have hleased : c.status = .leased := by
      by_contra hnot
      exact hs.not_backed (mem_of_split hregions) (mem_of_split hcells) hnot hl hregion.symm
        hcell.symm
    have hpending : Ordered { s with
        regions := A ++ { g with
          cells := X ++ { c with status := .pending ⟨stream, s.clock⟩ } :: Y } :: B
        leases := L ++ M } := by
      refine h.relabel hs hregions hcells (fun l' hl' => .inl ?_) fun use huse hallows => ?_
      · exact hleases ▸ mem_middle.mpr (.inr hl')
      · refine hallows.imp_right fun hexcused => ?_
        unfold Excused at hexcused
        rw [hleased] at hexcused
        refine ⟨?_, (h.time_lt use huse).le⟩
        exact (hexcused l hl hregion.symm hcell.symm).trans (hstream hown).symm
    have hs' := Move.sound hs (@Move.giveBack _ _ own fits _ _ _ _ _ _ _ _ _ _ stream hregions
      hcells hleases hregion hcell hstream)
    exact hpending.addUse ⟨hs'.region, hs'.ids, hs'.backed, hs'.lease_ids⟩
      (mem_append_right _ mem_cons_self) (mem_append_right _ mem_cons_self) rfl
  | @reset A B g base size hregions hfree hsize hapart =>
    have hg := mem_of_split hregions
    -- a past use lies in free cells
    have hfinished : ∀ use ∈ s.uses, use.region = g.id → 0 < use.size →
        Finished s.seen use.record := by
      intro use huse hregion hpos
      rcases h.inside use huse g hg hregion hpos with hend | hfinished
      · obtain ⟨c, hc, hle, hlt⟩ :=
          (hs.region g hg).tiled.cover (Nat.zero_le use.offset) (by omega)
        exact (h.allows g hg c hc use huse hregion
          ⟨use.offset, ⟨le_rfl, by omega⟩, hle, hlt⟩).finished (.inl (hfree c hc))
      · exact hfinished
    refine @Ordered.update _ s _ A B g
      { g with base := base, size := size, cells := [⟨s.fresh, 0, size, .free⟩] } h hregions rfl rfl
      rfl rfl (Nat.le_succ _) rfl (fun _ _ _ hl _ => hl) ?_
      fun use huse hregion hpos => .inr (hfinished use huse hregion hpos)
    intro d hd use huse hregion hoverlap
    obtain ⟨x, hx, -⟩ := hoverlap
    exact .inl (hfinished use huse hregion (by omega))
  | @create A B base size hregions hsize hapart =>
    have hold : ∀ r ∈ A ++ (⟨s.fresh, base, size, [⟨s.fresh + 1, 0, size, .free⟩]⟩ : Region σ) :: B,
        r.id = s.fresh ∨ r ∈ s.regions := by
      intro r hr
      rw [hregions]
      exact (mem_middle.mp hr).imp_left (congrArg Region.id)
    refine ⟨h.time_lt, fun use huse => (h.region_lt use huse).trans_le (by simp), ?_, ?_⟩
    · intro use huse r hr hregion
      rcases hold r hr with hid | hr
      · exact absurd (h.region_lt use huse) (by omega)
      · exact h.inside use huse r hr hregion
    · intro r hr c hc use huse hregion hoverlap
      rcases hold r hr with hid | hr
      · exact absurd (h.region_lt use huse) (by omega)
      · exact h.allows r hr c hc use huse hregion hoverlap
  | @drop A D B hregions hfinished =>
    have hsub : ∀ r ∈ A ++ B, r ∈ s.regions := by
      intro r hr
      rw [hregions]
      simp only [mem_append] at hr ⊢
      tauto
    exact ⟨h.time_lt, h.region_lt, fun use huse r hr => h.inside use huse r (hsub r hr),
      fun r hr c hc use huse hregion hoverlap =>
        (h.allows r (hsub r hr) c hc use huse hregion hoverlap).mono (List.Subset.refl _)
          fun l hl _ _ => (mem_filter.mp hl).1⟩

end

/-! ## Several moves -/

open Relation

/-- The state with the cells of one region replaced. -/
def State.setCells (s : State σ) (A : List (Region σ)) (g : Region σ) (B : List (Region σ))
    (cells : List (Cell σ)) : State σ :=
  { s with regions := A ++ { g with cells := cells } :: B }

/-- The allocator makes any number of moves. -/
abbrev Moves (unit : ℕ) (own fits : Prop) : State σ → State σ → Prop :=
  ReflTransGen (Move unit own fits)

section

variable {unit : ℕ} {own fits : Prop} {s s' : State σ}

theorem Moves.sound (h : Moves unit own fits s s') (hs : Sound unit s) : Sound unit s' := by
  induction h with
  | refl => exact hs
  | tail _ hmove ih => exact hmove.sound ih

theorem Moves.ordered (h : Moves unit own fits s s') (hown : own) (hs : Sound unit s)
    (ho : Ordered s) : Ordered s' := by
  induction h with
  | refl => exact ho
  | tail hmoves hmove ih => exact hmove.ordered hown (Moves.sound hmoves hs) ih

theorem Moves.sized (h : Moves unit own fits s s') (hfits : fits) (hs : Sized unit s) :
    Sized unit s' := by
  induction h with
  | refl => exact hs
  | tail _ hmove ih => exact hmove.sized hfits ih

/-- Uses are never forgotten, and what has been seen or given away stays so. -/
theorem Move.grows (h : Move unit own fits s s') :
    s.uses <:+ s'.uses ∧ s.seen ⊆ s'.seen ∧ s.fresh ≤ s'.fresh := by
  cases h <;> simp_all

theorem Moves.grows (h : Moves unit own fits s s') :
    s.uses <:+ s'.uses ∧ s.seen ⊆ s'.seen ∧ s.fresh ≤ s'.fresh := by
  induction h with
  | refl => exact ⟨suffix_rfl, List.Subset.refl _, le_rfl⟩
  | tail _ hmove ih =>
    obtain ⟨huses, hseen, hfresh⟩ := hmove.grows
    exact ⟨ih.1.trans huses, List.Subset.trans ih.2.1 hseen, ih.2.2.trans hfresh⟩

/-- A cell keeps its place and its size, or nothing that was ever done to its memory is
unfinished. -/
def Kept (s s' : State σ) : Prop :=
  ∀ g ∈ s.regions, ∀ c ∈ g.cells,
    (∃ g' ∈ s'.regions, g'.id = g.id ∧
      ∃ c' ∈ g'.cells, c'.id = c.id ∧ c'.offset = c.offset ∧ c'.size = c.size) ∨
    ∀ use ∈ s'.uses, use.region = g.id → use.Overlaps c → Finished s'.seen use.record

variable {A B : List (Region σ)} {g g' : Region σ}

/-- One region is replaced. -/
theorem kept_update (hregions : s.regions = A ++ g :: B) (hregions' : s'.regions = A ++ g' :: B)
    (hid : g'.id = g.id) (hcells : ∀ c ∈ g.cells, (∃ c' ∈ g'.cells, c'.id = c.id ∧ c'.offset =
      c.offset ∧ c'.size = c.size) ∨ ∀ use ∈ s'.uses, use.region = g.id → use.Overlaps c →
      Finished s'.seen use.record) : Kept s s' := by
  intro r hr c hc
  rw [hregions, mem_middle] at hr
  rw [hregions']
  rcases hr with rfl | hr
  · exact (hcells c hc).imp_left fun hkept => ⟨g', mem_append_cons_self, hid, hkept⟩
  · exact .inl ⟨r, mem_middle.mpr (.inr hr), rfl, c, hc, rfl, rfl, rfl⟩

/-- Idle cells are recut. -/
theorem kept_recut {X part part' Y : List (Cell σ)} (ho : Ordered s)
    (hregions : s.regions = A ++ g :: B) (hcells : g.cells = X ++ (part ++ Y))
    (hrecut : Recut s part part' fresh) :
    Kept s { s with
      regions := A ++ { g with cells := X ++ (part' ++ Y) } :: B, fresh := fresh } := by
  have hg := mem_of_split hregions
  refine kept_update hregions (by rfl) (by rfl) fun e he => ?_
  by_cases hmem : e ∈ part
  · exact .inr fun use huse hregion hoverlap =>
      (ho.allows g hg e he use huse hregion hoverlap).finished (hrecut.idle e hmem)
  · exact .inl ⟨e, mem_replace (hcells ▸ he) hmem, rfl, rfl, rfl⟩

/-- The status of one cell changes. -/
theorem kept_status {X Y : List (Cell σ)} (hregions : s.regions = A ++ g :: B)
    (hcells : g.cells = X ++ c :: Y)
    (hregions' : s'.regions = A ++ { g with cells := X ++ { c with status := status } :: Y } :: B) :
    Kept s s' := by
  refine kept_update hregions hregions' rfl fun d hd => .inl ?_
  rw [hcells, mem_middle] at hd
  rcases hd with rfl | hd
  · exact ⟨{ d with status := status }, mem_append_cons_self, rfl, rfl, rfl⟩
  · exact ⟨d, mem_middle.mpr (.inr hd), rfl, rfl, rfl⟩

theorem Move.kept (ho : Ordered s) (hmove : Move unit own fits s s') : Kept s s' := by
  cases hmove with
  | advance hseen hfresh => exact fun g hg c hc => .inl ⟨g, hg, rfl, c, hc, rfl, rfl, rfl⟩
  | settle hregions hcells hstatus hseen =>
    exact kept_recut ho hregions hcells (.settle hstatus hseen)
  | lease hregions hcells _ _ _ => exact kept_status hregions hcells rfl
  | giveBack hregions hcells _ _ _ _ => exact kept_status hregions hcells rfl
  | merge hregions hcells hc hd => exact kept_recut ho hregions hcells (.merge hc hd)
  | split hregions hcells hstatus hunit hpos hlt =>
    exact kept_recut ho hregions hcells (.split hstatus hlt)
  | @reset A B g base size hregions hfree hsize hapart =>
    have hg := mem_of_split hregions
    exact kept_update hregions (by rfl) (by rfl) fun e he => .inr fun use huse hregion hoverlap =>
      (ho.allows g hg e he use huse hregion hoverlap).finished (.inl (hfree e he))
  | @create A B base size hregions hsize hapart =>
    intro g hg c hc
    exact .inl ⟨g, mem_middle.mpr (.inr (hregions ▸ hg)), rfl, c, hc, rfl, rfl, rfl⟩
  | @drop A D B hregions hfinished =>
    intro g hg c hc
    rw [hregions] at hg
    by_cases hD : g ∈ D
    · exact .inr fun use huse hregion _ => hfinished g hD use huse hregion
    · refine .inl ⟨g, ?_, rfl, c, hc, rfl, rfl, rfl⟩
      simp only [mem_append] at hg ⊢
      tauto

/-- Along moves that give nothing back. -/
theorem Moves.kept (h : Moves unit own fits s s') (hown : own) (hs : Sound unit s) (ho : Ordered s)
    (huses : s'.uses = s.uses) : Kept s s' := by
  induction h with
  | refl => exact fun g hg c hc => .inl ⟨g, hg, rfl, c, hc, rfl, rfl, rfl⟩
  | @tail t u hmoves hmove ih =>
    obtain ⟨hbefore, -, -⟩ := Moves.grows hmoves
    obtain ⟨hafter, hseen, -⟩ := hmove.grows
    have ht : t.uses = s.uses :=
      (hbefore.eq_of_length_le (huses ▸ hafter.length_le)).symm
    have hlast := hmove.kept (Moves.ordered hmoves hown hs ho)
    intro g hg c hc
    rcases ih ht g hg c hc with ⟨g', hg', hgid, c', hc', hcid, hoffset, hsize⟩ | hfinished
    · rcases hlast g' hg' c' hc' with ⟨g'', hg'', hgid', c'', hc'', hcid', hoffset', hsize'⟩ | hfin
      · exact .inl ⟨g'', hg'', hgid'.trans hgid, c'', hc'', hcid'.trans hcid,
          hoffset'.trans hoffset, hsize'.trans hsize⟩
      · refine .inr fun use huse hregion hoverlap => hfin use huse (hregion.trans hgid.symm) ?_
        unfold Use.Overlaps at hoverlap ⊢
        rwa [hoffset, hsize]
    · refine .inr fun use huse hregion hoverlap => (hfinished use ?_ hregion hoverlap).mono hseen
      rwa [ht, ← huses]

def Region.Leased (g : Region σ) : Prop := ∃ c ∈ g.cells, c.status = .leased

/-- A region that was there before, in its place if one of its cells is leased. -/
def Region.Stays (s : State σ) (g' : Region σ) : Prop :=
  ∃ g ∈ s.regions, g.id = g'.id ∧ (g.Leased → g'.base = g.base ∧ g'.size = g.size ∧ g'.Leased)

theorem Region.stays_self (hg : g ∈ s.regions) : g.Stays s :=
  ⟨g, hg, rfl, fun h => ⟨rfl, rfl, h⟩⟩

variable {r : Region σ}

theorem stays_update (hregions : s.regions = A ++ g :: B) (hr : r ∈ A ++ g' :: B)
    (hid : g'.id = g.id) (hleased : g.Leased → g'.base = g.base ∧ g'.size = g.size ∧ g'.Leased) :
    r.Stays s := by
  rcases mem_middle.mp hr with rfl | hr
  · exact ⟨g, mem_of_split hregions, hid.symm, hleased⟩
  · exact stays_self (hregions ▸ mem_middle.mpr (.inr hr))

theorem stays_recut {X part part' Y : List (Cell σ)} (hregions : s.regions = A ++ g :: B)
    (hcells : g.cells = X ++ (part ++ Y)) (hrecut : Recut s part part' fresh)
    (hr : r ∈ A ++ { g with cells := X ++ (part' ++ Y) } :: B) : r.Stays s := by
  refine stays_update hregions hr (by rfl) fun ⟨c, hc, hleased⟩ => ⟨rfl, rfl, c, ?_, hleased⟩
  exact mem_replace (hcells ▸ hc) fun hmem => hrecut.not_leased hmem hleased

theorem Move.stays (hmove : Move unit own fits s s') (huses : s'.uses = s.uses)
    (hr : r ∈ s'.regions) : s.fresh ≤ r.id ∨ r.Stays s := by
  cases hmove with
  | advance hseen hfresh => exact .inr (stays_self hr)
  | settle hregions hcells hstatus hseen =>
    exact .inr (stays_recut hregions hcells (.settle hstatus hseen) hr)
  | merge hregions hcells hc hd => exact .inr (stays_recut hregions hcells (.merge hc hd) hr)
  | split hregions hcells hstatus hunit hpos hlt =>
    exact .inr (stays_recut hregions hcells (.split hstatus hlt) hr)
  | @lease A B g X Y c requested stream hregions hcells hstatus hunit hrequested =>
    refine .inr (stays_update hregions hr (by rfl) fun _ => ⟨rfl, rfl, ?_⟩)
    exact ⟨_, mem_append_right _ mem_cons_self, rfl⟩
  | giveBack => exact absurd huses (cons_ne_self _ _)
  | @reset A B g base size hregions hfree hsize hapart =>
    refine .inr (stays_update hregions hr (by rfl) fun h => ?_)
    obtain ⟨c, hc, hleased⟩ := h
    rw [hfree c hc] at hleased
    cases hleased
  | @create A B base size hregions hsize hapart =>
    rcases mem_middle.mp hr with rfl | hr
    · exact .inl le_rfl
    · exact .inr (stays_self (hregions ▸ hr))
  | @drop A D B hregions hfinished =>
    refine .inr (stays_self ?_)
    rw [hregions]
    simp only [mem_append] at hr ⊢
    tauto

/-- Along moves that give nothing back no region with a leased cell is moved or grown. -/
theorem Moves.stays (h : Moves unit own fits s s') (huses : s'.uses = s.uses)
    (hr : r ∈ s'.regions) :
    s.fresh ≤ r.id ∨ r.Stays s := by
  induction h generalizing r with
  | refl => exact .inr (stays_self hr)
  | @tail t u hmoves hmove ih =>
    obtain ⟨hbefore, -, hfresh⟩ := Moves.grows hmoves
    obtain ⟨hafter, -, -⟩ := hmove.grows
    have ht : t.uses = s.uses :=
      (hbefore.eq_of_length_le (huses ▸ hafter.length_le)).symm
    rcases hmove.stays (huses.trans ht.symm) hr with hlt | ⟨g, hg, hid, hleased⟩
    · exact .inl (hfresh.trans hlt)
    · rcases ih ht hg with hlt | ⟨g₀, hg₀, hid₀, hleased₀⟩
      · exact .inl (hid ▸ hlt)
      · refine .inr ⟨g₀, hg₀, hid₀.trans hid, fun h => ?_⟩
        obtain ⟨hbase₀, hsize₀, hg⟩ := hleased₀ h
        obtain ⟨hbase, hsize, hr⟩ := hleased hg
        exact ⟨hbase.trans hbase₀, hsize.trans hsize₀, hr⟩

end

end Leasing
