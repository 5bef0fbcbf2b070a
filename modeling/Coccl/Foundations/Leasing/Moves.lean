import Mathlib.Data.List.Basic

/-!
# Leasing memory in stream order

Regions of memory are cut into cells. A cell is free, leased, or pending: given back on a stream
that may still be working on it. A pending cell becomes free once the record made then has been seen
complete, and may be leased before that to the same stream. `Move` are the moves of such an
allocator, with every past use of the memory written down.
-/

namespace Leasing

section

variable {α : Type*} {A B xs : List α} {a x : α}

theorem mem_of_split (h : xs = A ++ a :: B) : a ∈ xs := h ▸ List.mem_append_cons_self

theorem mem_middle : x ∈ A ++ a :: B ↔ x = a ∨ x ∈ A ++ B :=
  List.perm_middle.mem_iff.trans List.mem_cons

end

/-! ## States -/

/-- A point in the order of a stream's work. -/
structure Record (σ : Type*) where
  stream : σ
  time : ℕ
  deriving DecidableEq, Repr

inductive Status (σ : Type*) where
  | free
  | leased
  | pending (record : Record σ)
  deriving DecidableEq, Repr

structure Cell (σ : Type*) where
  id : ℕ
  offset : ℕ
  size : ℕ
  status : Status σ

structure Region (σ : Type*) where
  id : ℕ
  base : ℕ
  size : ℕ
  cells : List (Cell σ)

/-- A part of a region handed out to a stream. -/
structure Lease (σ : Type*) where
  region : ℕ
  cell : ℕ
  base : ℕ
  size : ℕ
  requested : ℕ
  stream : σ

/-- A part of a region that was given back, and the record made then. -/
structure Use (σ : Type*) where
  region : ℕ
  offset : ℕ
  size : ℕ
  record : Record σ

/-- `seen` are the records seen complete; identities below `fresh` and times below `clock` have been
given away. -/
structure State (σ : Type*) where
  regions : List (Region σ)
  leases : List (Lease σ)
  uses : List (Use σ)
  seen : List (Record σ)
  fresh : ℕ
  clock : ℕ

variable {σ : Type*}

/-- The record, or a later one of its stream, has been seen complete. -/
def Finished (seen : List (Record σ)) (record : Record σ) : Prop :=
  ∃ r ∈ seen, r.stream = record.stream ∧ record.time ≤ r.time

theorem Finished.mono {seen seen' : List (Record σ)} {record : Record σ}
    (h : Finished seen record) (hsub : seen ⊆ seen') : Finished seen' record := by
  obtain ⟨r, hr, hle⟩ := h
  exact ⟨r, hsub hr, hle⟩

/-- Some memory is in both. -/
def Use.Overlaps (use : Use σ) (c : Cell σ) : Prop :=
  ∃ x, (use.offset ≤ x ∧ x < use.offset + use.size) ∧ c.offset ≤ x ∧ x < c.offset + c.size

def Region.Apart (g h : Region σ) : Prop := g.base + g.size ≤ h.base ∨ h.base + h.size ≤ g.base

theorem Region.Apart.symm {g h : Region σ} (hgh : g.Apart h) : h.Apart g := Or.symm hgh

/-- A lease's cell. -/
structure Backs (g : Region σ) (c : Cell σ) (l : Lease σ) : Prop where
  region : g.id = l.region
  cell : c.id = l.cell
  status : c.status = .leased
  base : l.base = g.base + c.offset
  size : l.size = c.size

/-! ## Moves -/

/-- What the allocator may do; leased sizes are multiples of `unit`. With `own`, a lease is given
back on the stream it was made for. With `fits`, all sizes are multiples of `unit` and as large as
they have to be, and a range that regions are given is free. -/
inductive Move (unit : ℕ) (own fits : Prop) : State σ → State σ → Prop where
  | advance {s : State σ} {seen : List (Record σ)} {fresh : ℕ} (hseen : s.seen ⊆ seen)
      (hfresh : s.fresh ≤ fresh) : Move unit own fits s { s with seen := seen, fresh := fresh }
  | settle {s : State σ} {A B : List (Region σ)} {g : Region σ} {X Y : List (Cell σ)} {c : Cell σ}
      {r : Record σ} (hregions : s.regions = A ++ g :: B) (hcells : g.cells = X ++ c :: Y)
      (hstatus : c.status = .pending r) (hseen : r ∈ s.seen) :
      Move unit own fits s { s with
        regions := A ++ { g with cells := X ++ { c with status := .free } :: Y } :: B }
  | merge {s : State σ} {A B : List (Region σ)} {g : Region σ} {X Y : List (Cell σ)}
      {c d : Cell σ} (hregions : s.regions = A ++ g :: B) (hcells : g.cells = X ++ c :: d :: Y)
      (hc : c.status = .free) (hd : d.status = .free) :
      Move unit own fits s { s with
        regions := A ++ { g with cells := X ++ { c with size := c.size + d.size } :: Y } :: B }
  | split {s : State σ} {A B : List (Region σ)} {g : Region σ} {X Y : List (Cell σ)} {c : Cell σ}
      {n : ℕ} (hregions : s.regions = A ++ g :: B) (hcells : g.cells = X ++ c :: Y)
      (hstatus : c.status = .free) (hunit : unit ∣ n) (hpos : fits → 0 < n)
      (hlt : n < c.size) :
      Move unit own fits s { s with
        regions := A ++ { g with
          cells := X ++ { c with size := n } ::
            ⟨s.fresh, c.offset + n, c.size - n, .free⟩ :: Y } :: B
        fresh := s.fresh + 1 }
  | lease {s : State σ} {A B : List (Region σ)} {g : Region σ} {X Y : List (Cell σ)} {c : Cell σ}
      {requested : ℕ} {stream : σ} (hregions : s.regions = A ++ g :: B)
      (hcells : g.cells = X ++ c :: Y)
      (hstatus : c.status = .free ∨ ∃ r, c.status = .pending r ∧ r.stream = stream)
      (hunit : c.status = .free → unit ∣ c.size) (hrequested : fits → requested ≤ c.size) :
      Move unit own fits s { s with
        regions := A ++ { g with cells := X ++ { c with status := .leased } :: Y } :: B
        leases := ⟨g.id, c.id, g.base + c.offset, c.size, requested, stream⟩ :: s.leases }
  | giveBack {s : State σ} {A B : List (Region σ)} {g : Region σ} {X Y : List (Cell σ)}
      {c : Cell σ} {L M : List (Lease σ)} {l : Lease σ} {stream : σ}
      (hregions : s.regions = A ++ g :: B) (hcells : g.cells = X ++ c :: Y)
      (hleases : s.leases = L ++ l :: M) (hregion : g.id = l.region) (hcell : c.id = l.cell)
      (hstream : own → stream = l.stream) :
      Move unit own fits s { s with
        regions := A ++ { g with
          cells := X ++ { c with status := .pending ⟨stream, s.clock⟩ } :: Y } :: B
        leases := L ++ M
        uses := ⟨g.id, c.offset, c.size, ⟨stream, s.clock⟩⟩ :: s.uses
        clock := s.clock + 1 }
  | reset {s : State σ} {A B : List (Region σ)} {g : Region σ} {base size : ℕ}
      (hregions : s.regions = A ++ g :: B) (hfree : ∀ c ∈ g.cells, c.status = .free)
      (hsize : fits → 0 < size ∧ unit ∣ size)
      (hapart : fits → ∀ h ∈ A ++ B, base + size ≤ h.base ∨ h.base + h.size ≤ base) :
      Move unit own fits s { s with
        regions := A ++ { g with
          base := base, size := size, cells := [⟨s.fresh, 0, size, .free⟩] } :: B
        fresh := s.fresh + 1 }
  | create {s : State σ} {A B : List (Region σ)} {base size : ℕ} (hregions : s.regions = A ++ B)
      (hsize : fits → 0 < size ∧ unit ∣ size)
      (hapart : fits → ∀ h ∈ A ++ B, base + size ≤ h.base ∨ h.base + h.size ≤ base) :
      Move unit own fits s { s with
        regions := A ++ ⟨s.fresh, base, size, [⟨s.fresh + 1, 0, size, .free⟩]⟩ :: B
        fresh := s.fresh + 2 }
  | drop {s : State σ} {A D B : List (Region σ)} (hregions : s.regions = A ++ D ++ B)
      (hfinished : ∀ g ∈ D, ∀ use ∈ s.uses, use.region = g.id → Finished s.seen use.record) :
      Move unit own fits s { s with
        regions := A ++ B
        leases := s.leases.filter fun l => decide (l.region ∉ D.map Region.id) }

end Leasing
