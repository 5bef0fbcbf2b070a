import Coccl.Basic
import Coccl.Foundations.Leasing.Ordered

/-!
# Slices of a block

The legacy and the VMM pool cut their blocks into slices in the same way, so there is one model for
both. A slice is named by the number of its list node; no node is freed while a handle points to it.
Event queries are answered from outside (`Queries`). Every function is a sequence of moves of the
abstract allocator.
-/

namespace Coccl

open Leasing List

def kBufferAlignment : ℕ := 256

/-- Sizes are rounded up in `size_t`; the sum may wrap. -/
def alignUpTo (value alignment : ℕ) : ℕ := sizeAdd value (alignment - 1) / alignment * alignment

def alignUp (value : ℕ) : ℕ := alignUpTo value kBufferAlignment

/-- The sum does not wrap. With an alignment of `0` the subtraction already does. -/
def RoundingFits (value alignment : ℕ) : Prop :=
  0 < alignment ∧ value + (alignment - 1) ≤ sizeMax

instance (value alignment : ℕ) : Decidable (RoundingFits value alignment) := by
  unfold RoundingFits
  infer_instance

theorem dvd_alignUpTo (value alignment : ℕ) : alignment ∣ alignUpTo value alignment :=
  dvd_mul_left _ _

theorem alignUpTo_le_sizeMax (value alignment : ℕ) : alignUpTo value alignment ≤ sizeMax :=
  (Nat.div_mul_le_self _ _).trans (Nat.lt_succ_iff.mp (Nat.mod_lt _ (Nat.succ_pos _)))

theorem le_alignUpTo {value alignment : ℕ} (h : RoundingFits value alignment) :
    value ≤ alignUpTo value alignment := by
  have hsum : sizeAdd value (alignment - 1) = value + (alignment - 1) :=
    Nat.mod_eq_of_lt (Nat.lt_succ_of_le h.2)
  have hdiv := Nat.div_add_mod (value + (alignment - 1)) alignment
  have hmod := Nat.mod_lt (value + (alignment - 1)) h.1
  rw [alignUpTo, hsum, mul_comm]
  omega

/-! ## Slices -/

inductive SliceState where
  | free
  | inUse
  | pending
  deriving DecidableEq, Repr

/-- A slice's event: none yet, or one created and recorded or not. -/
inductive DoneEvent where
  | null
  | created
  | recorded (record : Record ℕ)
  deriving DecidableEq, Repr

/-- The record an event was last given. -/
def DoneEvent.records : DoneEvent → List (Record ℕ)
  | .recorded record => [record]
  | _ => []

/-- A slice is pending from the record of its event on a stream. Stream `0` is the null stream. -/
structure BufferSlice where
  id : ℕ
  offset : ℕ
  bytes : ℕ
  state : SliceState
  doneEvent : DoneEvent
  pendingStream : ℕ
  pending_recorded : state = .pending → ∃ time, doneEvent = .recorded ⟨pendingStream, time⟩
  deriving DecidableEq

namespace BufferSlice

/-- The first slice of a new range. -/
def initial (id offset bytes : ℕ) : BufferSlice where
  id := id
  offset := offset
  bytes := bytes
  state := .free
  doneEvent := .null
  pendingStream := 0
  pending_recorded := nofun

variable (slice : BufferSlice)

/-- The slice's event was seen complete. -/
def settle : BufferSlice where
  id := slice.id
  offset := slice.offset
  bytes := slice.bytes
  state := .free
  doneEvent := slice.doneEvent
  pendingStream := 0
  pending_recorded := nofun

/-- The slice is handed out. -/
def take : BufferSlice where
  id := slice.id
  offset := slice.offset
  bytes := slice.bytes
  state := .inUse
  doneEvent := slice.doneEvent
  pendingStream := 0
  pending_recorded := nofun

/-- A slice handed out is taken back. -/
def rollback : BufferSlice where
  id := slice.id
  offset := slice.offset
  bytes := slice.bytes
  state := .free
  doneEvent := slice.doneEvent
  pendingStream := slice.pendingStream
  pending_recorded := nofun

/-- The slice's event is recorded and the slice given back. -/
def release (record : Record ℕ) : BufferSlice where
  id := slice.id
  offset := slice.offset
  bytes := slice.bytes
  state := .pending
  doneEvent := .recorded record
  pendingStream := record.stream
  pending_recorded := fun _ => ⟨record.time, rfl⟩

def setBytes (bytes : ℕ) : BufferSlice := { slice with bytes := bytes }

/-- The slice's event is created if there is none. -/
def createEvent : BufferSlice :=
  if h : slice.doneEvent = .null then
    { slice with
      doneEvent := .created
      pending_recorded := fun hstate => by
        obtain ⟨time, hrecorded⟩ := slice.pending_recorded hstate
        rw [h] at hrecorded
        cases hrecorded }
  else slice

def status : Status ℕ :=
  match slice.state, slice.doneEvent with
  | .free, _ => .free
  | .inUse, _ => .leased
  | .pending, .recorded record => .pending record
  | .pending, _ => .free

/-- The cell of the abstract allocator. -/
def cell : Cell ℕ := ⟨slice.id, slice.offset, slice.bytes, slice.status⟩

variable {slice}

theorem status_free (h : slice.state = .free) : slice.status = .free := by
  unfold status
  rw [h]

theorem status_inUse (h : slice.state = .inUse) : slice.status = .leased := by
  unfold status
  rw [h]

theorem status_pending (h : slice.state = .pending) :
    ∃ time, slice.doneEvent = .recorded ⟨slice.pendingStream, time⟩ ∧
      slice.status = .pending ⟨slice.pendingStream, time⟩ := by
  obtain ⟨time, htime⟩ := slice.pending_recorded h
  refine ⟨time, htime, ?_⟩
  unfold status
  rw [h, htime]

end BufferSlice

open BufferSlice

/-! ## Queries -/

/-- The answers the event queries will get, and the records seen complete. -/
structure Queries where
  answers : List Bool
  seen : List (Record ℕ)

def cudaEventQuery (event : DoneEvent) (queries : Queries) : Bool × Queries :=
  match queries.answers with
  | true :: answers => (true, ⟨answers, event.records ++ queries.seen⟩)
  | false :: answers => (false, ⟨answers, queries.seen⟩)
  | [] => (false, queries)

def reusable (slice : BufferSlice) (queries : Queries) : Bool × BufferSlice × Queries :=
  match slice.state with
  | .free => (true, slice, queries)
  | .inUse => (false, slice, queries)
  | .pending =>
    match cudaEventQuery slice.doneEvent queries with
    | (true, queries) => (true, slice.settle, queries)
    | (false, queries) => (false, slice, queries)

def reusableOnStream (slice : BufferSlice) (stream : ℕ) (allowPendingReuse : Bool)
    (queries : Queries) : Bool × BufferSlice × Queries :=
  if allowPendingReuse ∧ slice.state = .pending ∧ slice.pendingStream = stream then
    (true, slice, queries)
  else reusable slice queries

/-! ## Merging and choosing -/

/-- The loop of `mergeFreeSlices`, at the slice `current`. The last slice is not looked at. -/
def mergeFrom (current : BufferSlice) :
    List BufferSlice → Queries → List BufferSlice × Queries
  | [], queries => ([current], queries)
  | next :: rest, queries =>
    match reusable current queries with
    | (false, current, queries) =>
      match mergeFrom next rest queries with
      | (slices, queries) => (current :: slices, queries)
    | (true, current, queries) =>
      match reusable next queries with
      | (nextFree, next, queries) =>
        if nextFree ∧ current.offset + current.bytes = next.offset then
          mergeFrom (current.setBytes (current.bytes + next.bytes)) rest queries
        else
          match mergeFrom next rest queries with
          | (slices, queries) => (current :: slices, queries)

def mergeFreeSlices : List BufferSlice → Queries → List BufferSlice × Queries
  | [], queries => ([], queries)
  | current :: rest, queries => mergeFrom current rest queries

/-- The loop of `acquireFromBlock` up to the slice it takes: the slices before it, then that slice,
cut to the size where it is free and larger, and those after it. -/
def chooseSlice (bytes stream : ℕ) (allowPendingReuse : Bool) (fresh : ℕ) :
    List BufferSlice → Queries →
      List BufferSlice × Option (BufferSlice × List BufferSlice) × Queries
  | [], queries => ([], none, queries)
  | slice :: rest, queries =>
    match reusableOnStream slice stream allowPendingReuse queries with
    | (ok, slice, queries) =>
      if ok ∧ bytes ≤ slice.bytes then
        if bytes < slice.bytes ∧ slice.state ≠ .pending then
          ([], some (slice.setBytes bytes,
            .initial fresh (slice.offset + bytes) (slice.bytes - bytes) :: rest), queries)
        else ([], some (slice, rest), queries)
      else
        match chooseSlice bytes stream allowPendingReuse fresh rest queries with
        | (before, found, queries) => (slice :: before, found, queries)

/-! ## As moves -/

section

variable {own fits : Prop} {state : State ℕ} {A B : List (Region ℕ)} {g : Region ℕ}

theorem cudaEventQuery_spec (event : DoneEvent) (queries : Queries) :
    queries.seen ⊆ (cudaEventQuery event queries).2.seen ∧
      ((cudaEventQuery event queries).1 = true →
        event.records ⊆ (cudaEventQuery event queries).2.seen) := by
  unfold cudaEventQuery
  split
  · exact ⟨subset_append_right _ _, fun _ => subset_append_left _ _⟩
  · exact ⟨List.Subset.refl _, nofun⟩
  · exact ⟨List.Subset.refl _, nofun⟩

/-- A slice is left as it is, or was pending and its record seen complete. -/
def LookedAt (slice : BufferSlice) (result : Bool × BufferSlice × Queries) : Prop :=
  result.2.1 = slice ∨ slice.state = .pending ∧ result.2.1 = slice.settle ∧
    slice.doneEvent.records ⊆ result.2.2.seen

theorem reusable_spec (slice : BufferSlice) (queries : Queries) :
    queries.seen ⊆ (reusable slice queries).2.2.seen ∧
    ((reusable slice queries).1 = true → (reusable slice queries).2.1.state = .free) ∧
    LookedAt slice (reusable slice queries) := by
  unfold reusable
  cases hstate : slice.state with
  | free => exact ⟨List.Subset.refl _, fun _ => hstate, .inl rfl⟩
  | inUse => exact ⟨List.Subset.refl _, nofun, .inl rfl⟩
  | pending =>
    obtain ⟨hseen, hdone⟩ := cudaEventQuery_spec slice.doneEvent queries
    simp only
    split
    · rename_i queries' hquery
      rw [hquery] at hseen hdone
      exact ⟨hseen, fun _ => rfl, .inr ⟨hstate, rfl, hdone rfl⟩⟩
    · rename_i queries' hquery
      rw [hquery] at hseen
      exact ⟨hseen, nofun, .inl rfl⟩

variable {slice : BufferSlice}

/-- A pending slice whose record has been seen complete becomes free. -/
theorem settle_moves (hstate : slice.state = .pending)
    (hseen : slice.doneEvent.records ⊆ state.seen) (X Y : List (Cell ℕ)) :
    Moves kBufferAlignment own fits (state.setCells A g B (X ++ slice.cell :: Y))
      (state.setCells A g B (X ++ slice.settle.cell :: Y)) := by
  obtain ⟨time, hevent, hstatus⟩ := status_pending hstate
  have hmem : (⟨slice.pendingStream, time⟩ : Record ℕ) ∈ state.seen :=
    hseen (by rw [hevent]; exact mem_singleton_self _)
  exact .single (@Move.settle _ _ own fits (state.setCells A g B (X ++ slice.cell :: Y)) A B
    { g with cells := X ++ slice.cell :: Y } X Y slice.cell _ rfl rfl hstatus hmem)

theorem LookedAt.moves {result : Bool × BufferSlice × Queries} (h : LookedAt slice result)
    (hseen : result.2.2.seen ⊆ state.seen) (X Y : List (Cell ℕ)) :
    Moves kBufferAlignment own fits (state.setCells A g B (X ++ slice.cell :: Y))
      (state.setCells A g B (X ++ result.2.1.cell :: Y)) := by
  rcases h with hsame | ⟨hstate, hsettle, hrecords⟩
  · rw [hsame]
  · rw [hsettle]
    exact settle_moves hstate (List.Subset.trans hrecords hseen) X Y

theorem mergeFrom_seen (current : BufferSlice) (rest : List BufferSlice) (queries : Queries) :
    queries.seen ⊆ (mergeFrom current rest queries).2.seen := by
  induction rest generalizing current queries with
  | nil => exact List.Subset.refl _
  | cons next rest ih =>
    have hcurrent := (reusable_spec current queries).1
    unfold mergeFrom
    rcases hreusable : reusable current queries with ⟨_ | _, current', queries'⟩ <;>
      rw [hreusable] at hcurrent
    · exact List.Subset.trans hcurrent (ih next queries')
    · have hnext := (reusable_spec next queries').1
      rcases hreusable' : reusable next queries' with ⟨nextFree, next', queries''⟩
      rw [hreusable'] at hnext
      simp only [hreusable']
      split
      · exact List.Subset.trans hcurrent (List.Subset.trans hnext (ih _ _))
      · exact List.Subset.trans hcurrent (List.Subset.trans hnext (ih _ _))

theorem mergeFrom_moves (current : BufferSlice) (rest : List BufferSlice) (queries : Queries)
    (X : List (Cell ℕ)) (hseen : (mergeFrom current rest queries).2.seen ⊆ state.seen) :
    Moves kBufferAlignment own fits
      (state.setCells A g B (X ++ (current :: rest).map cell))
      (state.setCells A g B (X ++ (mergeFrom current rest queries).1.map cell)) := by
  induction rest generalizing current queries X with
  | nil => exact .refl
  | cons next rest ih =>
    obtain ⟨-, hfree, hcurrent⟩ := reusable_spec current queries
    unfold mergeFrom at hseen ⊢
    rcases hreusable : reusable current queries with ⟨_ | _, current', queries'⟩ <;>
      rw [hreusable] at hcurrent hfree <;> simp only [hreusable] at hseen ⊢
    · have hlater := ih next queries' (X ++ [current'.cell]) hseen
      rw [append_assoc, append_assoc] at hlater
      exact (hcurrent.moves (List.Subset.trans (mergeFrom_seen _ _ _) hseen) X _).trans hlater
    · obtain ⟨hlooked, hnextFree, hnext⟩ := reusable_spec next queries'
      rcases hreusable' : reusable next queries' with ⟨nextFree, next', queries''⟩
      rw [hreusable'] at hlooked hnextFree hnext
      simp only [hreusable'] at hseen ⊢
      -- both slices are looked at, whatever comes after
      have hboth : queries''.seen ⊆ state.seen → Moves kBufferAlignment own fits
          (state.setCells A g B (X ++ (current :: next :: rest).map cell))
          (state.setCells A g B
            (X ++ current'.cell :: next'.cell :: rest.map cell)) := by
        intro hq
        have hsecond := @LookedAt.moves own fits _ A B g _ _ hnext hq (X ++ [current'.cell])
          (rest.map cell)
        rw [append_assoc, append_assoc] at hsecond
        exact (hcurrent.moves (List.Subset.trans hlooked hq) X _).trans hsecond
      split at hseen
      · rename_i hcond
        rw [if_pos hcond]
        refine ((hboth (List.Subset.trans (mergeFrom_seen _ _ _) hseen)).tail ?_).trans
          (ih _ queries'' X hseen)
        exact @Move.merge _ _ own fits (state.setCells A g B _) A B
          { g with cells := X ++ current'.cell :: next'.cell :: rest.map cell } X _
          current'.cell next'.cell rfl rfl (status_free (hfree rfl))
          (status_free (hnextFree hcond.1))
      · rename_i hcond
        rw [if_neg hcond]
        have hlater := ih next' queries'' (X ++ [current'.cell]) hseen
        rw [append_assoc, append_assoc] at hlater
        exact (hboth (List.Subset.trans (mergeFrom_seen _ _ _) hseen)).trans hlater

theorem mergeFreeSlices_seen (slices : List BufferSlice) (queries : Queries) :
    queries.seen ⊆ (mergeFreeSlices slices queries).2.seen := by
  cases slices with
  | nil => exact List.Subset.refl _
  | cons current rest => exact mergeFrom_seen current rest queries

theorem mergeFreeSlices_moves (slices : List BufferSlice) (queries : Queries)
    (hseen : (mergeFreeSlices slices queries).2.seen ⊆ state.seen) :
    Moves kBufferAlignment own fits (state.setCells A g B (slices.map cell))
      (state.setCells A g B ((mergeFreeSlices slices queries).1.map cell)) := by
  cases slices with
  | nil => exact .refl
  | cons current rest => exact mergeFrom_moves current rest queries [] hseen

theorem reusableOnStream_spec (slice : BufferSlice) (stream : ℕ) (allowPendingReuse : Bool)
    (queries : Queries) :
    let result := reusableOnStream slice stream allowPendingReuse queries
    queries.seen ⊆ result.2.2.seen ∧
    (result.1 = true → result.2.1.state = .free ∨ allowPendingReuse = true ∧
      result.2.1.state = .pending ∧ result.2.1.pendingStream = stream) ∧ LookedAt slice result := by
  unfold reusableOnStream
  split
  · rename_i hreuse
    exact ⟨List.Subset.refl _, fun _ => .inr hreuse, .inl rfl⟩
  · obtain ⟨hseen, hfree, hslice⟩ := reusable_spec slice queries
    exact ⟨hseen, fun h => .inl (hfree h), hslice⟩

theorem chooseSlice_seen (bytes stream : ℕ) (allowPendingReuse : Bool) (fresh : ℕ)
    (slices : List BufferSlice) (queries : Queries) :
    queries.seen ⊆ (chooseSlice bytes stream allowPendingReuse fresh slices queries).2.2.seen := by
  induction slices generalizing queries with
  | nil => exact List.Subset.refl _
  | cons slice rest ih =>
    have hslice := (reusableOnStream_spec slice stream allowPendingReuse queries).1
    unfold chooseSlice
    rcases hreusable : reusableOnStream slice stream allowPendingReuse queries with
      ⟨ok, slice', queries'⟩
    simp only [hreusable] at hslice ⊢
    split
    · split
      · exact hslice
      · exact hslice
    · exact List.Subset.trans hslice (ih queries')

/-- The slice that is chosen is free and of the size, or pending on the stream it is chosen for. -/
theorem chooseSlice_chosen {bytes stream : ℕ} {allowPendingReuse : Bool} {fresh : ℕ}
    {slices : List BufferSlice} {queries : Queries} {chosen : BufferSlice}
    {after : List BufferSlice}
    (h : (chooseSlice bytes stream allowPendingReuse fresh slices queries).2.1 =
      some (chosen, after)) :
    bytes ≤ chosen.bytes ∧ (chosen.state = .free ∧ chosen.bytes = bytes ∨
      allowPendingReuse = true ∧ chosen.state = .pending ∧ chosen.pendingStream = stream) := by
  induction slices generalizing queries with
  | nil => cases h
  | cons slice rest ih =>
    have hslice := (reusableOnStream_spec slice stream allowPendingReuse queries).2.1
    unfold chooseSlice at h
    rcases hreusable : reusableOnStream slice stream allowPendingReuse queries with
      ⟨ok, slice', queries'⟩
    simp only [hreusable] at hslice h
    split at h
    · rename_i hfits
      split at h
      · obtain ⟨rfl, -⟩ := Prod.mk.inj (Option.some.inj h)
        exact ⟨le_rfl, (hslice hfits.1).imp_left fun hfree => ⟨hfree, rfl⟩⟩
      · rename_i hsplit
        obtain ⟨rfl, -⟩ := Prod.mk.inj (Option.some.inj h)
        refine ⟨hfits.2, (hslice hfits.1).imp_left fun hfree => ⟨hfree, ?_⟩⟩
        rw [hfree] at hsplit
        simp only [ne_eq, reduceCtorEq, not_false_eq_true, and_true, not_lt] at hsplit
        exact hsplit.antisymm hfits.2
    · exact ih h

/-- The cells after the choice. -/
def chosenCells (result : List BufferSlice × Option (BufferSlice × List BufferSlice) × Queries) :
    List (Cell ℕ) :=
  result.1.map BufferSlice.cell ++
    match result.2.1 with
    | none => []
    | some (chosen, after) => chosen.cell :: after.map BufferSlice.cell

theorem chooseSlice_moves {bytes : ℕ} (hunit : kBufferAlignment ∣ bytes) (hpos : fits → 0 < bytes)
    (stream : ℕ) (allowPendingReuse : Bool) (slices : List BufferSlice) (queries : Queries)
    (X : List (Cell ℕ))
    (hseen : (chooseSlice bytes stream allowPendingReuse state.fresh slices queries).2.2.seen ⊆
      state.seen) :
    Moves kBufferAlignment own fits (state.setCells A g B (X ++ slices.map cell))
      { state.setCells A g B (X ++ chosenCells
          (chooseSlice bytes stream allowPendingReuse state.fresh slices queries)) with
        fresh := state.fresh + 1 } := by
  induction slices generalizing queries X with
  | nil => exact .single (Move.advance (List.Subset.refl _) (Nat.le_succ _))
  | cons slice rest ih =>
    obtain ⟨-, hspec, hslice⟩ := reusableOnStream_spec slice stream allowPendingReuse queries
    unfold chooseSlice at hseen ⊢
    rcases hreusable : reusableOnStream slice stream allowPendingReuse queries with
      ⟨ok, slice', queries'⟩
    simp only [hreusable] at hslice hspec hseen ⊢
    split at hseen
    · rename_i hfits
      rw [if_pos hfits]
      split at hseen
      · rename_i hsplit
        rw [if_pos hsplit]
        have hfree : slice'.state = .free := (hspec hfits.1).resolve_right fun h => hsplit.2 h.2.1
        refine (hslice.moves hseen X _).tail ?_
        exact @Move.split _ _ own fits (state.setCells A g B _) A B
          { g with cells := X ++ slice'.cell :: rest.map cell } X _ slice'.cell bytes
          rfl rfl (status_free hfree) hunit hpos hsplit.1
      · rename_i hsplit
        rw [if_neg hsplit]
        exact (hslice.moves hseen X _).tail (Move.advance (List.Subset.refl _) (Nat.le_succ _))
    · rename_i hfits
      rw [if_neg hfits]
      have hlater := ih queries' (X ++ [slice'.cell]) hseen
      rw [append_assoc, append_assoc] at hlater
      exact (hslice.moves (List.Subset.trans (chooseSlice_seen _ _ _ _ _ _) hseen) X _).trans hlater

end

end Coccl
