import Mathlib.Tactic

/-!
# Ledgers

What was handed out and has to be given back exactly once. A ledger holds the entries that are out;
giving back what is not out goes astray.
-/

/-- The entries that are out, by key, and the keys given back that were not. -/
structure Ledger (κ ν : Type*) where
  live : List (κ × ν)
  stray : List κ

namespace Ledger

open List

variable {κ ν : Type*}

/-- Nothing was handed out. -/
def empty : Ledger κ ν := ⟨[], []⟩

variable (ledger : Ledger κ ν)

/-- A key that is out. -/
def Holds (k : κ) : Prop := k ∈ ledger.live.map Prod.fst

instance [DecidableEq κ] (k : κ) : Decidable (ledger.Holds k) :=
  inferInstanceAs (Decidable (k ∈ ledger.live.map Prod.fst))

/-- An entry is handed out. -/
def enter (k : κ) (v : ν) : Ledger κ ν := { ledger with live := (k, v) :: ledger.live }

/-- A key is given back. -/
def discharge [DecidableEq κ] (k : κ) : Ledger κ ν :=
  if ledger.Holds k then { ledger with live := ledger.live.filter (·.1 ≠ k) }
  else { ledger with stray := k :: ledger.stray }

/-- Keys are given back one after the other. -/
def dischargeAll [DecidableEq κ] (keys : List κ) : Ledger κ ν :=
  keys.foldl (fun l k => l.discharge k) ledger

/-- Nothing is out twice, and nothing went astray. -/
structure InOrder : Prop where
  distinct : (ledger.live.map Prod.fst).Nodup
  stray : ledger.stray = []

variable {ledger}

theorem inOrder_empty : (empty : Ledger κ ν).InOrder := ⟨.nil, rfl⟩

variable {x : κ × ν}

theorem holds_of_mem (h : x ∈ ledger.live) : ledger.Holds x.1 :=
  mem_map_of_mem h

variable {k : κ} {v : ν}

@[simp] theorem mem_enter : x ∈ (ledger.enter k v).live ↔ x = (k, v) ∨ x ∈ ledger.live := mem_cons

theorem InOrder.enter (h : ledger.InOrder) (hk : ¬ ledger.Holds k) :
    (ledger.enter k v).InOrder := ⟨nodup_cons.mpr ⟨hk, h.distinct⟩, h.stray⟩

variable [DecidableEq κ]

@[simp] theorem mem_discharge : x ∈ (ledger.discharge k).live ↔ x ∈ ledger.live ∧ x.1 ≠ k := by
  unfold discharge
  split
  · simp
  · rename_i hk
    exact ⟨fun hx => ⟨hx, fun heq => hk (heq ▸ holds_of_mem hx)⟩, fun hx => hx.1⟩

theorem holds_discharge {k' : κ} : (ledger.discharge k).Holds k' ↔ ledger.Holds k' ∧ k' ≠ k := by
  simp only [Holds, mem_map, mem_discharge]
  constructor
  · rintro ⟨x, ⟨hx, hne⟩, rfl⟩
    exact ⟨⟨x, hx, rfl⟩, hne⟩
  · rintro ⟨⟨x, hx, rfl⟩, hne⟩
    exact ⟨x, ⟨hx, hne⟩, rfl⟩

theorem mem_dischargeAll {keys : List κ} :
    x ∈ (ledger.dischargeAll keys).live ↔ x ∈ ledger.live ∧ x.1 ∉ keys := by
  induction keys generalizing ledger with
  | nil => simp [dischargeAll]
  | cons k rest ih =>
    rw [dischargeAll, foldl_cons, ← dischargeAll, ih, mem_discharge, mem_cons, not_or, and_assoc]

namespace InOrder

theorem discharge (h : ledger.InOrder) (hk : ledger.Holds k) : (ledger.discharge k).InOrder := by
  unfold Ledger.discharge
  rw [if_pos hk]
  exact ⟨h.distinct.sublist (filter_sublist.map _), h.stray⟩

/-- Distinct keys that are out can be given back. -/
theorem dischargeAll (h : ledger.InOrder) {keys : List κ} (hkeys : keys.Nodup)
    (hout : ∀ k ∈ keys, ledger.Holds k) : (ledger.dischargeAll keys).InOrder := by
  induction keys generalizing ledger with
  | nil => exact h
  | cons k rest ih =>
    obtain ⟨hk, hrest⟩ := nodup_cons.mp hkeys
    obtain ⟨hfirst, hlater⟩ := forall_mem_cons.mp hout
    refine ih (h.discharge hfirst) hrest fun k' hk' => ?_
    exact holds_discharge.mpr ⟨hlater k' hk', fun heq => hk (heq ▸ hk')⟩

end InOrder

end Ledger
