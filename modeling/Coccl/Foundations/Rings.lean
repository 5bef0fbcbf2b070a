import Mathlib.Tactic

/-!
# Parties in rings

Some parties are members of rings; a member sends to the next member of its ring and receives from
the one before. Every party finds its two peers on its own, from the tables of the rings
(`RingFamily`).
-/

namespace Rings

open Option

variable {ι γ : Type*}

/-- Every party sends to whom it is received by, and sends if it receives. -/
structure Matched (send recv : ι → Option ι) : Prop where
  iff : ∀ a b, send a = some b ↔ recv b = some a
  active : ∀ a, (send a).isSome = (recv a).isSome

/-- The party that `k` sends lead to. -/
def follow (send : ι → Option ι) : ℕ → ι → Option ι
  | 0, a => some a
  | k + 1, a => (follow send k a).bind send

namespace Matched

variable {send recv : ι → Option ι}

theorem existsUnique (h : Matched send recv) {a b : ι} (hsend : send a = some b) :
    ∃! c, recv c = some a := by
  refine ⟨b, (h.iff a b).mp hsend, fun c hc => ?_⟩
  have hsame := (h.iff a c).mpr hc
  rw [hsend] at hsame
  exact (some.inj hsame).symm

end Matched

/-- Rings by their name. A party without a ring is not active. -/
structure RingFamily (ι γ : Type*) where
  ring : ι → Option γ
  size : γ → ℕ
  position : ι → ℕ
  member : γ → ℕ → ι
  position_lt : ∀ {a c}, ring a = some c → position a < size c
  member_position : ∀ {a c}, ring a = some c → member c (position a) = a
  ring_member : ∀ {a c p}, ring a = some c → p < size c → ring (member c p) = some c
  position_member : ∀ {a c p}, ring a = some c → p < size c → position (member c p) = p

namespace RingFamily

variable (family : RingFamily ι γ)

/-- The next member. -/
def send (a : ι) : Option ι :=
  (family.ring a).map fun c => family.member c ((family.position a + 1) % family.size c)

/-- The member before. -/
def recv (a : ι) : Option ι :=
  (family.ring a).map fun c =>
    family.member c ((family.position a + family.size c - 1) % family.size c)

variable {family} {a : ι} {c : γ}

theorem send_eq (h : family.ring a = some c) :
    family.send a = some (family.member c ((family.position a + 1) % family.size c)) := by
  rw [send, h, map_some]

theorem recv_eq (h : family.ring a = some c) : family.recv a =
      some (family.member c ((family.position a + family.size c - 1) % family.size c)) := by
  rw [recv, h, map_some]

/-- One back and one forth. -/
theorem succ_pred_mod {p n : ℕ} (hp : p < n) : ((p + n - 1) % n + 1) % n = p := by
  rw [Nat.mod_add_mod, show p + n - 1 + 1 = p + n by omega, Nat.add_mod_right, Nat.mod_eq_of_lt hp]

/-- One forth and one back. -/
theorem pred_succ_mod {p n : ℕ} (hp : p < n) : ((p + 1) % n + n - 1) % n = p := by
  rw [Nat.add_sub_assoc (by omega), Nat.mod_add_mod, show p + 1 + (n - 1) = p + n by omega,
    Nat.add_mod_right, Nat.mod_eq_of_lt hp]

variable (family) in
/-- Both peers of a party, if it is active. -/
def peers (a : ι) : Option (ι × ι) :=
  (family.send a).bind fun next => (family.recv a).map (next, ·)

variable (family) in
theorem peers_fst (a : ι) : (family.peers a).map Prod.fst = family.send a := by
  rw [peers, send, recv]
  cases family.ring a <;> rfl

variable (family) in
theorem peers_snd (a : ι) : (family.peers a).map Prod.snd = family.recv a := by
  rw [peers, send, recv]
  cases family.ring a <;> rfl

variable (family) in
theorem matched : Matched family.send family.recv := by
  refine ⟨fun a b => ⟨fun h => ?_, fun h => ?_⟩, fun a => ?_⟩
  · obtain ⟨c, hc, rfl⟩ := map_eq_some_iff.mp h
    have hpos := family.position_lt hc
    have hnext : (family.position a + 1) % family.size c < family.size c :=
      Nat.mod_lt _ (by omega)
    rw [recv_eq (family.ring_member hc hnext), family.position_member hc hnext,
      pred_succ_mod hpos, family.member_position hc]
  · obtain ⟨c, hc, rfl⟩ := map_eq_some_iff.mp h
    have hpos := family.position_lt hc
    have hprev : (family.position b + family.size c - 1) % family.size c < family.size c :=
      Nat.mod_lt _ (by omega)
    rw [send_eq (family.ring_member hc hprev), family.position_member hc hprev,
      succ_pred_mod hpos, family.member_position hc]
  · rw [send, recv, isSome_map, isSome_map]

/-- The member `k` positions on. -/
theorem follow_eq (h : family.ring a = some c) (k : ℕ) : follow family.send k a =
      some (family.member c ((family.position a + k) % family.size c)) := by
  have hpos := family.position_lt h
  induction k with
  | zero => rw [follow, add_zero, Nat.mod_eq_of_lt hpos, family.member_position h]
  | succ k ih =>
    have hlt : (family.position a + k) % family.size c < family.size c :=
      Nat.mod_lt _ (by omega)
    rw [follow, ih, bind_some, send_eq (family.ring_member h hlt),
      family.position_member h hlt, Nat.mod_add_mod, add_assoc]

/-- Once around the ring. -/
theorem follow_size (h : family.ring a = some c) :
    0 < family.size c ∧ follow family.send (family.size c) a = some a := by
  have hpos := family.position_lt h
  refine ⟨by omega, ?_⟩
  rw [follow_eq h, Nat.add_mod_right, Nat.mod_eq_of_lt hpos, family.member_position h]

end RingFamily

end Rings
