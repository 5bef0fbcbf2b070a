import Mathlib.Tactic

/-!
# Messages between parties

Parties post sends and receives of ranges of memory on channels. On every channel the first receive
gets the first send, the second receive the second (`transfers`). Posts match if every receive has a
send of its size and conversely (`Matches`); `deliver` is the memory of a receiver afterwards.
-/

namespace Messages

variable {χ β : Type*}

/-- A range of bytes. -/
structure Span where
  address : ℕ
  bytes : ℕ
  deriving DecidableEq

namespace Span

def Covers (r : Span) (x : ℕ) : Prop := r.address ≤ x ∧ x < r.address + r.bytes

instance (r : Span) (x : ℕ) : Decidable (r.Covers x) := inferInstanceAs (Decidable (_ ∧ _))

/-- No byte is in both ranges. -/
def Apart (r r' : Span) : Prop := ∀ x, r.Covers x → ¬ r'.Covers x

end Span

inductive Post (χ : Type*) where
  | send (channel : χ) (span : Span)
  | recv (channel : χ) (span : Span)

section

variable [DecidableEq χ]

/-- What is sent on a channel, in order. -/
def sends (posts : List (Post χ)) (channel : χ) : List Span :=
  posts.filterMap fun post => match post with
    | .send c span => if c = channel then some span else none
    | .recv _ _ => none

/-- Where the messages of a channel are received, in order. -/
def recvs (posts : List (Post χ)) (channel : χ) : List Span :=
  posts.filterMap fun post => match post with
    | .send _ _ => none
    | .recv c span => if c = channel then some span else none

theorem sends_append (posts posts' : List (Post χ)) (channel : χ) :
    sends (posts ++ posts') channel = sends posts channel ++ sends posts' channel :=
  List.filterMap_append

theorem recvs_append (posts posts' : List (Post χ)) (channel : χ) :
    recvs (posts ++ posts') channel = recvs posts channel ++ recvs posts' channel :=
  List.filterMap_append

/-- The messages of a channel: the receive and the send that meet. -/
def transfers (sender receiver : List (Post χ)) (channel : χ) : List (Span × Span) :=
  (recvs receiver channel).zip (sends sender channel)

/-- Sends and receives of a channel agree, one by one. -/
def Matches (sender receiver : List (Post χ)) (channel : χ) : Prop :=
  (sends sender channel).map Span.bytes = (recvs receiver channel).map Span.bytes

end

/-! ## Delivery -/

/-- A message on its way: the sender's memory, where it was read and where it goes. -/
structure Arrival (β : Type*) where
  source : ℕ → β
  sent : Span
  received : Span

/-- Memory after messages have arrived. -/
def deliver (memory : ℕ → β) (arrivals : List (Arrival β)) (x : ℕ) : β :=
  match arrivals.find? fun a => a.received.Covers x with
  | some a => a.source (a.sent.address + (x - a.received.address))
  | none => memory x

variable {arrivals : List (Arrival β)} {memory : ℕ → β}

theorem deliver_of_not_covered {x : ℕ} (h : ∀ a ∈ arrivals, ¬ a.received.Covers x) :
    deliver memory arrivals x = memory x := by
  have hnone : (arrivals.find? fun a => a.received.Covers x) = none :=
    List.find?_eq_none.mpr fun a ha => by simpa using h a ha
  rw [deliver, hnone]

/-- A byte that one message covers and no other. -/
theorem deliver_eq {a : Arrival β} {x : ℕ} (ha : a ∈ arrivals) (hx : a.received.Covers x)
    (hunique : ∀ a' ∈ arrivals, a'.received.Covers x → a' = a) :
    deliver memory arrivals x = a.source (a.sent.address + (x - a.received.address)) := by
  have hsome : (arrivals.find? fun a => a.received.Covers x) = some a := by
    cases hfind : arrivals.find? fun a => a.received.Covers x with
    | none =>
      have hnot := List.find?_eq_none.mp hfind a ha
      simp [hx] at hnot
    | some a' =>
      have hcovers : a'.received.Covers x := by simpa using List.find?_some hfind
      rw [hunique a' (List.mem_of_find?_eq_some hfind) hcovers]
  rw [deliver, hsome]

end Messages
