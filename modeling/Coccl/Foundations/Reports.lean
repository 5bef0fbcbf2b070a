import Mathlib.Tactic

/-!
# Readers with an optional message

A reader returns a value or fails. Some steps leave a message and go on, and a later step asks
whether there is one. A caller who gave no sink is always told that there is none, so the two kinds
of callers can get different answers: `Decides p typed ok v` says which.
-/

namespace Reports

/-- The place for a message, if the caller gave one. -/
abbrev Sink := Option String

/-- A computation that may fail and may write to the sink. -/
def Reader (α : Type) := Sink → Option α × Sink

variable {α β : Type}

instance : Monad Reader where
  pure a sink := (some a, sink)
  bind p f sink :=
    match p sink with
    | (some a, sink) => f a sink
    | (none, sink) => (none, sink)

variable {f : α → Reader β} {p : Reader α}

theorem bind_some {sink sink' : Sink} {a : α} (h : p sink = (some a, sink')) :
    (p >>= f) sink = f a sink' := by
  show (match p sink with | (some a, sink) => f a sink | (none, sink) => (none, sink)) = _
  rw [h]

theorem bind_none {sink : Sink} (h : (p sink).1 = none) : ((p >>= f) sink).1 = none := by
  have hp : p sink = (none, (p sink).2) := Prod.ext h rfl
  show (match p sink with | (some a, sink) => f a sink | (none, sink) => (none, sink)).1 = _
  rw [hp]

/-- Failing with a message. -/
def fail (message : String) : Reader α := fun sink => (none, sink.map fun _ => message)

/-- Failing without one. -/
def reject : Reader α := fun sink => (none, sink)

/-- Failing unless there is a value. -/
def orFail (found : Option α) (message : String) : Reader α :=
  match found with
  | none => fail message
  | some a => pure a

/-- Failing unless a condition holds. -/
def require (c : Prop) [Decidable c] (message : String) : Reader Unit :=
  if c then pure () else fail message

/-- Leaving a message and going on. -/
def report (message : String) : Reader Unit := fun sink => (some (), sink.map fun _ => message)

/-- Whether there is no message. -/
def unreported : Reader Bool := fun sink => (some (sink.all (· == "")), sink)

/-! ## Catching a message -/

/-- A message is left, but for a failure. -/
def Carries (p : Reader α) : Prop :=
  ∀ message, message ≠ "" → (p (some message)).1 = none ∨
    ∃ message', message' ≠ "" ∧ (p (some message)).2 = some message'

theorem Carries.pure (a : α) : Carries (pure a) :=
  fun message hmessage => .inr ⟨message, hmessage, rfl⟩

theorem Carries.require (c : Prop) [Decidable c] (message : String) :
    Carries (require c message) := by
  unfold Reports.require
  split
  · exact .pure ()
  · exact fun _ _ => .inl rfl

/-- Fails if there is a message. -/
def Catches (p : Reader α) : Prop :=
  ∀ message, message ≠ "" → (p (some message)).1 = none

namespace Catches

theorem bind (hp : Carries p) (hf : ∀ a, Catches (f a)) : Catches (p >>= f) := by
  intro message hmessage
  rcases hp message hmessage with hnone | ⟨message', hmessage', hsink⟩
  · exact bind_none hnone
  · rcases hresult : p (some message) with ⟨_ | a, sink⟩
    · exact bind_none (by rw [hresult])
    · rw [hresult] at hsink
      subst hsink
      rw [bind_some hresult]
      exact hf a message' hmessage'

theorem bind_left (hp : Catches p) : Catches (p >>= f) :=
  fun message hmessage => bind_none (hp message hmessage)

theorem unreported {f : Bool → Reader β} (hf : Catches (f false)) :
    Catches (unreported >>= f) := by
  intro message hmessage
  have hseen : Reports.unreported (some message) = (some false, some message) := by
    simp [Reports.unreported, hmessage]
  rw [bind_some hseen]
  exact hf message hmessage

theorem reject : Catches (reject : Reader α) :=
  fun _ _ => rfl

end Catches

/-! ## What a reader decides -/

/-- The answer to a caller without a sink and to one with an empty sink. -/
structure Decides (p : Reader α) (typed ok : Prop) (v : α) : Prop where
  quiet : ok → p none = (some v, none)
  quiet_fails : ¬ok → (p none).1 = none
  loud : ok → typed → p (some "") = (some v, some "")
  loud_fails : ¬(ok ∧ typed) → (p (some "")).1 = none

namespace Decides

variable {p : Reader α} {f : α → Reader β} {typed typed' ok ok' : Prop} {v : α} {w : β}

theorem pure (h : ok) : Decides (pure v : Reader α) True ok v :=
  ⟨fun _ => rfl, fun h' => absurd h h', fun _ _ => rfl, fun h' => absurd ⟨h, trivial⟩ h'⟩

theorem fail {message : String} (h : ¬ok) : Decides (Reports.fail message : Reader α) typed ok v :=
  ⟨fun h' => absurd h' h, fun _ => rfl, fun h' => absurd h' h, fun _ => rfl⟩

theorem orFail (found : Option α) (message : String) (default : α) :
    Decides (orFail found message) True (found.isSome = true) (found.getD default) := by
  cases found with
  | none => exact fail Bool.false_ne_true
  | some a => exact pure rfl

theorem require (c : Prop) [Decidable c] (message : String) :
    Decides (require c message) True c () := by
  unfold Reports.require
  split
  next h => exact pure h
  next h => exact fail h

theorem bind (hp : Decides p typed ok v) (hf : Decides (f v) typed' ok' w) :
    Decides (p >>= f) (typed ∧ typed') (ok ∧ ok') w where
  quiet h := (bind_some (hp.quiet h.1)).trans (hf.quiet h.2)
  quiet_fails h := by
    by_cases hok : ok
    · rw [bind_some (hp.quiet hok)]
      exact hf.quiet_fails fun hok' => h ⟨hok, hok'⟩
    · exact bind_none (hp.quiet_fails hok)
  loud h ht := (bind_some (hp.loud h.1 ht.1)).trans (hf.loud h.2 ht.2)
  loud_fails h := by
    by_cases hgood : ok ∧ typed
    · rw [bind_some (hp.loud hgood.1 hgood.2)]
      exact hf.loud_fails fun hgood' => h ⟨⟨hgood.1, hgood'.1⟩, hgood.2, hgood'.2⟩
    · exact bind_none (hp.loud_fails hgood)

theorem map (hp : Decides p typed ok v) (g : α → β) :
    Decides (p >>= fun a => Pure.pure (g a)) typed ok (g v) where
  quiet h := bind_some (hp.quiet h)
  quiet_fails h := bind_none (hp.quiet_fails h)
  loud h ht := bind_some (hp.loud h ht)
  loud_fails h := bind_none (hp.loud_fails h)

/-- Reporting and going on is wrong for who gave a sink, if what follows catches the message. -/
theorem report {q : Reader β} {message : String} (hmessage : message ≠ "")
    (hq : Decides q typed ok w) (hcatches : Catches q) :
    Decides (Reports.report message >>= fun _ => q) False ok w where
  quiet h := by
    rw [bind_some (show Reports.report message none = (some (), none) from rfl)]
    exact hq.quiet h
  quiet_fails h := by
    rw [bind_some (show Reports.report message none = (some (), none) from rfl)]
    exact hq.quiet_fails h
  loud _ h := h.elim
  loud_fails _ := by
    rw [bind_some (show Reports.report message (some "") = (some (), some message) from rfl)]
    exact hcatches message hmessage

/-- Without a message, asking for one changes nothing. -/
theorem unreported {f : Bool → Reader β} (hf : Decides (f true) typed ok w) :
    Decides (unreported >>= f) typed ok w where
  quiet h := (bind_some rfl).trans (hf.quiet h)
  quiet_fails h := by
    rw [bind_some (show Reports.unreported none = (some true, none) from rfl)]
    exact hf.quiet_fails h
  loud h ht := (bind_some rfl).trans (hf.loud h ht)
  loud_fails h := by
    rw [bind_some (show Reports.unreported (some "") = (some true, some "") from rfl)]
    exact hf.loud_fails h

theorem congr (h : Decides p typed ok v) (hok : ok ↔ ok') (htyped : ok → (typed ↔ typed'))
    {v' : α} (hv : ok → v = v') : Decides p typed' ok' v' where
  quiet h' := by
    rw [h.quiet (hok.mpr h'), hv (hok.mpr h')]
  quiet_fails h' := h.quiet_fails (mt hok.mp h')
  loud h' ht := by
    rw [h.loud (hok.mpr h') ((htyped (hok.mpr h')).mpr ht), hv (hok.mpr h')]
  loud_fails h' := h.loud_fails fun hgood =>
    h' ⟨hok.mp hgood.1, (htyped hgood.1).mp hgood.2⟩

end Decides

end Reports
