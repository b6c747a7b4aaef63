import CircuitTrace.Event

/-!
Computations that report events and may fail. A failure keeps the events met before it.
-/
namespace CircuitTrace

structure Logged (ε α : Type) where
  events : List Event
  outcome : Except ε α

namespace Logged

variable {ε δ α β : Type}

def ofExcept (outcome : Except ε α) : Logged ε α := ⟨[], outcome⟩

def emit (e : Event) : Logged ε Unit := ⟨[e], .ok ()⟩

def bind (x : Logged ε α) (f : α → Logged ε β) : Logged ε β :=
  match x.outcome with
  | .ok a => ⟨x.events ++ (f a).events, (f a).outcome⟩
  | .error e => ⟨x.events, .error e⟩

instance : Monad (Logged ε) where
  pure a := ofExcept (.ok a)
  bind := bind

instance : MonadLift (Except ε) (Logged ε) := ⟨ofExcept⟩

def mapError (f : ε → δ) (x : Logged ε α) : Logged δ α := ⟨x.events, x.outcome.mapError f⟩

@[simp] theorem outcome_pure (a : α) : (pure a : Logged ε α).outcome = .ok a := rfl

@[simp] theorem outcome_ofExcept (x : Except ε α) : (ofExcept x).outcome = x := rfl

@[simp] theorem outcome_emit (e : Event) : (emit e : Logged ε Unit).outcome = .ok () := rfl

/-- What a computation comes to does not depend on what it reports. -/
@[simp] theorem outcome_bind (x : Logged ε α) (f : α → Logged ε β) :
    (x >>= f).outcome = x.outcome.bind fun a => (f a).outcome := by
  change (bind x f).outcome = _
  cases h : x.outcome <;> simp [bind, h, Except.bind]

end Logged

end CircuitTrace
