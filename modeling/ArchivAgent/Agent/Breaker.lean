import Mathlib.Algebra.Order.Ring.Nat

/-!
# The circuit breaker

`src/breaker.rs`. Instants and durations are natural numbers, so subtraction is
`saturating_duration_since`. The count is a `u32`.
-/

namespace ArchivAgent

structure CircuitBreaker where
  threshold : Nat
  window : Nat
  cooldown : Nat
  deriving DecidableEq, Repr

namespace CircuitBreaker

structure Inner where
  windowStart : Nat
  faults : Nat := 0
  openedAt : Option Nat := none
  deriving DecidableEq, Repr

def new (threshold window cooldown : Nat) : CircuitBreaker := ⟨max threshold 1, window, cooldown⟩

/-- 5 faults in 10 s, open for 30 s; in nanoseconds. -/
def withDefaults : CircuitBreaker := new 5 (10 * 10 ^ 9) (30 * 10 ^ 9)

def allowAt (b : CircuitBreaker) (g : Inner) (now : Nat) : Bool × Inner :=
  match g.openedAt with
  | some opened =>
    if now - opened < b.cooldown then (false, g)
    else (true, { windowStart := now, faults := 0, openedAt := none })
  | none => (true, g)

def recordFaultAt (b : CircuitBreaker) (g : Inner) (now : Nat) : Bool × Inner :=
  let g := if b.window < now - g.windowStart then { g with windowStart := now, faults := 0 } else g
  let g := { g with faults := (g.faults + 1) % 2 ^ 32 }
  if b.threshold ≤ g.faults ∧ g.openedAt = none then (true, { g with openedAt := some now })
  else (false, g)

end CircuitBreaker

end ArchivAgent
