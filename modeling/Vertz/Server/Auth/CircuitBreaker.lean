import Mathlib.Algebra.Order.Ring.Unbundled.Rat

/-!
# `Vertz.Server.Auth.CircuitBreaker`: the circuit breaker of the cloud stores

`execute` awaits the wrapped function, so it is three definitions: what
runs before the function is called (`execute`), and what runs after it
resolved (`resolved`) or rejected (`rejected`). Other calls may start and
finish in between. `Date.now()` is an argument.
-/

namespace Vertz.Server.Auth

/-- `'closed' | 'open' | 'half-open'` -/
inductive BreakerState where
  | closed
  | opened
  | halfOpen
  deriving DecidableEq, Repr

structure CircuitBreakerOpenError where
  message : String := "Circuit breaker is open"
  deriving DecidableEq, Repr

structure CircuitBreakerOptions where
  failureThreshold : Option ℚ := none
  resetTimeout : Option ℚ := none
  deriving DecidableEq, Repr

structure CircuitBreaker where
  threshold : ℚ
  resetTimeout : ℚ
  state : BreakerState
  consecutiveFailures : ℕ
  openedAt : ℤ
  halfOpenProbeInFlight : Bool
  deriving DecidableEq, Repr

def createCircuitBreaker (options : CircuitBreakerOptions) : CircuitBreaker where
  threshold := options.failureThreshold.getD 5
  resetTimeout := options.resetTimeout.getD 10000
  state := .closed
  consecutiveFailures := 0
  openedAt := 0
  halfOpenProbeInFlight := false

namespace CircuitBreaker

/-- The reset timeout has elapsed. -/
def elapsed (breaker : CircuitBreaker) (now : ℤ) : Bool :=
  breaker.resetTimeout ≤ ((now - breaker.openedAt : ℤ) : ℚ)

def checkHalfOpenTransition (breaker : CircuitBreaker) (now : ℤ) : CircuitBreaker :=
  if breaker.state = .opened ∧ breaker.elapsed now then { breaker with state := .halfOpen }
  else breaker

/-- `execute` up to its call of the wrapped function; `.ok` when it is called. -/
def execute (breaker : CircuitBreaker) (now : ℤ) :
    CircuitBreaker × Except CircuitBreakerOpenError Unit :=
  let breaker := breaker.checkHalfOpenTransition now
  match breaker.state with
  | .opened => (breaker, .error {})
  | .halfOpen =>
    if breaker.halfOpenProbeInFlight then (breaker, .error {})
    else ({ breaker with halfOpenProbeInFlight := true }, .ok ())
  | .closed => (breaker, .ok ())

/-- `execute` after the wrapped function resolved. -/
def resolved (breaker : CircuitBreaker) : CircuitBreaker :=
  let breaker := { breaker with consecutiveFailures := 0 }
  if breaker.state = .halfOpen then
    { breaker with state := .closed, halfOpenProbeInFlight := false }
  else breaker

/-- `execute` after the wrapped function rejected. -/
def rejected (breaker : CircuitBreaker) (now : ℤ) : CircuitBreaker :=
  let breaker := { breaker with consecutiveFailures := breaker.consecutiveFailures + 1 }
  if breaker.state = .halfOpen then
    { breaker with state := .opened, openedAt := now, halfOpenProbeInFlight := false }
  else if breaker.threshold ≤ (breaker.consecutiveFailures : ℚ) then
    { breaker with state := .opened, openedAt := now }
  else breaker

/-- The breaker after `getState`, which returns its state. -/
def getState (breaker : CircuitBreaker) (now : ℤ) : CircuitBreaker :=
  breaker.checkHalfOpenTransition now

def reset (breaker : CircuitBreaker) : CircuitBreaker :=
  { breaker with
    state := .closed, consecutiveFailures := 0, openedAt := 0, halfOpenProbeInFlight := false }

end CircuitBreaker

end Vertz.Server.Auth
