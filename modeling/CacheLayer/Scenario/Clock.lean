import Std.Data.TreeMap
/-!
# Virtual clocks

A clock stands still while anything can happen at the present instant, and then jumps to the next
one for which something is planned. What is ready happens in the order in which it became ready.
-/

namespace CacheLayer.Scenario

/-- A clock with events of type `ε`. -/
structure Clock (ε : Type) where
  now : Nat := 0
  /-- What is planned for later instants. -/
  timers : Std.TreeMap Nat (List ε) := ∅
  /-- What is ready at the present instant. -/
  ready : List ε := []

namespace Clock

variable {ε : Type}

/-- Makes an event ready behind all others. -/
def push (c : Clock ε) (e : ε) : Clock ε := { c with ready := c.ready ++ [e] }

/-- Plans an event for an instant, or makes it ready if the instant has come. -/
def plan (c : Clock ε) (due : Nat) (e : ε) : Clock ε :=
  if due ≤ c.now then c.push e
  else { c with timers := c.timers.insert due (c.timers.getD due [] ++ [e]) }

/-- The next event that is ready. -/
def pop (c : Clock ε) : Option ε × Clock ε :=
  match c.ready with
  | [] => (none, c)
  | e :: rest => (some e, { c with ready := rest })

/-- The next instant for which something is planned. -/
def nextDue (c : Clock ε) : Option Nat := c.timers.minKey?

/-- Jumps to the next instant for which something is planned, or stays if that has passed, and makes
ready what is planned for it. -/
def fire (c : Clock ε) : Clock ε :=
  match c.timers.minEntry? with
  | none => c
  | some (due, events) =>
    { now := max c.now due, timers := c.timers.erase due, ready := c.ready ++ events }

/-- Moves on to an instant. What was planned on the way stays planned. -/
def moveTo (c : Clock ε) (instant : Nat) : Clock ε := { c with now := max c.now instant }

end Clock

end CacheLayer.Scenario
