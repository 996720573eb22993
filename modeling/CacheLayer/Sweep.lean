import CacheLayer.Span
import CacheLayer.Store.Basic
/-!
# Sweeping in the background

A sweeper drops the expired entries of a store again and again, with a fixed pause between two
sweeps. Expired entries read as absent anyway; a sweep only frees their memory. Time is virtual: it
passes when the user of a store sleeps, and then every sweep that falls due happens on the way.
-/

namespace CacheLayer

/-- The shortest pause between sweeps. -/
def minPause : Nat := Span.millisecond

/-- A sweeper. -/
structure Sweeper where
  pause : Nat
  /-- The instant of the next sweep. -/
  due : Nat

namespace Sweeper

/-- A sweeper that starts now. -/
def start (interval now : Nat) : Sweeper :=
  let pause := max interval minPause
  ⟨pause, now + pause⟩

/-- A sweeper that has just swept. -/
def again (s : Sweeper) (now : Nat) : Sweeper := { s with due := now + s.pause }

end Sweeper

/-- A state with a clock and with sweepers. -/
structure Swept (σ : Type) where
  /-- The present instant. -/
  now : Nat
  state : σ
  sweepers : List Sweeper
  /-- The number of the sweeper that can still be stopped, if there is one. -/
  current? : Option Nat

namespace Swept

variable {σ : Type}

/-- The state at the beginning of time, without sweepers. -/
def start (s : σ) : Swept σ := ⟨0, s, [], none⟩

/-- The instant of the next sweep. -/
def nextDue (w : Swept σ) : Option Nat := (w.sweepers.map Sweeper.due).min?

/-- Starts a sweeper. Earlier ones go on. -/
def spawn (w : Swept σ) (interval : Nat) : Swept σ :=
  { w with
    sweepers := w.sweepers ++ [.start interval w.now]
    current? := some w.sweepers.length }

/-- Stops the sweeper that was started last, unless it has been stopped. -/
def stop (w : Swept σ) : Bool × Swept σ :=
  match w.current? with
  | some i => (true, { w with sweepers := w.sweepers.eraseIdx i, current? := none })
  | none => (false, w)

/-- Moves the clock; what falls due is not done yet. -/
def advance (w : Swept σ) (by_ : Nat) : Swept σ := { w with now := w.now + by_ }

/-- Does every sweep that is due, each of them once. -/
def fire (sweep : Nat → σ → σ) (w : Swept σ) : Swept σ :=
  w.sweepers.zipIdx.foldl
    (fun w p =>
      if p.1.due ≤ w.now then
        { w with
          state := sweep w.now w.state
          sweepers := w.sweepers.set p.2 (p.1.again w.now) }
      else w) w

/-- Moves the clock on to an instant and does every sweep on the way when it is due, with one unit
of fuel for each instant at which there is any. -/
def elapse (sweep : Nat → σ → σ) (target : Nat) : Nat → Swept σ → Swept σ
  | 0, w => { w with now := target }
  | fuel + 1, w =>
    match w.nextDue with
    | none => { w with now := target }
    | some due =>
      if target < due then { w with now := target }
      else elapse sweep target fuel (({ w with now := max w.now due }).fire sweep)

/-- Sleeps for a time. Between two sweeps of one sweeper there is at least a millisecond. -/
def sleep (sweep : Nat → σ → σ) (w : Swept σ) (span : Nat) : Swept σ :=
  w.elapse sweep (w.now + span) ((span / minPause + 2) * (w.sweepers.length + 1))

end Swept

end CacheLayer
