import CacheLayer.Scenario.World
/-!
# Time in a scenario

Time passes in jumps: all that can happen at an instant happens, and then the clock goes to the next
instant for which something is planned. Whoever waits, for an instant or for the answers of reads,
sees everything that falls due on the way.
-/

namespace CacheLayer.Scenario

/-- A read that is waited for: its caller and the answer, if it is there. -/
abbrev Awaited := Nat × Option Answer

namespace World

variable {ν : Type}

/-- Lets time pass until an instant, with one unit of fuel for each instant on the way. -/
def elapse (target : Nat) : Nat → World ν → World ν
  | 0, w => w.settle.onClock (·.moveTo target)
  | fuel + 1, w =>
    let w := w.settle
    match w.clock.nextDue with
    | none => w.onClock (·.moveTo target)
    | some due =>
      if target < due then w.onClock (·.moveTo target)
      else elapse target fuel (w.onClock Clock.fire)

/-- Enough fuel for the instants until `target`: what is planned already, and what is planned on the
way, which is a millisecond apart at least. -/
def timeFuel (w : World ν) (target : Nat) : Nat :=
  w.clock.timers.size + (target - w.now) / Span.millisecond + 2

/-- Lets time pass until an instant; everything that falls due until then has happened. -/
def elapseTo (w : World ν) (target : Nat) : World ν := elapse target (w.timeFuel target) w

/-- Lets everything happen that is due. -/
def catchUp (w : World ν) : World ν := w.elapseTo w.now

/-- Looks for the answers of reads that have none, one after another. -/
def lookAll : List Awaited → World ν → List Awaited × World ν
  | [], w => ([], w)
  | (caller, some a) :: reads, w =>
    let (reads, w) := lookAll reads w
    ((caller, some a) :: reads, w)
  | (caller, none) :: reads, w =>
    let (a?, w) := w.endRead caller
    let (reads, w) := lookAll reads w
    ((caller, a?) :: reads, w)

/-- Waits no longer: a read without an answer has taken too long. -/
def endWait : List Awaited → World ν → List Answer × World ν
  | [], w => ([], w)
  | (_, some a) :: reads, w =>
    let (answers, w) := endWait reads w
    (a :: answers, w)
  | (caller, none) :: reads, w =>
    let (answers, w) := endWait reads (w.modifyDelegate (·.leave caller))
    (.timeout :: answers, w)

/-- Waits for reads until all of them have answers, or until the deadline, with one unit of fuel for
each look. -/
def await (deadline : Nat) : Nat → List Awaited → World ν → List Answer × World ν
  | 0, reads, w => endWait reads w
  | fuel + 1, reads, w =>
    let (reads, w) := lookAll reads w.settle
    -- A read that ends may start a reload, which is ready then and goes first.
    if reads.all fun r => r.2.isSome then endWait reads w
    else if ¬ w.clock.ready.isEmpty then await deadline fuel reads w
    else
      let soon := w.clock.nextDue.any (· ≤ deadline)
      if soon then await deadline fuel reads (w.onClock Clock.fire)
      else endWait reads (w.onClock (·.moveTo deadline))

/-- Lets reads begin, one after another. -/
def beginAll : List (Read String) → World ν → List Awaited × World ν
  | [], w => ([], w)
  | r :: rs, w =>
    let (caller, w) := w.beginRead r
    let (reads, w) := beginAll rs w
    ((caller, none) :: reads, w)

/-- Reads: all reads begin before anything else happens, and then all of them are waited for. -/
def read (rs : List (Read String)) (w : World ν) : List Answer × World ν :=
  let (reads, w) := beginAll rs w
  let deadline := w.now + patience
  await deadline (w.timeFuel deadline + reads.length) reads w

end World

end CacheLayer.Scenario
