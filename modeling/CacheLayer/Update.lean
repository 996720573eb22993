import CacheLayer.Error
/-!
# Optimistic updates

An update computes the next value of a key from its current one. Each attempt reads the key, asks
the mapper, and writes on condition that nobody wrote in between; a lost race leads to another
attempt while any are left. The two halves of an attempt are separate steps, and anything may happen
between them.
-/

namespace CacheLayer

/-- A mapper: the next value for the current one, or nothing to leave the key alone. -/
abbrev Mapper (ν : Type) := Option ν → Option ν

/-- The two halves of an attempt on a key of a cache with states `ω`. What was read is remembered by
a token of type `τ`. -/
structure Updater (ω τ ν : Type) where
  /-- Reads the current value. -/
  read : ω → Outcome (Option ν × τ) × ω
  /-- Writes on condition that the token is still right. The answer is the end of the update;
  without one the race is lost. -/
  write : τ → ν → ω → Outcome (Option Bool) × ω

/-- Where an update stands. -/
inductive Update (τ ν : Type) where
  /-- The next attempt reads. -/
  | toRead (left : Nat)
  /-- The mapper has answered with a value to be written. -/
  | toWrite (left : Nat) (token : τ) (value : ν)
  | done (answer : Outcome Bool)

namespace Update

variable {ω τ ν : Type}

/-- The update after a read, with the given number of attempts left. -/
def afterRead (f : Mapper ν) (left : Nat) : Outcome (Option ν × τ) → Update τ ν
  | .error e => .done (.error e)
  | .ok (current, token) =>
    match f current with
    | none => .done (.ok false)
    | some v => .toWrite left token v

/-- The update after a write. -/
def afterWrite (left : Nat) : Outcome (Option Bool) → Update τ ν
  | .error e => .done (.error e)
  | .ok (some answer) => .done (.ok answer)
  | .ok none => .toRead left

/-- One step of an update. -/
def step (u : Updater ω τ ν) (f : Mapper ν) : Update τ ν → ω → Update τ ν × ω
  | .toRead 0, w => (.done (.ok false), w)
  | .toRead (left + 1), w =>
    let (r, w) := u.read w
    (afterRead f left r, w)
  | .toWrite left token v, w =>
    let (r, w) := u.write token v w
    (afterWrite left r, w)
  | .done answer, w => (.done answer, w)

end Update

/-- What the mapper was shown, for an answer of the reading half. -/
def shown {τ ν : Type} : Outcome (Option ν × τ) → List (Option ν)
  | .ok (current, _) => [current]
  | .error _ => []

/-- Carries out an update of at most `attempts` attempts. While the mapper is called for the `i`-th
time, `meanwhile i` happens. The answer comes with the values that the mapper was shown. -/
def Updater.run {ω τ ν : Type} (u : Updater ω τ ν) (f : Mapper ν) (meanwhile : Nat → ω → ω) :
    (attempts i : Nat) → ω → Outcome Bool × List (Option ν) × ω
  | 0, _, w => (.ok false, [], w)
  | attempts + 1, i, w =>
    let (r, w) := u.read w
    let seen := shown r
    let w := if seen.isEmpty then w else meanwhile i w
    match Update.afterRead f attempts r with
    | .toWrite _ token v =>
      match u.write token v w with
      | (.ok none, w) =>
        let (answer, more, w) := u.run f meanwhile attempts (i + 1) w
        (answer, seen ++ more, w)
      | (.ok (some answer), w) => (.ok answer, seen, w)
      | (.error e, w) => (.error e, seen, w)
    | .done answer => (answer, seen, w)
    | .toRead _ => (.ok false, seen, w)

end CacheLayer
