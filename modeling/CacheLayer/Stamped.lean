import CacheLayer.Span
/-!
# Stamped values

A value together with the time it was written, in milliseconds of the wall clock.
-/

namespace CacheLayer

/-- A value with its write time. -/
structure Stamped (ν : Type) where
  /-- The value. -/
  value : ν
  /-- Milliseconds of the wall clock at which it was written, at most 64 bits. -/
  writeTime : Nat
deriving DecidableEq

/-- What a wall clock shows that showed `epoch` at the first instant, at most 64 bits. -/
def wallClock (epoch now : Nat) : Nat := min (epoch + Span.toMillis now) (UInt64.size - 1)

namespace Stamped

/-- Stamps a value with the time of the wall clock. -/
def stamp {ν : Type} (epoch now : Nat) (v : ν) : Stamped ν := ⟨v, wallClock epoch now⟩

/-- Whether a value is at least `limit` milliseconds old at `now`. A stamp that lies in the future
has age zero. -/
def IsStale {ν : Type} (limit now : Nat) (s : Stamped ν) : Prop := limit ≤ now - s.writeTime

instance {ν : Type} (limit now : Nat) (s : Stamped ν) : Decidable (s.IsStale limit now) :=
  inferInstanceAs (Decidable (_ ≤ _))

end Stamped

end CacheLayer
