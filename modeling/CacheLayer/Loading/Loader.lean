import CacheLayer.Error
/-!
# Loaders

A loader is the source of values. It is asked for one key or for several, and a call of it can end
in more ways than with an answer: it may break off while it is being called, or later while its
answer is awaited. Every end is turned into an outcome, so that nobody who waits is left alone.
-/

namespace CacheLayer

/-- How a call of a loader ends. Where it breaks off, it may leave a message. -/
inductive LoadEnd (α : Type) where
  | answered (o : Outcome α)
  /-- The loader broke off while it was being called. -/
  | brokeAtCall (message? : Option String)
  /-- The loader broke off while its answer was awaited. -/
  | brokeLater (message? : Option String)

namespace LoadEnd

variable {α : Type}

/-- What a loader is reported to have said when it broke off. -/
def reason (message? : Option String) : String := message?.getD "loader panicked"

/-- The outcome of a call. -/
def outcome : LoadEnd α → Outcome α
  | answered o => o
  | brokeAtCall m => .error (.loader (reason m))
  | brokeLater m => .error (.contractViolation ("loader future panicked: " ++ reason m))

end LoadEnd

end CacheLayer
