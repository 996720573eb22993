/-!
# Entries

A stored value with the instant when it was written and the version of that write. Instants and ages
are nanoseconds. An entry is expired once its age has reached the time to live, so that a time to
live of zero makes every entry expire at once.
-/

namespace CacheLayer

/-- A stored value. -/
structure Entry (ν : Type) where
  value : ν
  /-- The instant when the value was written. -/
  written : Nat
  /-- The number of the write in its store. -/
  version : Nat
deriving DecidableEq

namespace Entry

variable {ν : Type}

/-- The time since the entry was written; zero for an instant before that. -/
def age (e : Entry ν) (now : Nat) : Nat := now - e.written

/-- Whether the entry is too old to be read. -/
def Expired (ttl now : Nat) (e : Entry ν) : Prop := ttl ≤ e.age now

instance (ttl now : Nat) (e : Entry ν) : Decidable (e.Expired ttl now) :=
  inferInstanceAs (Decidable (_ ≤ _))

end Entry

end CacheLayer
