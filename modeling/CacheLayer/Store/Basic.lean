import CacheLayer.Store.Entry
import CacheLayer.Store.Recency
import CacheLayer.Store.Stats
/-!
# The store

A bounded map from keys to values whose entries expire. When a new key meets a full store, the key
used longest ago is evicted; writes and successful reads are uses. An expired entry reads as absent:
it is dropped when an operation that looks at its key meets it, or by a sweep. Every write gets a
version of its own, which a later write can ask for.

Every operation takes the instant at which it happens and answers with the store after it.
-/

namespace CacheLayer

/-- A bounded map whose entries expire. -/
structure Store (κ ν : Type) [BEq κ] [Hashable κ] where
  entries : Std.HashMap κ (Entry ν)
  recency : Recency κ
  /-- What has been counted; the number of entries is not kept here. -/
  counters : Stats
  /-- The most entries, at least one. -/
  capacity : Nat
  /-- The age at which an entry expires. -/
  ttl : Nat
  /-- The version of the next write. -/
  nextVersion : Nat

namespace Store

variable {κ ν : Type} [BEq κ] [Hashable κ]

/-- The empty store. A store for no entries holds one. -/
def ofLimits (maxEntries ttl : Nat) : Store κ ν where
  entries := ∅
  recency := {}
  counters := {}
  capacity := max 1 maxEntries
  ttl := ttl
  nextVersion := 1

/-- The number of entries, expired ones included. -/
def size (s : Store κ ν) : Nat := s.entries.size

/-- Whether there are no entries. -/
def isEmpty (s : Store κ ν) : Bool := s.entries.isEmpty

/-- The counters and the number of entries. -/
def stats (s : Store κ ν) : Stats := { s.counters with totalEntries := s.size }

/-- Drops the entry of a key. -/
def erase (s : Store κ ν) (k : κ) : Store κ ν :=
  { s with entries := s.entries.erase k, recency := s.recency.remove k }

/-- Counts entries that were too old. -/
def countExpired (s : Store κ ν) (n : Nat) : Store κ ν :=
  { s with counters := s.counters.addExpirations n }

/-- The live entry of a key. An expired one is dropped. -/
def peekEntry (s : Store κ ν) (now : Nat) (k : κ) : Option (Entry ν) × Store κ ν :=
  match s.entries[k]? with
  | none => (none, s)
  | some e => if e.Expired s.ttl now then (none, (s.erase k).countExpired 1) else (some e, s)

/-- The live value of a key. This is no use of the key. -/
def peek (s : Store κ ν) (now : Nat) (k : κ) : Option ν × Store κ ν :=
  let (e?, s) := s.peekEntry now k
  (e?.map Entry.value, s)

/-- The live value of a key and its version. -/
def peekVersioned (s : Store κ ν) (now : Nat) (k : κ) : Option (ν × Nat) × Store κ ν :=
  let (e?, s) := s.peekEntry now k
  (e?.map fun e => (e.value, e.version), s)

/-- The live value of a key, which is a use of the key if there is one. -/
def get (s : Store κ ν) (now : Nat) (k : κ) : Option ν × Store κ ν :=
  match s.peekEntry now k with
  | (some e, s) =>
    (some e.value, { s with counters := s.counters.addHit, recency := s.recency.touch k })
  | (none, s) => (none, { s with counters := s.counters.addMiss })

/-- Evicts an entry if a key is new and the store is full. -/
def makeRoom (s : Store κ ν) (k : κ) : Store κ ν :=
  if s.entries.contains k ∨ s.entries.size < s.capacity then s
  else
    match s.recency.evictOldest with
    | (some victim, recency) =>
      { s with
        entries := s.entries.erase victim
        recency := recency
        counters := s.counters.addEviction }
    | (none, _) => s

/-- Writes the value of a key. -/
def set (s : Store κ ν) (now : Nat) (k : κ) (v : ν) : Store κ ν :=
  -- Room is made first, so that not even for a moment there are too many entries.
  let s := s.makeRoom k
  { s with
    entries := s.entries.insert k ⟨v, now, s.nextVersion⟩
    recency := s.recency.touch k
    nextVersion := s.nextVersion + 1 }

/-- Writes if the key has no live value. -/
def setIfAbsent (s : Store κ ν) (now : Nat) (k : κ) (v : ν) : Bool × Store κ ν :=
  match s.peekEntry now k with
  | (some _, s) => (false, s)
  | (none, s) => (true, s.set now k v)

/-- Writes if the live value of the key is the expected one; expecting nothing asks for absence. -/
def compareAndSet [BEq ν] (s : Store κ ν) (now : Nat) (k : κ) (expected : Option ν)
    (v : ν) : Bool × Store κ ν :=
  let (current, s) := s.peek now k
  if current == expected then (true, s.set now k v) else (false, s)

/-- Writes if the live entry of the key has the expected version; expecting nothing asks for
absence. -/
def setIfVersion (s : Store κ ν) (now : Nat) (k : κ) (expected : Option Nat) (v : ν) :
    Bool × Store κ ν :=
  let (e?, s) := s.peekEntry now k
  if e?.map Entry.version = expected then (true, s.set now k v) else (false, s)

/-- Drops the live entry of a key and tells whether there was one. -/
def delete (s : Store κ ν) (now : Nat) (k : κ) : Bool × Store κ ν :=
  match s.peekEntry now k with
  | (some _, s) => (true, s.erase k)
  | (none, s) => (false, s)

/-- The keys of the entries that are too old. -/
def expiredKeys (s : Store κ ν) (now : Nat) : List κ :=
  s.entries.fold (fun ks k e => if e.Expired s.ttl now then k :: ks else ks) []

/-- Drops all expired entries and tells how many there were. -/
def sweep (s : Store κ ν) (now : Nat) : Nat × Store κ ν :=
  let keys := s.expiredKeys now
  (keys.length, (keys.foldl erase s).countExpired keys.length)

end Store

end CacheLayer
