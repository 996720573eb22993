/-!
# Statistics of a store

What a store has counted. The counters are for observers: no operation of a store depends on them.
-/

namespace CacheLayer

/-- The counters of a store. -/
structure Stats where
  /-- Reads that found a live value. -/
  hits : Nat := 0
  /-- Reads that found nothing, or an expired value. -/
  misses : Nat := 0
  /-- Entries dropped because the store was full. -/
  evictions : Nat := 0
  /-- Entries dropped because they were too old. -/
  expirations : Nat := 0
  /-- The number of entries in the store. -/
  totalEntries : Nat := 0
deriving DecidableEq

namespace Stats

def addHit (s : Stats) : Stats := { s with hits := s.hits + 1 }
def addMiss (s : Stats) : Stats := { s with misses := s.misses + 1 }
def addEviction (s : Stats) : Stats := { s with evictions := s.evictions + 1 }
def addExpirations (s : Stats) (n : Nat) : Stats := { s with expirations := s.expirations + n }

/-- The number of reads. -/
def reads (s : Stats) : Nat := s.hits + s.misses

/-- The share of reads that found a value, zero if nothing was read. -/
def hitRate (s : Stats) : Float :=
  if s.reads = 0 then 0 else s.hits.toFloat / s.reads.toFloat

end Stats

end CacheLayer
