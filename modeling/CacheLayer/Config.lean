import CacheLayer.Compression.Algorithm
import CacheLayer.Span
/-!
# Configuration

The settings of a cache, with defaults, read from named variables. A variable that is not set or
that cannot be understood leaves its default.
-/

namespace CacheLayer

open Text Compression

/-- The settings of a cache. -/
structure Config where
  /-- The name passed to loaders. -/
  cacheName : String := "default"
  /-- The most entries a local cache holds. -/
  maxEntries : Nat := 1000000
  /-- The age from which a local entry reads as absent. -/
  ttl : Nat := Span.ofMillis 360000
  /-- The expiration sent with every remote write. -/
  expiration : Nat := Span.ofMillis 360000
  /-- The compression of remote values, if any. -/
  compression : Option Algorithm := none
  /-- The pause between two sweeps for expired entries. -/
  cleanupInterval : Nat := Span.ofMillis 1000
deriving DecidableEq

namespace Config

/-- The settings when nothing is said. -/
def standard : Config := {}

instance : Inhabited Config := ⟨standard⟩

/-- The variables of an environment that are set to text. -/
abbrev Environment := String → Option String

/-- A number of at most 64 bits, with blanks around it. -/
def number? (s : String) : Option Nat :=
  decimal? maxWord64 (trimChars s.toList)

/-- Whether the text asks for no compression. -/
def meansNone (s : String) : Bool :=
  lowerChars (trimChars s.toList) = "none".toList

/-- What a compression setting asks for: nothing that can be understood, no compression, or an
algorithm. -/
def compression? (s : String) : Option (Option Algorithm) :=
  if meansNone s then some none
  else match Algorithm.parse s with
    | .ok a => some (some a)
    | .error _ => none

/-- A pause between sweeps; zero is refused. -/
def interval? (s : String) : Option Nat :=
  match number? s with
  | some 0 => none
  | some n => some (Span.ofMillis n)
  | none => none

/-- The settings that an environment asks for. -/
def ofEnvironment (env : Environment) : Config where
  cacheName := (env "CACHE_NAME").getD standard.cacheName
  maxEntries := ((env "CACHE_MAX_ENTRIES").bind number?).getD standard.maxEntries
  ttl := (((env "CACHE_TTL_MS").bind number?).map Span.ofMillis).getD standard.ttl
  expiration :=
    (((env "CACHE_EXPIRATION_MS").bind number?).map Span.ofMillis).getD standard.expiration
  compression := ((env "CACHE_COMPRESSION").bind compression?).getD standard.compression
  cleanupInterval :=
    ((env "CACHE_CLEANUP_INTERVAL_MS").bind interval?).getD standard.cleanupInterval

end Config

end CacheLayer
