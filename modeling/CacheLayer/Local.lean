import CacheLayer.Aggregate
import CacheLayer.Config
import CacheLayer.Store.Basic
import CacheLayer.Sweep
import CacheLayer.Text.Quoted
import CacheLayer.Update
/-!
# Local caches

A cache in memory: a named store. Its operations always succeed, and each of them is one step on the
store. An update goes by the versions of the entries.
-/

namespace CacheLayer

/-- A cache in memory. -/
structure LocalCache (κ ν : Type) [BEq κ] [Hashable κ] where
  name : String
  /-- Whether a loader has been attached for the layers above. The cache never calls it. -/
  hasLoader : Bool
  store : Store κ ν

namespace LocalCache

variable {κ ν : Type} [BEq κ] [Hashable κ]

/-- An empty cache with the name and the limits of a configuration. -/
def ofConfig (c : Config) : LocalCache κ ν := ⟨c.cacheName, false, .ofLimits c.maxEntries c.ttl⟩

/-- The cache in words. -/
def describe (c : LocalCache κ ν) : String :=
  "LocalAsyncCache \x7b name: " ++ Text.quote c.name ++ ", has_loader: " ++
    (if c.hasLoader then "true" else "false") ++ ", .. \x7d"

end LocalCache

namespace Store

variable {κ ν : Type} [BEq κ] [Hashable κ]

/-- Reads keys one by one: the values of those that are found. -/
def getBulk (s : Store κ ν) (now : Nat) (keys : List κ) : Std.HashMap κ ν × Store κ ν :=
  keys.foldl
    (fun acc k =>
      let (found, s) := acc
      match s.get now k with
      | (some v, s) => (found.insert k v, s)
      | (none, s) => (found, s))
    (∅, s)

/-- Writes entries one by one, which succeeds for each of them. -/
def setBulk (s : Store κ ν) (now : Nat) (entries : List (κ × ν)) :
    Outcome (Std.HashMap κ Bool) × Store κ ν :=
  (gather false (entries.map fun e => (e.1, .ok true)),
    entries.foldl (fun s e => s.set now e.1 e.2) s)

/-- Reads the key of an update with its version. -/
def updateRead (now : Nat) (k : κ) (s : Store κ ν) : Outcome (Option ν × Option Nat) × Store κ ν :=
  let (e?, s) := s.peekVersioned now k
  (.ok (e?.map Prod.fst, e?.map Prod.snd), s)

/-- Writes the key of an update unless its version has changed. -/
def updateWrite (now : Nat) (k : κ) (version? : Option Nat) (v : ν) (s : Store κ ν) :
    Outcome (Option Bool) × Store κ ν :=
  match s.setIfVersion now k version? v with
  | (true, s) => (.ok (some true), s)
  | (false, s) => (.ok none, s)

end Store

namespace Swept

variable {κ ν : Type} [BEq κ] [Hashable κ]

/-- Applies an operation of the store at the present instant. -/
def onStore {α : Type} (w : Swept (LocalCache κ ν)) (f : Store κ ν → Nat → α × Store κ ν) :
    α × Swept (LocalCache κ ν) :=
  let ⟨now, ⟨name, hasLoader, store⟩, sweepers, current?⟩ := w
  let (a, store) := f store now
  (a, ⟨now, ⟨name, hasLoader, store⟩, sweepers, current?⟩)

/-- Drops the expired entries of a cache. -/
def sweepStore (now : Nat) (c : LocalCache κ ν) : LocalCache κ ν :=
  { c with store := (c.store.sweep now).2 }

/-- How a key of a local cache is updated. -/
def updater (k : κ) : Updater (Swept (LocalCache κ ν)) (Option Nat) ν where
  read w := w.onStore fun s now => s.updateRead now k
  write version? v w := w.onStore fun s now => s.updateWrite now k version? v

end Swept

end CacheLayer
