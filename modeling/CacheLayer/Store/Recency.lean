import Std.Data.HashMap
import Std.Data.TreeMap
/-!
# The order of last use

Which key was touched longest ago. Every touch takes the next tick; `ticks` tells the last tick of a
key and `order` the key of a tick, so that the first key in `order` is the one to go first.
-/

namespace CacheLayer

/-- Keys by their last touch. -/
structure Recency (κ : Type) [BEq κ] [Hashable κ] where
  ticks : Std.HashMap κ Nat := ∅
  order : Std.TreeMap Nat κ := ∅
  nextTick : Nat := 0

namespace Recency

variable {κ : Type} [BEq κ] [Hashable κ]

/-- Makes a key the one touched last. -/
def touch (r : Recency κ) (k : κ) : Recency κ :=
  let ⟨ticks, order, tick⟩ := r
  -- The last tick of the key must not stay behind, or the key would be met twice.
  let order :=
    match ticks[k]? with
    | some last => order.erase last
    | none => order
  ⟨ticks.insert k tick, order.insert tick k, tick + 1⟩

/-- Forgets a key. -/
def remove (r : Recency κ) (k : κ) : Recency κ :=
  let ⟨ticks, order, tick⟩ := r
  match ticks[k]? with
  | some last => ⟨ticks.erase k, order.erase last, tick⟩
  | none => ⟨ticks, order, tick⟩

/-- The key touched longest ago, and the others. -/
def evictOldest (r : Recency κ) : Option κ × Recency κ :=
  match r.order.minEntry? with
  | some (tick, k) => (some k, ⟨r.ticks.erase k, r.order.erase tick, r.nextTick⟩)
  | none => (none, r)

/-- Evicts keys until none is left, or the fuel is used up. -/
def drainKeys : Nat → Recency κ → List κ × Recency κ
  | 0, r => ([], r)
  | fuel + 1, r =>
    match r.evictOldest with
    | (some k, r) =>
      let (ks, r) := drainKeys fuel r
      (k :: ks, r)
    | (none, r) => ([], r)

/-- Evicts all keys, the one touched longest ago first. -/
def drain (r : Recency κ) : List κ × Recency κ := drainKeys r.order.size r

end Recency

end CacheLayer
