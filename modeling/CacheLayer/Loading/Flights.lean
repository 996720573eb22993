import CacheLayer.Error
import Std.Data.HashMap
/-!
# Flights

A flight is the resolution of one key: while it lasts, everyone who wants the key waits for one
promise. Whoever starts a flight gets its guard. The guard completes the promise, at most once, and
when it is dropped the flight ends: a promise that nobody has completed is given up, and the key is
taken off the registry if it still stands there with this very promise.
-/

namespace CacheLayer

/-- The right to complete a promise and to end the flight of its key. -/
structure Guard (κ : Type) where
  key : κ
  /-- The number of the promise. -/
  promise : Nat
deriving DecidableEq

/-- What becomes of someone who wants a key. -/
inductive Registration (κ : Type) where
  /-- The key was in no flight, and now this guard has to resolve it. -/
  | owned (g : Guard κ)
  /-- The key is in a flight with this promise. -/
  | joined (promise : Nat)

/-- The promise to wait for. -/
def Registration.promise {κ : Type} : Registration κ → Nat
  | owned g => g.promise
  | joined p => p

/-- The flights of a cache, and all promises that were ever made for them. -/
structure Flights (κ α : Type) [BEq κ] [Hashable κ] where
  /-- The promise of every key in flight. -/
  registry : Std.HashMap κ Nat := ∅
  /-- The outcome of every promise, if there is one yet. -/
  promises : Array (Option (Outcome α)) := #[]

namespace Flights

variable {κ α : Type} [BEq κ] [Hashable κ]

/-- The outcome of a promise that is given up. -/
def abandoned : CacheError :=
  .contractViolation "load abandoned before it produced a result"

/-- The number of keys in flight. -/
def size (f : Flights κ α) : Nat := f.registry.size

/-- The outcome of a promise, if there is one. -/
def outcome? (f : Flights κ α) (promise : Nat) : Option (Outcome α) := f.promises[promise]?.join

/-- Joins the flight of a key or starts one. -/
def register (f : Flights κ α) (k : κ) : Registration κ × Flights κ α :=
  let ⟨registry, promises⟩ := f
  match registry[k]? with
  | some p => (.joined p, ⟨registry, promises⟩)
  | none =>
    let p := promises.size
    (.owned ⟨k, p⟩, ⟨registry.insert k p, promises.push none⟩)

/-- Completes a promise unless it is completed. -/
def complete (f : Flights κ α) (promise : Nat) (o : Outcome α) : Flights κ α :=
  let ⟨registry, promises⟩ := f
  ⟨registry, promises.modify promise fun done? => done? <|> some o⟩

/-- Takes the key of a guard off the registry if it stands there with the promise of the guard. -/
def remove (f : Flights κ α) (g : Guard κ) : Flights κ α :=
  let ⟨registry, promises⟩ := f
  if registry[g.key]? = some g.promise then ⟨registry.erase g.key, promises⟩
  else ⟨registry, promises⟩

end Flights

/-- What is done to flights. Each of these happens at once, and anything may happen between two of
them. -/
inductive Chore (κ α : Type) where
  /-- Completes the promise of a guard. -/
  | publish (g : Guard κ) (o : Outcome α)
  /-- Gives the promise of a guard up unless it is completed. -/
  | abandon (g : Guard κ)
  /-- Ends the flight of a guard. -/
  | remove (g : Guard κ)

namespace Chore

variable {κ α : Type}

/-- What it takes to drop a guard. -/
def drop (g : Guard κ) : List (Chore κ α) := [abandon g, remove g]

/-- What it takes to drop guards one by one. -/
def dropAll (gs : List (Guard κ)) : List (Chore κ α) := gs.flatMap drop

/-- What it takes to complete the promise of a guard and to drop it. -/
def resolve (g : Guard κ) (o : Outcome α) : List (Chore κ α) := publish g o :: drop g

/-- Does a chore. -/
def run [BEq κ] [Hashable κ] (f : Flights κ α) : Chore κ α → Flights κ α
  | publish g o => f.complete g.promise o
  | abandon g => f.complete g.promise (.error Flights.abandoned)
  | remove g => f.remove g

end Chore

end CacheLayer
