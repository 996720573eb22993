import CacheLayer.Error
import Std.Data.HashMap
/-!
# Waiting for many outcomes

A batch of keyed outcomes is folded into one: the values by key, or an error that holds the errors
of the batch. Unless any error is to fail the batch, it only fails if all of it failed. A batch is
complete when its last outcome is there, never earlier.
-/

namespace CacheLayer

variable {κ α : Type}

/-- The errors of a batch. -/
def errorsOf (batch : List (κ × Outcome α)) : List CacheError :=
  batch.filterMap fun p =>
    match p.2 with
    | .ok _ => none
    | .error e => some e

/-- The values of a batch with their keys. -/
def valuesOf (batch : List (κ × Outcome α)) : List (κ × α) :=
  batch.filterMap fun p =>
    match p.2 with
    | .ok v => some (p.1, v)
    | .error _ => none

/-- Folds a batch into one outcome. -/
def gather [BEq κ] [Hashable κ] (failOnError : Bool) (batch : List (κ × Outcome α)) :
    Outcome (Std.HashMap κ α) :=
  let errors := errorsOf batch
  if errors ≠ [] ∧ (failOnError ∨ errors.length = batch.length) then .error (.aggregate errors)
  else .ok (Std.HashMap.ofList (valuesOf batch))

/-- The keys that have a value in a map of optional values. -/
def present [BEq κ] [Hashable κ] (m : Std.HashMap κ (Option α)) : Std.HashMap κ α :=
  m.filterMap fun _ v? => v?

/-- Folds a batch of optional values, of which those that are absent are left out. To be absent is
no failure. -/
def gatherPresent [BEq κ] [Hashable κ] (failOnError : Bool)
    (batch : List (κ × Outcome (Option α))) : Outcome (Std.HashMap κ α) :=
  (gather failOnError batch).map present

/-- An outcome that is there from an instant on. -/
structure Arrival (α : Type) where
  outcome : Outcome α
  due : Nat

/-- A way to wait for many outcomes at once: what it gives for them at an instant, if anything. -/
abbrev Join (α : Type) := List (Arrival α) → Nat → Option (List (Outcome α))

/-- Waits for all outcomes, and gives them in the order in which they were waited for. -/
def joinAll : Join α := fun pending now =>
  if pending.all fun a => a.due ≤ now then some (pending.map Arrival.outcome) else none

/-- What of a batch is there at an instant, if all of it is. The outcomes are waited for without
their keys, and get them back in order. -/
def arrivedWith (join : Join α) (batch : List (κ × Arrival α)) (now : Nat) :
    Option (List (κ × Outcome α)) :=
  let (keys, pending) := batch.unzip
  (join pending now).map keys.zip

/-- The instant when a batch is complete. -/
def completion (batch : List (κ × Arrival α)) : Nat :=
  batch.foldl (fun t p => max t p.2.due) 0

section

variable [BEq κ] [Hashable κ]

/-- The outcome of a batch that is waited for in some way, at an instant when it may be complete. -/
def awaitAllWith (join : Join α) (failOnError : Bool) (batch : List (κ × Arrival α)) (now : Nat) :
    Option (Outcome (Std.HashMap κ α)) :=
  (arrivedWith join batch now).map (gather failOnError)

/-- The outcome of a batch of optional values that is waited for in some way. -/
def awaitAllPresentWith (join : Join (Option α)) (failOnError : Bool)
    (batch : List (κ × Arrival (Option α))) (now : Nat) : Option (Outcome (Std.HashMap κ α)) :=
  (arrivedWith join batch now).map (gatherPresent failOnError)

/-- The outcome of a batch that is waited for. -/
def awaitAll (failOnError : Bool) (batch : List (κ × Arrival α)) (now : Nat) :
    Option (Outcome (Std.HashMap κ α)) :=
  awaitAllWith joinAll failOnError batch now

/-- The outcome of a batch of optional values that is waited for. -/
def awaitAllPresent (failOnError : Bool) (batch : List (κ × Arrival (Option α))) (now : Nat) :
    Option (Outcome (Std.HashMap κ α)) :=
  awaitAllPresentWith joinAll failOnError batch now

end

end CacheLayer
