import CacheLayer.Loading.Flights
import CacheLayer.Loading.Loader
/-!
# Resolvers

A resolver carries flights to their end. It asks the cache first; what is not there it asks the
loader for; what the loader gives is published and then written back to the cache. What a resolver
does is cut into steps: chores on the flights, and questions to the cache and to the loader, whose
replies come from outside at any later time.
-/

namespace CacheLayer

/-- A question of a resolver, with the guards it holds while it waits for the reply. -/
inductive Question (κ ν : Type) [BEq κ] [Hashable κ] where
  /-- Reads the key from the cache. -/
  | read (g : Guard κ)
  /-- Loads the key. -/
  | load (g : Guard κ)
  /-- Writes what was loaded to the cache. -/
  | write (g : Guard κ) (v : ν)
  /-- Reads the keys from the cache. -/
  | readMany (gs : List (Guard κ))
  /-- Loads the keys. -/
  | loadMany (gs : List (Guard κ))
  /-- Writes what was loaded to the cache. -/
  | writeMany (gs : List (Guard κ)) (entries : Std.HashMap κ ν)

/-- A reply to a question. -/
inductive Reply (κ ν : Type) [BEq κ] [Hashable κ] where
  | read (r : Outcome (Option ν))
  | load (r : LoadEnd (Option ν))
  /-- The end of a write, of one entry or of many. -/
  | written (r : Outcome Unit)
  | readMany (r : Outcome (Std.HashMap κ ν))
  | loadMany (r : LoadEnd (Std.HashMap κ ν))

/-- A resolver between two steps. -/
structure Resolver (κ ν : Type) [BEq κ] [Hashable κ] where
  /-- What is to be done first, in this order. -/
  chores : List (Chore κ (Option ν))
  /-- What is asked after that; without a question the resolver is at its end. -/
  question? : Option (Question κ ν)
  /-- Whether the question has been asked. -/
  asked : Bool

section

variable {κ ν : Type} [BEq κ] [Hashable κ]

namespace Question

/-- The guards that are held while the reply is awaited. -/
def guards : Question κ ν → List (Guard κ)
  | read g => [g]
  | load g => [g]
  | write g _ => [g]
  | readMany gs => gs
  | loadMany gs => gs
  | writeMany gs _ => gs

/-- The keys that a loader is asked for. -/
def loading : Question κ ν → List κ
  | load g => [g.key]
  | loadMany gs => gs.map Guard.key
  | _ => []

end Question

namespace Resolver

/-- A resolver that asks a question after some chores. -/
def asking (chores : List (Chore κ (Option ν))) (q : Question κ ν) : Resolver κ ν :=
  ⟨chores, some q, false⟩

/-- A resolver that ends after some chores. -/
def ending (chores : List (Chore κ (Option ν))) : Resolver κ ν := ⟨chores, none, false⟩

/-- Whether nothing is left to be done. -/
def isOver (r : Resolver κ ν) : Bool := r.chores.isEmpty && r.question?.isNone

/-- The guards that have not been dropped. -/
def guards (r : Resolver κ ν) : List (Guard κ) :=
  (r.chores.filterMap fun
    | .remove g => some g
    | _ => none) ++ (r.question?.map Question.guards).getD []

/-- Goes on after the cache was asked for one key. -/
def afterRead (g : Guard κ) : Outcome (Option ν) → Resolver κ ν
  | .ok (some v) => ending (Chore.resolve g (.ok (some v)))
  | _ => asking [] (.load g)

/-- Goes on after the loader was asked for one key. -/
def afterLoad (g : Guard κ) : Outcome (Option ν) → Resolver κ ν
  | .ok (some v) => asking [.publish g (.ok (some v))] (.write g v)
  | o => ending (Chore.resolve g o)

/-- Goes on after the cache was asked for several keys. A cache that fails holds nothing. -/
def afterReadMany (gs : List (Guard κ)) (r : Outcome (Std.HashMap κ ν)) : Resolver κ ν :=
  -- An error of the cache never comes to the surface: what is not found is loaded.
  let found := r.toOption.getD ∅
  let chores := gs.flatMap fun g =>
    match found[g.key]? with
    | some v => Chore.resolve g (.ok (some v))
    | none => []
  match gs.filter fun g => !found.contains g.key with
  | [] => ending chores
  | missing => asking chores (.loadMany missing)

/-- Goes on after the loader was asked for several keys. -/
def afterLoadMany (gs : List (Guard κ)) : Outcome (Std.HashMap κ ν) → Resolver κ ν
  | .ok entries =>
    let chores := gs.map fun g => Chore.publish g (.ok entries[g.key]?)
    if entries.isEmpty then ending (chores ++ Chore.dropAll gs)
    else asking chores (.writeMany gs entries)
  | .error e => ending (gs.map (.publish · (.error e)) ++ Chore.dropAll gs)

/-- Goes on after a reply. A reply to another question is no reply. -/
def resume : Question κ ν → Reply κ ν → Option (Resolver κ ν)
  | .read g, .read r => some (afterRead g r)
  | .load g, .load r => some (afterLoad g r.outcome)
  | .write g _, .written _ => some (ending (Chore.drop g))
  | .readMany gs, .readMany r => some (afterReadMany gs r)
  | .loadMany gs, .loadMany r => some (afterLoadMany gs r.outcome)
  | .writeMany gs _, .written _ => some (ending (Chore.dropAll gs))
  | _, _ => none

/-- What is left of a resolver that is torn down while it waits: its guards are dropped. -/
def torn (q : Question κ ν) : Resolver κ ν := ending (Chore.dropAll q.guards)

end Resolver

/-- Whether a reply tells that loading has failed. -/
def Reply.loadFailed : Reply κ ν → Bool
  | .load r => !r.outcome.isOk
  | .loadMany r => !r.outcome.isOk
  | _ => false

end

end CacheLayer
