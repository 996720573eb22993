import CacheLayer.Aggregate
import CacheLayer.Loading.Resolver
import CacheLayer.Text.Quoted
/-!
# Loading delegates

A delegate answers reads from a cache and has what is missing loaded, with one flight for each key
at a time. A caller registers the keys it wants one by one, has a resolver started for those whose
flight is its own, and waits for the promises. The resolver goes on whether or not the caller still
waits.

The delegate is a machine. `Delegate.step?` says what can happen next: steps of callers and
resolvers in any order, and the replies of the cache and of the loader, whatever they are.
-/

namespace CacheLayer

/-- What a delegate has counted. -/
structure LoadingStats where
  /-- Calls of the loader for one key. -/
  loads : Nat := 0
  /-- Calls of the loader for several keys. -/
  bulkLoads : Nat := 0
  /-- Calls of the loader that failed. -/
  loadErrors : Nat := 0
  /-- Reads of a key that joined a flight. -/
  deduplicated : Nat := 0
deriving DecidableEq

/-- A read: of one key, or of several. -/
inductive Read (κ : Type) where
  | one (k : κ)
  | many (ks : List κ)

/-- The keys of a read. -/
def Read.keys {κ : Type} : Read κ → List κ
  | one k => [k]
  | many ks => ks

/-- What a read gives its caller. -/
inductive ReadResult (κ ν : Type) [BEq κ] [Hashable κ] where
  | one (r : Outcome (Option ν))
  | many (r : Outcome (Std.HashMap κ ν))

/-- The caller of a read. -/
structure Caller (κ : Type) where
  /-- Whether one key is read, and not several. -/
  single : Bool
  /-- The keys that are not registered yet. -/
  todo : List κ
  /-- The keys that are, each with the promise to wait for. -/
  pending : List (κ × Nat)
  /-- The guards of the flights that the caller has started, until their resolver is started. -/
  owned : List (Guard κ)
  /-- Whether the caller only waits. -/
  waiting : Bool

namespace Caller

variable {κ : Type}

/-- The caller of a read that begins. -/
def ofRead (r : Read κ) : Caller κ :=
  match r with
  | .one k => ⟨true, [k], [], [], false⟩
  | .many ks => ⟨false, ks, [], [], false⟩

/-- Takes the registration of a key. -/
def registered (c : Caller κ) (k : κ) (r : Registration κ) (todo : List κ) : Caller κ :=
  { c with
    todo := todo
    pending := c.pending ++ [(k, r.promise)]
    owned :=
      match r with
      | .owned g => c.owned ++ [g]
      | .joined _ => c.owned }

/-- The resolver of the flights that the caller has started, if there are any. -/
def resolver? {ν : Type} [BEq κ] [Hashable κ] (c : Caller κ) : Option (Resolver κ ν) :=
  match c.single, c.owned with
  | _, [] => none
  | true, g :: _ => some (.asking [] (.read g))
  | false, gs => some (.asking [] (.readMany gs))

end Caller

/-- A delegate with its callers and resolvers, each under a number of its own. -/
structure Delegate (κ ν : Type) [BEq κ] [Hashable κ] where
  flights : Flights κ (Option ν) := {}
  resolvers : Std.HashMap Nat (Resolver κ ν) := ∅
  callers : Std.HashMap Nat (Caller κ) := ∅
  /-- The number of the next caller or resolver. -/
  next : Nat := 0
  stats : LoadingStats := {}

namespace LoadingStats

/-- Counts a registration. -/
def addRegistration {κ : Type} (s : LoadingStats) : Registration κ → LoadingStats
  | .joined _ => { s with deduplicated := s.deduplicated + 1 }
  | .owned _ => s

/-- Counts the call of the loader that a question is. -/
def addQuestion {κ ν : Type} [BEq κ] [Hashable κ] (s : LoadingStats) :
    Question κ ν → LoadingStats
  | .load _ => { s with loads := s.loads + 1 }
  | .loadMany _ => { s with bulkLoads := s.bulkLoads + 1 }
  | _ => s

/-- Counts a reply. -/
def addReply {κ ν : Type} [BEq κ] [Hashable κ] (s : LoadingStats) (r : Reply κ ν) :
    LoadingStats :=
  if r.loadFailed then { s with loadErrors := s.loadErrors + 1 } else s

end LoadingStats

/-- What can happen in a delegate. -/
inductive Delegate.Step (κ ν : Type) [BEq κ] [Hashable κ] where
  /-- A read begins. -/
  | call (r : Read κ)
  /-- A caller registers its next key, or has its resolver started. -/
  | advance (caller : Nat)
  /-- A caller that waits goes away. -/
  | leave (caller : Nat)
  /-- A resolver does its next chore. -/
  | chore (resolver : Nat)
  /-- A resolver asks its question. -/
  | ask (resolver : Nat)
  /-- A resolver gets the reply to its question. -/
  | reply (resolver : Nat) (r : Reply κ ν)
  /-- A resolver is torn down while it waits. -/
  | tear (resolver : Nat)

namespace Delegate

variable {κ ν : Type} [BEq κ] [Hashable κ]

/-- The number of keys in flight. -/
def inFlight (d : Delegate κ ν) : Nat := d.flights.size

/-- Puts a resolver back, unless it is at its end. -/
def putResolver (resolvers : Std.HashMap Nat (Resolver κ ν)) (i : Nat) (r : Resolver κ ν) :
    Std.HashMap Nat (Resolver κ ν) :=
  if r.isOver then resolvers.erase i else resolvers.insert i r

/-- Lets a read begin; its caller gets the number `d.next`. -/
def call (d : Delegate κ ν) (r : Read κ) : Delegate κ ν :=
  let ⟨flights, resolvers, callers, next, stats⟩ := d
  ⟨flights, resolvers, callers.insert next (.ofRead r), next + 1, stats⟩

/-- Registers the next key of a caller. A key that it has registered before is passed over. -/
def register (d : Delegate κ ν) (i : Nat) (c : Caller κ) (k : κ) (todo : List κ) :
    Delegate κ ν :=
  let ⟨flights, resolvers, callers, next, stats⟩ := d
  if c.pending.any fun p => p.1 == k then
    ⟨flights, resolvers, callers.insert i { c with todo := todo }, next, stats⟩
  else
    -- One and the same key is registered once, however often it is listed.
    let (r, flights) := flights.register k
    ⟨flights, resolvers, callers.insert i (c.registered k r todo), next, stats.addRegistration r⟩

/-- Has the resolver of a caller started, if it has flights of its own; the resolver gets the number
`d.next`. From then on the caller waits. -/
def startResolver (d : Delegate κ ν) (i : Nat) (c : Caller κ) : Delegate κ ν :=
  let ⟨flights, resolvers, callers, next, stats⟩ := d
  let callers := callers.insert i { c with owned := [], waiting := true }
  match c.resolver? with
  | none => ⟨flights, resolvers, callers, next, stats⟩
  | some r => ⟨flights, resolvers.insert next r, callers, next + 1, stats⟩

/-- Does the next step of a caller that does not only wait. -/
def advance (d : Delegate κ ν) (i : Nat) (c : Caller κ) : Delegate κ ν :=
  match c.todo with
  | k :: todo => d.register i c k todo
  | [] => d.startResolver i c

/-- Forgets a caller. -/
def leave (d : Delegate κ ν) (i : Nat) : Delegate κ ν :=
  let ⟨flights, resolvers, callers, next, stats⟩ := d
  ⟨flights, resolvers, callers.erase i, next, stats⟩

/-- Does a chore of a resolver, of which `rest` is left. -/
def chore (d : Delegate κ ν) (i : Nat) (c : Chore κ (Option ν)) (rest : Resolver κ ν) :
    Delegate κ ν :=
  let ⟨flights, resolvers, callers, next, stats⟩ := d
  ⟨c.run flights, putResolver resolvers i rest, callers, next, stats⟩

/-- Lets a resolver ask its question. -/
def ask (d : Delegate κ ν) (i : Nat) (q : Question κ ν) : Delegate κ ν :=
  let ⟨flights, resolvers, callers, next, stats⟩ := d
  ⟨flights, resolvers.insert i ⟨[], some q, true⟩, callers, next, stats.addQuestion q⟩

/-- Gives a resolver a reply, with which it goes on as `r`. -/
def reply (d : Delegate κ ν) (i : Nat) (answer : Reply κ ν) (r : Resolver κ ν) : Delegate κ ν :=
  let ⟨flights, resolvers, callers, next, stats⟩ := d
  ⟨flights, putResolver resolvers i r, callers, next, stats.addReply answer⟩

/-- Tears down a resolver that waits for the reply to a question, or that has not asked it yet. -/
def tear (d : Delegate κ ν) (i : Nat) (q : Question κ ν) : Delegate κ ν :=
  let ⟨flights, resolvers, callers, next, stats⟩ := d
  ⟨flights, putResolver resolvers i (.torn q), callers, next, stats⟩

/-- The delegate after a step of a caller, if the step can happen. -/
def stepCaller? (d : Delegate κ ν) (i : Nat) (leaves : Bool) : Option (Delegate κ ν) :=
  match d.callers[i]? with
  | none => none
  | some c =>
    match leaves, c.waiting with
    | true, true => some (d.leave i)
    | false, false => some (d.advance i c)
    | _, _ => none

/-- The delegate after a step, if the step can happen. -/
def step? (d : Delegate κ ν) : Step κ ν → Option (Delegate κ ν)
  | .call r => some (d.call r)
  | .advance i => d.stepCaller? i false
  | .leave i => d.stepCaller? i true
  | .chore i =>
    match d.resolvers[i]? with
    | some ⟨c :: chores, question?, asked⟩ => some (d.chore i c ⟨chores, question?, asked⟩)
    | _ => none
  | .ask i =>
    match d.resolvers[i]? with
    | some ⟨[], some q, false⟩ => some (d.ask i q)
    | _ => none
  | .reply i answer =>
    match d.resolvers[i]? with
    | some ⟨[], some q, true⟩ => (Resolver.resume q answer).map (d.reply i answer)
    | _ => none
  | .tear i =>
    match d.resolvers[i]? with
    | some ⟨[], some q, _⟩ => some (d.tear i q)
    | _ => none

/-- Lets a caller do all its steps until it only waits, with one unit of fuel for each. -/
def begin (i : Nat) : Nat → Delegate κ ν → Delegate κ ν
  | 0, d => d
  | fuel + 1, d =>
    match d.callers[i]? with
    | none => d
    | some c => if c.waiting then d else begin i fuel (d.advance i c)

/-- The outcomes of promises, if all of them are there. -/
def outcomes? (f : Flights κ (Option ν)) :
    List (κ × Nat) → Option (List (κ × Outcome (Option ν)))
  | [] => some []
  | (k, p) :: pending => do
    let o ← f.outcome? p
    return (k, o) :: (← outcomes? f pending)

/-- What a caller gets, if everything that it waits for is there. -/
def result? (d : Delegate κ ν) (i : Nat) : Option (ReadResult κ ν) := do
  let c ← d.callers[i]?
  let batch ← outcomes? d.flights c.pending
  if ¬ c.waiting then none
  else if c.single then batch.head?.map fun p => .one p.2
  else some (.many (gatherPresent false batch))

/-- The delegate in words. -/
def describe (d : Delegate κ ν) (name : String) : String :=
  "LoadingCacheDelegate \x7b cache_name: " ++ Text.quote name ++ ", in_flight: " ++
    toString d.inFlight ++ ", .. \x7d"

end Delegate

end CacheLayer
