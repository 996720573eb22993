import CacheLayer.Loading.Delegate
import CacheLayer.Store.Basic
/-!
# Refreshing delegates

A refreshing delegate is a loading delegate that serves what is stored and has it loaded again in
the background once it is stale. A reload is a flight of its own, one for each key at a time, and
nobody waits for it. What it loads replaces what is stored; what the source has no longer is
deleted. A key whose reload has failed is left alone for a while.

Whoever has read something stale starts the reload. Key by key it looks whether the key has failed
lately, and if not it registers the key. These are steps apart, each with a lock of its own, so that
others get in between. In the end it calls the loader for all keys whose flights are its own.
-/

namespace CacheLayer

/-- What a refreshing delegate has counted. -/
structure RefreshStats where
  /-- Reloads that were started, of one key or of several. -/
  refreshes : Nat := 0
  /-- Reloads that failed. -/
  refreshErrors : Nat := 0
deriving DecidableEq

/-- A question of a reload, with the guards it holds while it waits for the reply. -/
inductive ReloadQuestion (κ ν : Type) [BEq κ] [Hashable κ] where
  /-- Loads the key. -/
  | load (g : Guard κ)
  /-- Writes what was loaded to the cache. -/
  | write (g : Guard κ) (v : ν)
  /-- Deletes from the cache what the source does not have. -/
  | delete (g : Guard κ)
  /-- Loads the keys. -/
  | loadMany (gs : List (Guard κ))
  /-- Writes what was loaded to the cache. -/
  | writeMany (gs : List (Guard κ)) (entries : Std.HashMap κ ν)

/-- What a reload does without waiting. -/
inductive ReloadChore (κ ν : Type) where
  /-- Remembers that the keys have failed. -/
  | remember (ks : List κ)
  | onFlights (c : Chore κ (Option ν))

/-- A reload between two steps. -/
structure Reload (κ ν : Type) [BEq κ] [Hashable κ] where
  /-- What is to be done first, in this order. -/
  chores : List (ReloadChore κ ν)
  /-- What is asked after that; without a question the reload is at its end. -/
  question? : Option (ReloadQuestion κ ν)
  /-- Whether the question has been asked. -/
  asked : Bool

/-- A reader that has ended its read and is starting a reload of what it has found stale. -/
structure Starter (κ : Type) where
  /-- Whether one key was read, and not several. -/
  single : Bool
  /-- The stale keys that are still to be looked up among the failures. -/
  todo : List κ
  /-- The key that was looked up last, until it is registered; it had not failed lately. -/
  cleared? : Option κ
  /-- The guards of the flights that were started. -/
  guards : List (Guard κ)

section

variable {κ ν : Type} [BEq κ] [Hashable κ]

namespace ReloadQuestion

/-- The guards that are held while the reply is awaited. -/
def guards : ReloadQuestion κ ν → List (Guard κ)
  | load g => [g]
  | write g _ => [g]
  | delete g => [g]
  | loadMany gs => gs
  | writeMany gs _ => gs

/-- The keys that a loader is asked for. -/
def loading : ReloadQuestion κ ν → List κ
  | load g => [g.key]
  | loadMany gs => gs.map Guard.key
  | _ => []

end ReloadQuestion

namespace Reload

/-- A reload that asks a question after some chores. -/
def asking (chores : List (Chore κ (Option ν))) (q : ReloadQuestion κ ν) : Reload κ ν :=
  ⟨chores.map .onFlights, some q, false⟩

/-- A reload that ends after some chores. -/
def ending (chores : List (Chore κ (Option ν))) : Reload κ ν :=
  ⟨chores.map .onFlights, none, false⟩

/-- A reload that has failed. -/
def failed (gs : List (Guard κ)) (e : CacheError) : Reload κ ν :=
  let chores := gs.map (.publish · (.error e)) ++ Chore.dropAll gs
  ⟨.remember (gs.map Guard.key) :: chores.map .onFlights, none, false⟩

/-- Whether nothing is left to be done. -/
def isOver (r : Reload κ ν) : Bool := r.chores.isEmpty && r.question?.isNone

/-- Goes on after the loader was asked for one key. -/
def afterLoad (g : Guard κ) : Outcome (Option ν) → Reload κ ν
  | .ok (some v) => asking [] (.write g v)
  | .ok none => asking [] (.delete g)
  | .error e => failed [g] e

/-- Goes on after the loader was asked for several keys. -/
def afterLoadMany (gs : List (Guard κ)) : Outcome (Std.HashMap κ ν) → Reload κ ν
  | .ok entries =>
    let chores := gs.map fun g => Chore.publish g (.ok entries[g.key]?)
    -- Keys that are not in the answer are neither written nor deleted.
    if entries.isEmpty then ending (chores ++ Chore.dropAll gs)
    else asking chores (.writeMany gs entries)
  | .error e => failed gs e

/-- Goes on after a reply. A reply to another question is no reply. -/
def resume : ReloadQuestion κ ν → Reply κ ν → Option (Reload κ ν)
  | .load g, .load r => some (afterLoad g r.outcome)
  | .write g v, .written _ => some (ending (Chore.resolve g (.ok (some v))))
  | .delete g, .written _ => some (ending (Chore.resolve g (.ok none)))
  | .loadMany gs, .loadMany r => some (afterLoadMany gs r.outcome)
  | .writeMany gs _, .written _ => some (ending (Chore.dropAll gs))
  | _, _ => none

/-- What is left of a reload that is torn down while it waits: its guards are dropped. -/
def torn (q : ReloadQuestion κ ν) : Reload κ ν := ending (Chore.dropAll q.guards)

end Reload

namespace Starter

/-- Whoever has found the keys of a read stale. -/
def ofRead (stale : Read κ) : Starter κ :=
  match stale with
  | .one k => ⟨true, [k], none, []⟩
  | .many ks => ⟨false, ks, none, []⟩

/-- Goes on after the next key was looked up. -/
def lookedUp (st : Starter κ) (k : κ) (todo : List κ) (failed : Bool) : Starter κ :=
  { st with todo := todo, cleared? := if failed then none else some k }

/-- Takes the registration of the key that was looked up. A key that is being reloaded already is
left to that reload. -/
def registered (st : Starter κ) (r : Registration κ) : Starter κ :=
  { st with
    cleared? := none
    guards :=
      match r with
      | .owned g => st.guards ++ [g]
      | .joined _ => st.guards }

/-- The question that starts the reload, if there is a key left to be loaded. -/
def question? (st : Starter κ) : Option (ReloadQuestion κ ν) :=
  match st.single, st.guards with
  | _, [] => none
  | true, g :: _ => some (.load g)
  | false, gs => some (.loadMany gs)

end Starter

/-- The most failures that are remembered. -/
def maxFailures : Nat := 10000

/-- A refreshing delegate: a loading delegate and the reloads in the background, with those who are
starting one. -/
structure RefreshDelegate (κ ν : Type) [BEq κ] [Hashable κ] where
  delegate : Delegate κ ν := {}
  /-- The flights of the reloads. -/
  flights : Flights κ (Option ν) := {}
  starters : Std.HashMap Nat (Starter κ) := ∅
  /-- The number of the next starter. -/
  nextStarter : Nat := 0
  reloads : Std.HashMap Nat (Reload κ ν) := ∅
  /-- The number of the next reload. -/
  next : Nat := 0
  /-- The keys whose reload has failed, each for the retry interval. -/
  failures : Store κ Unit
  stats : RefreshStats := {}

/-- What can happen in a refreshing delegate. -/
inductive RefreshDelegate.Step (κ ν : Type) [BEq κ] [Hashable κ] where
  /-- A step of the loading delegate. -/
  | loading (s : Delegate.Step κ ν)
  /-- A read has ended and found these keys stale. -/
  | refresh (stale : Read κ)
  /-- A starter takes its next step at an instant: it looks a key up among the failures, or
  registers it, or calls the loader. -/
  | advance (now : Nat) (starter : Nat)
  /-- A reload does its next chore at an instant. -/
  | chore (now : Nat) (reload : Nat)
  /-- A reload asks its question. -/
  | ask (reload : Nat)
  /-- A reload gets the reply to its question. -/
  | reply (reload : Nat) (r : Reply κ ν)
  /-- A reload is torn down while it waits. -/
  | tear (reload : Nat)

namespace RefreshDelegate

/-- The retry interval when none is given. -/
def standardRetry (refreshAfter : Nat) : Nat := refreshAfter / 10

/-- A new delegate with the given retry interval. -/
def ofRetry (retry : Nat) : RefreshDelegate κ ν where
  failures := .ofLimits maxFailures retry

/-- The number of keys that are being reloaded. -/
def refreshing (d : RefreshDelegate κ ν) : Nat := d.flights.size

/-- Lets the keys of a read be reloaded that were found stale; who starts the reload gets the number
`d.nextStarter`. -/
def refresh (d : RefreshDelegate κ ν) (stale : Read κ) : RefreshDelegate κ ν :=
  let ⟨delegate, flights, starters, nextStarter, reloads, next, failures, stats⟩ := d
  ⟨delegate, flights, starters.insert nextStarter (.ofRead stale), nextStarter + 1, reloads, next,
    failures, stats⟩

/-- Looks at an instant whether the next key of a starter has failed lately. A key that has is left
alone. -/
def lookUp (d : RefreshDelegate κ ν) (now i : Nat) (st : Starter κ) (k : κ) (todo : List κ) :
    RefreshDelegate κ ν :=
  let ⟨delegate, flights, starters, nextStarter, reloads, next, failures, stats⟩ := d
  let (failed?, failures) := failures.peek now k
  ⟨delegate, flights, starters.insert i (st.lookedUp k todo failed?.isSome), nextStarter, reloads,
    next, failures, stats⟩

/-- Registers the key that a starter has looked up. -/
def register (d : RefreshDelegate κ ν) (i : Nat) (st : Starter κ) (k : κ) : RefreshDelegate κ ν :=
  let ⟨delegate, flights, starters, nextStarter, reloads, next, failures, stats⟩ := d
  let (r, flights) := flights.register k
  ⟨delegate, flights, starters.insert i (st.registered r), nextStarter, reloads, next, failures,
    stats⟩

/-- Ends a starter. If there is a key left to be loaded, the loader is called at once; the reload
gets the number `d.next`. -/
def launch (d : RefreshDelegate κ ν) (i : Nat) (st : Starter κ) : RefreshDelegate κ ν :=
  let ⟨delegate, flights, starters, nextStarter, reloads, next, failures, stats⟩ := d
  let starters := starters.erase i
  match st.question? with
  | none => ⟨delegate, flights, starters, nextStarter, reloads, next, failures, stats⟩
  | some q =>
    ⟨delegate, flights, starters, nextStarter, reloads.insert next ⟨[], some q, true⟩, next + 1,
      failures, { stats with refreshes := stats.refreshes + 1 }⟩

/-- Does the next step of a starter. -/
def advance (d : RefreshDelegate κ ν) (now i : Nat) (st : Starter κ) : RefreshDelegate κ ν :=
  match st.cleared?, st.todo with
  | some k, _ => d.register i st k
  | none, k :: todo => d.lookUp now i st k todo
  | none, [] => d.launch i st

/-- Puts a reload back, unless it is at its end. -/
def putReload (reloads : Std.HashMap Nat (Reload κ ν)) (i : Nat) (r : Reload κ ν) :
    Std.HashMap Nat (Reload κ ν) :=
  if r.isOver then reloads.erase i else reloads.insert i r

/-- Remembers at an instant that keys have failed. -/
def remember (failures : Store κ Unit) (now : Nat) (ks : List κ) : Store κ Unit :=
  ks.foldl (fun s k => s.set now k ()) failures

/-- Does a chore of a reload at an instant, of which `rest` is left. -/
def chore (d : RefreshDelegate κ ν) (now i : Nat) (c : ReloadChore κ ν) (rest : Reload κ ν) :
    RefreshDelegate κ ν :=
  let ⟨delegate, flights, starters, nextStarter, reloads, next, failures, stats⟩ := d
  let reloads := putReload reloads i rest
  match c with
  | .onFlights c =>
    ⟨delegate, c.run flights, starters, nextStarter, reloads, next, failures, stats⟩
  | .remember ks =>
    ⟨delegate, flights, starters, nextStarter, reloads, next, remember failures now ks,
      { stats with refreshErrors := stats.refreshErrors + 1 }⟩

/-- Puts a reload in the place of another one. -/
def setReload (d : RefreshDelegate κ ν) (i : Nat) (r : Reload κ ν) : RefreshDelegate κ ν :=
  let ⟨delegate, flights, starters, nextStarter, reloads, next, failures, stats⟩ := d
  ⟨delegate, flights, starters, nextStarter, putReload reloads i r, next, failures, stats⟩

/-- The delegate after a step, if the step can happen. -/
def step? (d : RefreshDelegate κ ν) : Step κ ν → Option (RefreshDelegate κ ν)
  | .loading s => (d.delegate.step? s).map fun delegate => { d with delegate := delegate }
  | .refresh stale => some (d.refresh stale)
  | .advance now i => (d.starters[i]?).map fun st => d.advance now i st
  | .chore now i =>
    match d.reloads[i]? with
    | some ⟨c :: chores, question?, asked⟩ => some (d.chore now i c ⟨chores, question?, asked⟩)
    | _ => none
  | .ask i =>
    match d.reloads[i]? with
    | some ⟨[], some q, false⟩ => some (d.setReload i ⟨[], some q, true⟩)
    | _ => none
  | .reply i answer =>
    match d.reloads[i]? with
    | some ⟨[], some q, true⟩ => (Reload.resume q answer).map (d.setReload i)
    | _ => none
  | .tear i =>
    match d.reloads[i]? with
    | some ⟨[], some q, _⟩ => some (d.setReload i (.torn q))
    | _ => none

/-- Lets a starter do all its steps at one instant, with one unit of fuel for each. -/
def rush (now i : Nat) : Nat → RefreshDelegate κ ν → RefreshDelegate κ ν
  | 0, d => d
  | fuel + 1, d =>
    match d.starters[i]? with
    | none => d
    | some st => rush now i fuel (d.advance now i st)

/-- Starts a reload of stale keys when nobody gets in between, with the question of the reload if
there is one. -/
def refreshAtOnce (d : RefreshDelegate κ ν) (now : Nat) (stale : Read κ) :
    Option (ReloadQuestion κ ν) × RefreshDelegate κ ν :=
  let i := d.next
  -- A key takes two steps, and the loader is called in one more.
  let d := rush now d.nextStarter (2 * stale.keys.length + 1) (d.refresh stale)
  (d.reloads[i]?.bind Reload.question?, d)

/-- A refreshing delegate in words. -/
def describe (refreshAfterMillis : Nat) : String :=
  "RefreshLoadingCacheDelegate \x7b refresh_after_write_ms: " ++ toString refreshAfterMillis ++
    ", .. \x7d"

end RefreshDelegate

end

end CacheLayer
