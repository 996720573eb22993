import CacheLayer.Scenario.Time
import CacheLayer.Update
/-!
# What is done in a scenario

The operations of the user of a delegate: reads, in the foreground or in the background, writes,
updates, and what stands outside of the delegate, such as sleeping, faults, sweepers, and a look at
the cache behind it. An operation that is held up takes time; most take none. None of them lets
happen what becomes ready after it: `World.catchUp` does.
-/

namespace CacheLayer.Scenario

namespace World

variable {ν : Type}

/-! ### Writing through the delegate -/

/-- Does a job to its end. Time passes while a fault holds it up. -/
def perform (job : Job ν) (w : World ν) : JobEnd ν × World ν :=
  match beginJob job w with
  | (.ended r, w) => (r, w)
  | (.later due e, w) => doJob e (w.elapseTo due)
  | (.never, w) => (.crashed, w)

/-- What a write says, unless it has broken off. -/
def written? : JobEnd ν → Option (Outcome Bool)
  | .wrote r => some r
  | _ => none

/-- Writes a plain value. -/
def set (k v : String) (w : World ν) : Option (Outcome Bool) × World ν :=
  -- The value is stamped when it is handed over, not when it arrives.
  let stored := w.layer.wrap w.now v
  let (r, w) := w.perform (.set k stored)
  (written? r, w)

/-- Writes plain values, each on its own. This only fails if every write fails. -/
def setBulk (entries : List (String × String)) (w : World ν) :
    Option (Outcome (Std.HashMap String Bool)) × World ν :=
  let wrap := w.layer.wrap w.now
  let (r, w) := w.perform (.setMany (entries.map fun e => (e.1, wrap e.2)) [])
  match r with
  | .wroteMany answers => (some (gather false answers), w)
  | _ => (none, w)

/-- Deletes a key. -/
def delete (k : String) (w : World ν) : Option (Outcome Bool) × World ν :=
  let (r, w) := w.perform (.delete k)
  (written? r, w)

/-- How a key is updated by its plain values. -/
def updater (name : String) : Updater (World ν) (Option Nat) String where
  read w :=
    let now := w.now
    let plain := w.layer.plain
    let (r, w) := w.onBacking fun b => b.updateRead now name
    (r.map fun p => (p.1.map plain, p.2), w)
  write token? v w :=
    let now := w.now
    -- The mapper has answered just now: nothing has happened since.
    let stored := w.layer.wrap now v
    w.onBacking fun b => b.updateWrite now name token? stored

/-- Updates a key that nothing holds up. -/
def updateNow (k : String) (f : Mapper String) (meanwhile : Nat → World ν → World ν)
    (attempts : Nat) (w : World ν) : Outcome Bool × List (Option String) × World ν :=
  match w.backing.updateKey k with
  | .error e => (.error e, [], w)
  | .ok name => (updater name).run f meanwhile attempts 0 w

/-- Updates a key in at most `attempts` attempts. -/
def update (k : String) (f : Mapper String) (meanwhile : Nat → World ν → World ν)
    (attempts : Nat) (w : World ν) : Option (Outcome Bool) × List (Option String) × World ν :=
  let fault? := w.faults.onKey .update k
  let held := (fault?.map Fault.delay).getD 0
  let w := if held = 0 then w else w.elapseTo (w.now + held)
  let (r, w) := underFault fault? w (none, []) (fun e => (some (.error e), [])) fun w =>
    let (answer, seen, w) := w.updateNow k f meanwhile attempts
    ((some answer, seen), w)
  (r.1, r.2, w)

/-! ### Reading in the background -/

/-- The reader of a name. -/
def reader? (w : World ν) (name : String) : Option Reader :=
  w.readers.find? fun r => r.name? = some name

/-- Takes a name from its reader. -/
def forget (readers : List Reader) (name : String) : List Reader :=
  readers.map fun r => if r.name? = some name then { r with name? := none } else r

/-- Lets a reader begin in the background. -/
def startReader (name : String) (r : Read String) (w : World ν) : World ν :=
  let (caller, w) := w.beginRead r
  let reader : Reader := ⟨some name, caller, none⟩
  let w := { w with readers := forget w.readers name ++ [reader] }
  (w.plan (w.now + patience) (.expire caller)).push (.look caller)

/-- Removes a reader. -/
def removeReader (w : World ν) (caller : Nat) : World ν :=
  { w with readers := w.readers.filter fun r => r.caller ≠ caller }

/-- The answer of a reader, which is gone once it has been asked for it. Without a reader of that
name there is no result, and without an answer an empty one. -/
def pollReader (name : String) (w : World ν) : Option (Option Answer) × World ν :=
  match w.reader? name with
  | none => (none, w)
  | some r =>
    match r.answer? with
    | none => (some none, w)
    | some a => (some (some a), w.removeReader r.caller)

/-- Lets time pass until a reader has its answer, with one unit of fuel for each instant. -/
def awaitReader (name : String) : Nat → World ν → World ν
  | 0, w => w
  | fuel + 1, w =>
    let w := w.settle
    match w.reader? name with
    | none => w
    | some r => if r.answer?.isSome then w else awaitReader name fuel (w.onClock Clock.fire)

/-- Waits for the answer of a reader. -/
def joinReader (name : String) (w : World ν) : Option (Option Answer) × World ν :=
  (awaitReader name (w.timeFuel (w.now + patience)) w).pollReader name

/-- Drops a reader, and tells whether there was one. -/
def abortReader (name : String) (w : World ν) : Bool × World ν :=
  match w.reader? name with
  | none => (false, w)
  | some r => (true, (w.modifyDelegate (·.leave r.caller)).removeReader r.caller)

/-! ### Outside of the delegate -/

/-- Sleeps for a time. -/
def sleep (span : Nat) (w : World ν) : World ν := w.elapseTo (w.now + span)

/-- Moves the clock in one go. What falls due on the way is late. -/
def advance (span : Nat) (w : World ν) : World ν := w.onClock fun c => c.moveTo (c.now + span)

/-- Gives an operation a fault, or frees it of one. -/
def setFault (op : Operation) (f? : Option Fault) (w : World ν) : World ν :=
  { w with faults := w.faults.put op f? }

/-- Makes the server of the cache unavailable or available again. -/
def setUnavailable (unavailable : Bool) (w : World ν) : World ν :=
  (w.onBacking fun b => ((), b.setUnavailable unavailable)).2

/-- Starts a sweeper. Earlier ones go on. -/
def spawnSweeper (interval : Nat) (w : World ν) : World ν :=
  let pause := max interval minPause
  let ⟨running, next, _⟩ := w.sweepers
  { w with sweepers := ⟨next :: running, next + 1, some next⟩ }.plan (w.now + pause)
    (.sweep next pause)

/-- Stops the sweeper that was started last, unless it has been stopped. -/
def stopSweeper (w : World ν) : World ν :=
  let ⟨running, next, current?⟩ := w.sweepers
  { w with sweepers := ⟨running.filter fun i => some i ≠ current?, next, none⟩ }

/-- Reads from the cache behind the delegate. -/
def innerGet (k : String) (w : World ν) : Outcome (Option ν) × World ν :=
  let now := w.now
  w.onBacking fun b => b.get now k

/-- Writes to the cache behind the delegate. -/
def innerSet (k : String) (v : ν) (w : World ν) : Outcome Bool × World ν :=
  let now := w.now
  w.onBacking fun b => b.set now k v

/-- Deletes from the cache behind the delegate. -/
def innerDelete (k : String) (w : World ν) : Outcome Bool × World ν :=
  let now := w.now
  w.onBacking fun b => b.delete now k

/-- The calls of the loader since this was last asked. -/
def takeCalls (w : World ν) : List LoaderCall × World ν :=
  let ⟨layer, clock, loader, backing, faults, core, readers, sweepers⟩ := w
  let (calls, loader) := loader.takeCalls
  (calls, ⟨layer, clock, loader, backing, faults, core, readers, sweepers⟩)

/-! ### Many keys in a row -/

/-- The `i`-th of many keys. -/
def rowKey (i : Nat) : String := "k" ++ toString i

/-- Writes one value to the first `n` of many keys. -/
def setRow (n : Nat) (v : String) (w : World ν) : World ν :=
  (List.range n).foldl (fun w i => (w.set (rowKey i) v).2) w

/-- Whether a read has found its key. -/
def isFound : Answer → Bool
  | .ended (.one (.ok (some _))) => true
  | _ => false

/-- Reads the first `n` of many keys one after another, and tells how many were found. -/
def getRow (n : Nat) (w : World ν) : Nat × World ν :=
  (List.range n).foldl
    (fun acc i =>
      let (found, w) := acc
      let (answers, w) := w.read [.one (rowKey i)]
      (found + answers.countP isFound, w.catchUp))
    (0, w)

end World

end CacheLayer.Scenario
