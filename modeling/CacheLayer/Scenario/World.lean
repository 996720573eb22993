import CacheLayer.Loading.Refresh
import CacheLayer.Scenario.Backing
import CacheLayer.Scenario.Clock
import CacheLayer.Scenario.Script
import CacheLayer.Stamped
/-!
# The world of a scenario

A refreshing delegate with the cache behind it, a scripted loader, a virtual clock, and readers that
wait in the background. Questions of resolvers and reloads become errands, which are run at once or
when their delay is over. A plain loading delegate is one for whose values nothing is ever stale.
-/

namespace CacheLayer.Scenario

/-- How stored values are related to the plain ones that callers see. -/
structure Layer (ν : Type) where
  /-- What is stored for a plain value at an instant. -/
  wrap : Nat → String → ν
  /-- The plain value. -/
  plain : ν → String
  /-- Whether a value is to be loaded again at an instant. -/
  stale : Nat → ν → Bool

namespace Layer

/-- Plain values, which never get stale. -/
def ofPlain : Layer String := ⟨fun _ v => v, id, fun _ _ => false⟩

/-- Stamped values, which get stale after so many milliseconds. `epoch` is the time of the wall
clock at the first instant. -/
def ofStamped (epoch refreshAfter : Nat) : Layer (Stamped String) where
  wrap now v := .stamp epoch now v
  plain := Stamped.value
  stale now v := v.IsStale refreshAfter (wallClock epoch now)

end Layer

/-- Something to be done at the cache or the loader. -/
inductive Job (ν : Type) where
  | get (k : String)
  | getBulk (ks : List String)
  | set (k : String) (v : ν)
  | delete (k : String)
  /-- Writes entries, each on its own, of which some may have been written. -/
  | setMany (entries : List (String × ν)) (written : List (String × Outcome Bool))
  | load (t : Ticket)

/-- A job with the fault that it is run under. -/
structure Errand (ν : Type) where
  job : Job ν
  fault? : Option Fault := none

/-- How a job ends. -/
inductive JobEnd (ν : Type) where
  | got (r : Outcome (Option ν))
  | gotBulk (r : Outcome (Std.HashMap String ν))
  | wrote (r : Outcome Bool)
  | wroteMany (r : List (String × Outcome Bool))
  | loaded (r : LoadEnd (Option ν))
  | loadedMany (r : LoadEnd (Std.HashMap String ν))
  | crashed

/-- What a job that has begun leads to. -/
inductive Begun (ν : Type) where
  | ended (r : JobEnd ν)
  | later (due : Nat) (e : Errand ν)
  | never

/-- Who runs in the background. -/
inductive Task where
  | resolver (i : Nat)
  | reload (i : Nat)

/-- What can be planned. -/
inductive Event (ν : Type) where
  /-- A task runs on. -/
  | run (t : Task)
  /-- The errand of a task is due. -/
  | resume (t : Task) (e : Errand ν)
  /-- A reader looks whether its values are there. -/
  | look (caller : Nat)
  /-- A reader has waited too long. -/
  | expire (caller : Nat)
  /-- A sweeper sweeps. -/
  | sweep (id pause : Nat)

/-- What a read answers. -/
inductive Answer where
  | ended (r : ReadResult String String)
  /-- It has taken too long. -/
  | timeout

/-- A reader in the background. -/
structure Reader where
  /-- Its name, until another reader gets it. -/
  name? : Option String
  caller : Nat
  /-- What it has been answered. -/
  answer? : Option Answer

/-- The sweepers of a scenario. -/
structure Sweepers where
  /-- The numbers of those that run. -/
  running : List Nat := []
  next : Nat := 0
  /-- The one that can still be stopped. -/
  current? : Option Nat := none

/-- The world of a scenario. -/
structure World (ν : Type) where
  layer : Layer ν
  clock : Clock (Event ν) := {}
  loader : Loader
  backing : Backing ν
  faults : Faults := []
  core : RefreshDelegate String ν
  readers : List Reader := []
  sweepers : Sweepers := {}

/-- How long a reader waits. -/
def patience : Nat := Span.ofMillis 600000

namespace World

variable {ν : Type}

/-- The present instant. -/
def now (w : World ν) : Nat := w.clock.now

/-- Uses the clock. -/
def onClock (w : World ν) (f : Clock (Event ν) → Clock (Event ν)) : World ν :=
  let ⟨layer, clock, loader, backing, faults, core, readers, sweepers⟩ := w
  ⟨layer, f clock, loader, backing, faults, core, readers, sweepers⟩

/-- Uses the cache. -/
def onBacking {α : Type} (w : World ν) (f : Backing ν → α × Backing ν) : α × World ν :=
  let ⟨layer, clock, loader, backing, faults, core, readers, sweepers⟩ := w
  let (a, backing) := f backing
  (a, ⟨layer, clock, loader, backing, faults, core, readers, sweepers⟩)

/-- Uses the delegate. -/
def onCore {α : Type} (w : World ν)
    (f : RefreshDelegate String ν → α × RefreshDelegate String ν) : α × World ν :=
  let ⟨layer, clock, loader, backing, faults, core, readers, sweepers⟩ := w
  let (a, core) := f core
  (a, ⟨layer, clock, loader, backing, faults, core, readers, sweepers⟩)

/-- Changes the delegate. -/
def modifyCore (w : World ν) (f : RefreshDelegate String ν → RefreshDelegate String ν) : World ν :=
  (w.onCore fun d => ((), f d)).2

/-- Changes the loading delegate. -/
def modifyDelegate (w : World ν) (f : Delegate String ν → Delegate String ν) : World ν :=
  w.modifyCore fun d =>
    let ⟨delegate, flights, starters, nextStarter, reloads, next, failures, stats⟩ := d
    ⟨f delegate, flights, starters, nextStarter, reloads, next, failures, stats⟩

/-- Calls the loader. -/
def callLoader (w : World ν) (r : Read String) : Ticket × World ν :=
  let ⟨layer, clock, loader, backing, faults, core, readers, sweepers⟩ := w
  let (t, loader) := loader.call clock.now r
  (t, ⟨layer, clock, loader, backing, faults, core, readers, sweepers⟩)

/-- Makes an event ready. -/
def push (w : World ν) (e : Event ν) : World ν := w.onClock (·.push e)

/-- Plans an event. -/
def plan (w : World ν) (due : Nat) (e : Event ν) : World ν := w.onClock (·.plan due e)

/-! ### Errands -/

/-- The ending of an operation under a fault: what it gives instead, or how it breaks off. -/
def underFault {α : Type} (f? : Option Fault) (w : World ν) (crash : α) (fail : CacheError → α)
    (pass : World ν → α × World ν) : α × World ν :=
  match f?.map Fault.ending with
  | some (.fail e) => (fail e, w)
  | some .crash => (crash, w)
  | some .pass => pass w
  | none => pass w

/-- Writes entries one by one under a fault; without an answer a write has broken off. -/
def writeAll (f? : String → Option Fault) :
    List (String × ν) → List (String × Outcome Bool) → World ν →
      Option (List (String × Outcome Bool)) × World ν
  | [], written, w => (some written, w)
  | (k, v) :: entries, written, w =>
    let (r?, w) := underFault (f? k) w none (some ∘ Except.error) fun w =>
      let now := w.now
      let (r, w) := w.onBacking fun b => b.set now k v
      (some r, w)
    match r? with
    | none => (none, w)
    | some r => writeAll f? entries (written ++ [(k, r)]) w

/-- The end of a call of the loader, with the values as they are stored. -/
def loadEnd (w : World ν) (t : Ticket) : JobEnd ν :=
  let wrap := w.layer.wrap w.now
  match t.read with
  | .one _ => .loaded (t.endWith (t.value.map wrap))
  | .many _ => .loadedMany (t.endWith (t.values.map fun _ v => wrap v))

/-- Does a job. -/
def doJob (e : Errand ν) (w : World ν) : JobEnd ν × World ν :=
  let now := w.now
  match e.job with
  | .get k => underFault e.fault? w .crashed (fun x => .got (.error x)) fun w =>
    let (r, w) := w.onBacking fun b => b.get now k
    (.got r, w)
  | .getBulk ks => underFault e.fault? w .crashed (fun x => .gotBulk (.error x)) fun w =>
    let (r, w) := w.onBacking fun b => b.getBulk now ks
    (.gotBulk r, w)
  | .set k v => underFault e.fault? w .crashed (fun x => .wrote (.error x)) fun w =>
    let (r, w) := w.onBacking fun b => b.set now k v
    (.wrote r, w)
  | .delete k => underFault e.fault? w .crashed (fun x => .wrote (.error x)) fun w =>
    let (r, w) := w.onBacking fun b => b.delete now k
    (.wrote r, w)
  | .setMany entries written =>
    let (r?, w) := writeAll (fun _ => e.fault?) entries written w
    match r? with
    | some r => (.wroteMany r, w)
    | none => (.crashed, w)
  | .load t => (w.loadEnd t, w)

/-- Does an errand, or puts it off while its fault holds it up. -/
def hold (e : Errand ν) (w : World ν) : Begun ν × World ν :=
  match e.fault? with
  | some f =>
    if f.delay = 0 then
      let (r, w) := doJob e w
      (.ended r, w)
    else (.later (w.now + f.delay) e, w)
  | none =>
    let (r, w) := doJob e w
    (.ended r, w)

/-- Begins to write entries: those that no fault holds up are written at once. -/
def beginMany (entries : List (String × ν)) (w : World ν) : Begun ν × World ν :=
  let faults := w.faults
  -- What is not held up is written before anything else happens.
  let held (e : String × ν) : Bool := (faults.onKey .set e.1).any fun f => f.delay ≠ 0
  let (r?, w) := writeAll (faults.onKey .set) (entries.filter (!held ·)) [] w
  match r? with
  | none => (.ended .crashed, w)
  | some written =>
    match entries.filter held with
    | [] => (.ended (.wroteMany written), w)
    | rest => hold ⟨.setMany rest written, faults.find .set⟩ w

/-- Begins a job. -/
def beginJob (job : Job ν) (w : World ν) : Begun ν × World ν :=
  let faults := w.faults
  match job with
  | .get k => hold ⟨job, faults.onKey .get k⟩ w
  | .getBulk _ => hold ⟨job, faults.find .getBulk⟩ w
  | .set k _ => hold ⟨job, faults.onKey .set k⟩ w
  | .delete k => hold ⟨job, faults.onKey .delete k⟩ w
  | .setMany entries _ => beginMany entries w
  | .load t =>
    match t.due w.now with
    | none => (.never, w)
    | some due => if due ≤ w.now then hold ⟨job, none⟩ w else (.later due ⟨job, none⟩, w)

/-! ### Tasks -/

/-- The reply that the end of a job is. A job that has broken off gives none. -/
def replyOf : JobEnd ν → Option (Reply String ν)
  | .got r => some (.read r)
  | .gotBulk r => some (.readMany r)
  | .wrote r => some (.written (r.map fun _ => ()))
  | .wroteMany _ => some (.written (.ok ()))
  | .loaded r => some (.load r)
  | .loadedMany r => some (.loadMany r)
  | .crashed => none

/-- The job of a question of a resolver. -/
def jobOf (q : Question String ν) (w : World ν) : Job ν × World ν :=
  match q with
  | .read g => (.get g.key, w)
  | .readMany gs => (.getBulk (gs.map Guard.key), w)
  | .write g v => (.set g.key v, w)
  | .writeMany _ entries => (.setMany entries.toList [], w)
  | .load g =>
    let (t, w) := w.callLoader (.one g.key)
    (.load t, w)
  | .loadMany gs =>
    let (t, w) := w.callLoader (.many (gs.map Guard.key))
    (.load t, w)

/-- The job of a question of a reload. -/
def jobOfReload (q : ReloadQuestion String ν) (w : World ν) : Job ν × World ν :=
  match q with
  | .write g v => (.set g.key v, w)
  | .delete g => (.delete g.key, w)
  | .writeMany _ entries => (.setMany entries.toList [], w)
  | .load g =>
    let (t, w) := w.callLoader (.one g.key)
    (.load t, w)
  | .loadMany gs =>
    let (t, w) := w.callLoader (.many (gs.map Guard.key))
    (.load t, w)

/-- The promise that a chore completes, if it is not completed. -/
def completed? (w : World ν) : Chore String (Option ν) → Option Nat
  | .remove _ => none
  | .publish g _ => fresh g.promise
  | .abandon g => fresh g.promise
where
  /-- A promise without an outcome. -/
  fresh (p : Nat) : Option Nat :=
    if (w.core.delegate.flights.outcome? p).isNone then some p else none

/-- Whether a reader waits for a promise. -/
def waitsFor (w : World ν) (p : Nat) (r : Reader) : Bool :=
  r.answer?.isNone &&
    (w.core.delegate.callers[r.caller]?.any fun c => c.pending.any fun q => q.2 == p)

/-- Wakes the readers that wait for a promise. -/
def wake (w : World ν) (p? : Option Nat) : World ν :=
  match p? with
  | none => w
  | some p => (w.readers.filter (waitsFor w p)).foldl (fun w r => w.push (.look r.caller)) w

/-- Gives a resolver the end of its job. -/
def endResolver (w : World ν) (i : Nat) (q : Question String ν) (r : JobEnd ν) : World ν :=
  match replyOf r with
  | none => w.modifyDelegate (·.tear i q)
  | some reply =>
    match Resolver.resume q reply with
    | some resolver => w.modifyDelegate (·.reply i reply resolver)
    | none => w

/-- Gives a reload the end of its job. -/
def endReload (w : World ν) (i : Nat) (q : ReloadQuestion String ν) (r : JobEnd ν) : World ν :=
  match replyOf r with
  | none => w.modifyCore (·.setReload i (.torn q))
  | some reply =>
    match Reload.resume q reply with
    | some reload => w.modifyCore (·.setReload i reload)
    | none => w

/-- Lets a resolver run until it waits or ends, with one unit of fuel for each of its steps. -/
def runResolver (i : Nat) : Nat → World ν → World ν
  | 0, w => w
  | fuel + 1, w =>
    match w.core.delegate.resolvers[i]? with
    | some ⟨c :: chores, question?, asked⟩ =>
      let p? := w.completed? c
      let w := w.modifyDelegate (·.chore i c ⟨chores, question?, asked⟩)
      runResolver i fuel (w.wake p?)
    | some ⟨[], some q, false⟩ =>
      let (job, w) := jobOf q (w.modifyDelegate (·.ask i q))
      match beginJob job w with
      | (.ended r, w) => runResolver i fuel (w.endResolver i q r)
      | (.later due e, w) => w.plan due (.resume (.resolver i) e)
      | (.never, w) => w
    | _ => w

/-- Lets a reload run until it waits or ends, with one unit of fuel for each of its steps. -/
def runReload (i : Nat) : Nat → World ν → World ν
  | 0, w => w
  | fuel + 1, w =>
    match w.core.reloads[i]? with
    | some ⟨c :: chores, question?, asked⟩ =>
      let now := w.now
      runReload i fuel (w.modifyCore (·.chore now i c ⟨chores, question?, asked⟩))
    | some ⟨[], some q, false⟩ =>
      let (job, w) := jobOfReload q (w.modifyCore (·.setReload i ⟨[], some q, true⟩))
      match beginJob job w with
      | (.ended r, w) => runReload i fuel (w.endReload i q r)
      | (.later due e, w) => w.plan due (.resume (.reload i) e)
      | (.never, w) => w
    | _ => w

/-- Enough fuel for a task: three chores for every key and a few questions. -/
def taskFuel {α : Type} (f : Flights String α) : Nat := 4 * f.size + 16

/-- Lets a task run. -/
def runTask (w : World ν) : Task → World ν
  | .resolver i => runResolver i (taskFuel w.core.delegate.flights) w
  | .reload i => runReload i (taskFuel w.core.flights) w

/-- Does the errand of a task and lets the task run on. -/
def resume (w : World ν) (t : Task) (e : Errand ν) : World ν :=
  let (r, w) := doJob e w
  match t with
  | .resolver i =>
    match w.core.delegate.resolvers[i]? with
    | some ⟨[], some q, true⟩ => (w.endResolver i q r).runTask t
    | _ => w
  | .reload i =>
    match w.core.reloads[i]? with
    | some ⟨[], some q, true⟩ => (w.endReload i q r).runTask t
    | _ => w

/-! ### Readers -/

/-- The keys that a read has found stale. -/
def staleKeys (w : World ν) (k? : Option String) : ReadResult String ν → Option (Read String)
  | .one (.ok (some v)) => if w.layer.stale w.now v then k?.map .one else none
  | .many (.ok found) =>
    let stale := (found.filter fun _ v => w.layer.stale w.now v).keys
    if stale.isEmpty then none else some (.many (stale.mergeSort fun a b => a ≤ b))
  | _ => none

/-- Starts a reload of stale keys. -/
def startReload (w : World ν) (stale : Read String) : World ν :=
  -- The loader is called by the reader itself, at the instant when it gets its values.
  let now := w.now
  let i := w.core.next
  let (q?, w) := w.onCore fun d => d.refreshAtOnce now stale
  match q? with
  | none => w
  | some q =>
    let (job, w) := jobOfReload q w
    match job with
    | .load t =>
      match t.due now with
      | none => w
      | some due => w.plan due (.resume (.reload i) ⟨job, none⟩)
    | _ => w

/-- What a caller sees of a result. -/
def plainResult (w : World ν) : ReadResult String ν → ReadResult String String
  | .one r => .one (r.map fun v? => v?.map w.layer.plain)
  | .many r => .many (r.map fun found => found.map fun _ v => w.layer.plain v)

/-- Ends a read whose values are there, and has stale ones loaded again. -/
def endRead (w : World ν) (caller : Nat) : Option Answer × World ν :=
  match w.core.delegate.result? caller with
  | none => (none, w)
  | some r =>
    let k? := (w.core.delegate.callers[caller]?.bind fun c => c.pending.head?).map Prod.fst
    let stale? := w.staleKeys k? r
    let answer := Answer.ended (w.plainResult r)
    let w := w.modifyDelegate (·.leave caller)
    match stale? with
    | none => (some answer, w)
    | some stale => (some answer, w.startReload stale)

/-- Notes the answer of a reader. -/
def setAnswer (w : World ν) (caller : Nat) (a : Answer) : World ν :=
  { w with
    readers := w.readers.map fun r => if r.caller = caller then { r with answer? := a } else r }

/-- Lets a read begin: its keys are registered, and what has to be resolved is on its way. The
answer is the number of its caller. -/
def beginRead (w : World ν) (r : Read String) : Nat × World ν :=
  let caller := w.core.delegate.next
  let w := w.modifyDelegate fun d => (d.call r).begin caller (r.keys.length + 2)
  if caller + 1 < w.core.delegate.next then (caller, w.push (.run (.resolver (caller + 1))))
  else (caller, w)

/-! ### Events -/

/-- Lets an event happen. -/
def happen (w : World ν) : Event ν → World ν
  | .run t => w.runTask t
  | .resume t e => w.resume t e
  | .look caller =>
    match w.endRead caller with
    | (some a, w) => w.setAnswer caller a
    | (none, w) => w
  | .expire caller =>
    if w.readers.any fun r => r.caller = caller && r.answer?.isNone then
      (w.modifyDelegate (·.leave caller)).setAnswer caller .timeout
    else w
  | .sweep id pause =>
    if w.sweepers.running.contains id then
      let now := w.now
      let (_, w) := w.onBacking fun b => ((), b.sweep now)
      w.plan (now + pause) (.sweep id pause)
    else w

/-- Lets everything that is ready happen, one unit of fuel for each event. -/
def runReady : Nat → World ν → World ν
  | 0, w => w
  | fuel + 1, w =>
    match w.clock.ready with
    | [] => w
    | e :: _ => runReady fuel ((w.onClock fun c => c.pop.2).happen e)

/-- Enough fuel for what can happen at one instant. Every reader may look for every key. -/
def instantFuel (w : World ν) : Nat :=
  64 + 16 * (w.clock.ready.length + w.core.delegate.callers.size +
    w.core.delegate.resolvers.size + w.core.reloads.size) +
    w.readers.length * w.core.delegate.inFlight

/-- Lets everything happen that can happen at the present instant. -/
def settle (w : World ν) : World ν := runReady w.instantFuel w

end World

end CacheLayer.Scenario
