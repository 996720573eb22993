import CacheLayer.Error
import Std.Data.HashMap
/-!
# Promises

A promise is completed once and read by any number of futures. Handles are its writing ends: handles
of one promise share it, and if the last one goes before the promise is completed, its futures
get an error. Handles and futures are called by names of the user's choice; a name that is given
away again lets go of what it meant before.

A future gives its outcome once. From then on it is finished: it has let go of its promise, a look
at it finds nothing, its copies are as finished as it is, and another poll breaks off. Whoever wants
to read an outcome more than once keeps a copy that is not finished.

An operation on a name that means nothing answers `none`.
-/

namespace CacheLayer

/-- What has become of a promise. -/
structure Promise (ν : Type) where
  /-- The outcome of the first completion. -/
  outcome? : Option (Outcome ν) := none
  /-- Whether some future has been polled and had the outcome. -/
  observed : Bool := false

namespace Promise

variable {ν : Type}

/-- Completes a promise. Only the first completion counts. -/
def complete (p : Promise ν) (o : Outcome ν) : Promise ν :=
  match p.outcome? with
  | some _ => p
  | none => { p with outcome? := some o }

/-- The outcome of a promise that nobody can complete any more. -/
def dropped : CacheError := .contractViolation "promise dropped before it was completed"

/-- Whether the promise is completed, in words. -/
def describe (completed : Bool) : String :=
  "Promise \x7b completed: " ++ (if completed then "true" else "false") ++ " \x7d"

/-- A future in words; they do not tell its outcome. -/
def describeFuture : String := "CacheFuture \x7b .. \x7d"

end Promise

/-- Promises with their named handles and futures. -/
structure Promises (η ν : Type) [BEq η] [Hashable η] where
  promises : Array (Promise ν) := #[]
  /-- The promise of a handle. -/
  handles : Std.HashMap η Nat := ∅
  /-- The promise of a future, which a finished future has let go of. -/
  futures : Std.HashMap η (Option Nat) := ∅

/-- What a poll of a future gives. -/
inductive Polled (ν : Type) where
  /-- The promise is not completed yet. -/
  | pending
  | ready (o : Outcome ν)
  /-- The future was finished before. -/
  | brokenOff

/-- What a poll gives of a promise that has this outcome, if any. -/
def Polled.of {ν : Type} : Option (Outcome ν) → Polled ν
  | none => .pending
  | some o => .ready o

namespace Promises

variable {η ν : Type} [BEq η] [Hashable η]

/-- Completes a promise that is given by its number. -/
def settle (w : Promises η ν) (i : Nat) (o : Outcome ν) : Promises η ν :=
  { w with promises := w.promises.modify i (·.complete o) }

/-- Whether some handle belongs to a promise. -/
def HasHandle (w : Promises η ν) (i : Nat) : Prop := i ∈ w.handles.toList.map Prod.snd

instance (w : Promises η ν) (i : Nat) : Decidable (w.HasHandle i) :=
  inferInstanceAs (Decidable (_ ∈ _))

/-- Gives up a promise if its last handle is gone. -/
def letGo (w : Promises η ν) : Option Nat → Promises η ν
  | none => w
  | some i => if w.HasHandle i then w else w.settle i (.error Promise.dropped)

/-- Lets a name mean a handle of a promise. -/
def setHandle (w : Promises η ν) (p : η) (i : Nat) : Promises η ν :=
  { w with handles := w.handles.insert p i }.letGo w.handles[p]?

/-- Makes a new promise with one handle. -/
def create (w : Promises η ν) (p : η) : Promises η ν :=
  { w with promises := w.promises.push {} }.setHandle p w.promises.size

/-- Makes a future that has its outcome from the start. -/
def resolved (w : Promises η ν) (f : η) (o : Outcome ν) : Promises η ν :=
  { w with
    promises := w.promises.push { outcome? := some o }
    futures := w.futures.insert f (some w.promises.size) }

/-- Makes another handle of a promise. -/
def cloneHandle (w : Promises η ν) (p q : η) : Option (Promises η ν) :=
  w.handles[p]?.map fun i => w.setHandle q i

/-- Drops a handle. -/
def dropHandle (w : Promises η ν) (p : η) : Option (Promises η ν) :=
  w.handles[p]?.map fun i => { w with handles := w.handles.erase p }.letGo (some i)

/-- Makes a future of a promise. -/
def future (w : Promises η ν) (p f : η) : Option (Promises η ν) :=
  w.handles[p]?.map fun i => { w with futures := w.futures.insert f (some i) }

/-- Makes another future of the same promise. The copy of a finished future is finished. -/
def cloneFuture (w : Promises η ν) (f g : η) : Option (Promises η ν) :=
  w.futures[f]?.map fun i? => { w with futures := w.futures.insert g i? }

/-- Drops a future. -/
def dropFuture (w : Promises η ν) (f : η) : Option (Promises η ν) :=
  w.futures[f]?.map fun _ => { w with futures := w.futures.erase f }

/-- The outcome of a promise that is given by its number. -/
def outcome? (w : Promises η ν) (i : Nat) : Option (Outcome ν) :=
  w.promises[i]?.bind Promise.outcome?

/-- Whether the promise of a handle is completed. -/
def isCompleted (w : Promises η ν) (p : η) : Option Bool :=
  w.handles[p]?.map fun i => (w.outcome? i).isSome

/-- Completes the promise of a handle and tells whether this was the first completion. -/
def complete (w : Promises η ν) (p : η) (o : Outcome ν) : Option (Bool × Promises η ν) :=
  w.handles[p]?.map fun i => ((w.outcome? i).isNone, w.settle i o)

/-- Whether two handles belong to one promise. -/
def same (w : Promises η ν) (p q : η) : Option Bool :=
  w.handles[p]?.bind fun i => w.handles[q]?.map fun j => i = j

/-- Asks a promise that is given by its number for its outcome, on behalf of a future. -/
def observe (w : Promises η ν) (i : Nat) : Option (Outcome ν) × Promises η ν :=
  match w.outcome? i with
  | none => (none, w)
  | some o => (some o, { w with promises := w.promises.modify i ({ · with observed := true }) })

/-- Polls a future. It is finished once it has given its outcome. -/
def await (w : Promises η ν) (f : η) : Option (Polled ν × Promises η ν) :=
  w.futures[f]?.map fun i? =>
    match i? with
    | none => (.brokenOff, w)
    | some i =>
      match w.observe i with
      | (none, w) => (.pending, w)
      | (some o, w) => (.ready o, { w with futures := w.futures.insert f none })

/-- Polls a copy of a future that is not finished, and leaves the future as it is: its outcome, or
nothing while it is pending. -/
def poll (w : Promises η ν) (f : η) : Option (Option (Outcome ν) × Promises η ν) :=
  w.futures[f]?.join.map w.observe

/-- The outcome of a future without polling it. It is there once some future of the same promise has
been polled and had it, unless the future itself is finished. -/
def peek (w : Promises η ν) (f : η) : Option (Option (Outcome ν)) :=
  w.futures[f]?.map fun i? =>
    (i?.bind fun i => w.promises[i]?).bind fun p => if p.observed then p.outcome? else none

end Promises

end CacheLayer
