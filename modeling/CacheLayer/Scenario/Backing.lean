import CacheLayer.Local
import CacheLayer.Remote.Cache
/-!
# Backing caches and faults

The cache behind a delegate is a local store or a remote cache with its server. Operations that come
through the delegate can be made to fail: a fault holds an operation up, and then lets it pass, or
fails it, or makes it break off.
-/

namespace CacheLayer.Scenario

open Remote

/-- The cache behind a delegate. -/
inductive Backing (ν : Type) where
  | inMemory (s : Store String ν)
  | onServer (c : RemoteCache String ν) (s : Server)

namespace Backing

variable {ν : Type}

/-- Reads a key. -/
def get (b : Backing ν) (now : Nat) (k : String) : Outcome (Option ν) × Backing ν :=
  match b with
  | inMemory s =>
    let (v?, s) := s.get now k
    (.ok v?, inMemory s)
  | onServer c s => (c.get s now k, onServer c s)

/-- Reads keys. -/
def getBulk (b : Backing ν) (now : Nat) (ks : List String) :
    Outcome (Std.HashMap String ν) × Backing ν :=
  match b with
  | inMemory s =>
    let (found, s) := s.getBulk now ks
    (.ok found, inMemory s)
  | onServer c s => (c.getBulk s now ks, onServer c s)

/-- Writes a key. -/
def set (b : Backing ν) (now : Nat) (k : String) (v : ν) : Outcome Bool × Backing ν :=
  match b with
  | inMemory s => (.ok true, inMemory (s.set now k v))
  | onServer c s =>
    let (r, s) := c.set s now k v
    (r, onServer c s)

/-- Deletes a key. -/
def delete (b : Backing ν) (now : Nat) (k : String) : Outcome Bool × Backing ν :=
  match b with
  | inMemory s =>
    let (r, s) := s.delete now k
    (.ok r, inMemory s)
  | onServer c s =>
    let (r, s) := c.delete s now k
    (r, onServer c s)

/-- The name of a key in an update, if the key is acceptable. -/
def updateKey (b : Backing ν) (k : String) : Outcome String :=
  match b with
  | inMemory _ => .ok k
  | onServer c _ => c.wireKey k

/-- Reads the key of an update. -/
def updateRead (b : Backing ν) (now : Nat) (name : String) :
    Outcome (Option ν × Option Nat) × Backing ν :=
  match b with
  | inMemory s =>
    let (r, s) := s.updateRead now name
    (r, inMemory s)
  | onServer c s => (c.updateRead now name s, onServer c s)

/-- Writes the key of an update. -/
def updateWrite (b : Backing ν) (now : Nat) (name : String) (token? : Option Nat) (v : ν) :
    Outcome (Option Bool) × Backing ν :=
  match b with
  | inMemory s =>
    let (r, s) := s.updateWrite now name token? v
    (r, inMemory s)
  | onServer c s =>
    let (r, s) := c.updateWrite now name token? v s
    (r, onServer c s)

/-- Drops what is expired. A server does this by itself. -/
def sweep (b : Backing ν) (now : Nat) : Backing ν :=
  match b with
  | inMemory s => inMemory (s.sweep now).2
  | onServer c s => onServer c s

/-- Makes a server unavailable or available again. -/
def setUnavailable (b : Backing ν) (unavailable : Bool) : Backing ν :=
  match b with
  | inMemory s => inMemory s
  | onServer c s => onServer c { s with unavailable := unavailable }

/-- The number of entries. -/
def size (b : Backing ν) (now : Nat) : Nat :=
  match b with
  | inMemory s => s.size
  | onServer _ s => s.size now

/-- The counters of a store. -/
def stats? (b : Backing ν) : Option Stats :=
  match b with
  | inMemory s => some s.stats
  | onServer .. => none

end Backing

/-- The operations that can be given a fault. -/
inductive Operation where
  | get
  | getBulk
  | set
  | update
  | delete
deriving DecidableEq

/-- How an operation with a fault ends. -/
inductive Fault.Ending where
  /-- It is carried out after all. -/
  | pass
  | fail (e : CacheError)
  /-- It breaks off, and whoever waits for it with it. -/
  | crash

/-- A fault. -/
structure Fault where
  /-- How long the operation is held up. -/
  delay : Nat
  ending : Fault.Ending
  /-- The keys that are concerned, if not all are. -/
  keys? : Option (List String)

/-- The faults that are in force. -/
abbrev Faults := List (Operation × Fault)

namespace Faults

/-- Gives an operation a fault, or frees it of one. -/
def put (fs : Faults) (op : Operation) (f? : Option Fault) : Faults :=
  let rest := fs.filter fun p => p.1 ≠ op
  match f? with
  | some f => (op, f) :: rest
  | none => rest

/-- The fault of an operation on whatever keys. -/
def find (fs : Faults) (op : Operation) : Option Fault :=
  (fs.find? fun p => p.1 = op).map Prod.snd

/-- The fault of an operation on a key. -/
def onKey (fs : Faults) (op : Operation) (k : String) : Option Fault :=
  (find fs op).filter fun f => f.keys?.all (·.contains k)

end Faults

end CacheLayer.Scenario
