import CacheLayer.Loading.Delegate
import CacheLayer.Loading.Loader
import Std.Data.HashMap
/-!
# Scripted loaders

A loader that follows a script: for every key, and for calls with several keys, a row of cues. The
first call follows the first cue and so on, and the last cue is followed for ever after. A cue says
how long the answer takes and what it is; the usual answer is made of the key and the number of the
call.
-/

namespace CacheLayer.Scenario

/-- How a call breaks off. -/
structure Break where
  /-- Whether this happens while the loader is called, and not while its answer is awaited. -/
  atCall : Bool
  message? : Option String

/-- What a call does. -/
structure Cue where
  /-- How long the answer takes. -/
  delay : Nat := 0
  /-- Whether there is no answer at all. -/
  never : Bool := false
  break? : Option Break := none
  error? : Option CacheError := none
  /-- The answer for one key, if it is not the usual one. -/
  value? : Option (Option String) := none
  /-- The keys that are left out of an answer for several. -/
  missing : List String := []
  /-- What is put into an answer for several keys. -/
  extra : List (String × String) := []

/-- A call, as it is recorded. -/
structure LoaderCall where
  read : Read String
  /-- The number of the call for this key, or for several keys; the first is 1. -/
  number : Nat
  instant : Nat

/-- A call that is on its way. -/
structure Ticket where
  read : Read String
  number : Nat
  cue : Cue

/-- A loader with a script. -/
structure Loader where
  /-- The cues of keys that have cues of their own. -/
  keyed : List (String × List Cue) := []
  /-- The cues of all other keys. -/
  common : List Cue := []
  /-- The cues of calls with several keys. -/
  bulk : List Cue := []
  /-- How often each key was loaded. -/
  counts : Std.HashMap String Nat := ∅
  /-- How often several keys were loaded. -/
  bulkCount : Nat := 0
  /-- The calls since they were last taken, the latest one first. -/
  calls : List LoaderCall := []

namespace Loader

/-- The cue of the `n`-th call. -/
def cueAt (cues : List Cue) (n : Nat) : Cue := cues.getD (min n cues.length - 1) {}

/-- The cues for a key. -/
def cuesFor (l : Loader) (k : String) : List Cue := (l.keyed.lookup k).getD l.common

/-- Calls the loader. -/
def call (l : Loader) (now : Nat) (r : Read String) : Ticket × Loader :=
  match r with
  | .one k =>
    let n := l.counts.getD k 0 + 1
    (⟨r, n, cueAt (l.cuesFor k) n⟩,
      { l with counts := l.counts.insert k n, calls := ⟨r, n, now⟩ :: l.calls })
  | .many _ =>
    let n := l.bulkCount + 1
    (⟨r, n, cueAt l.bulk n⟩, { l with bulkCount := n, calls := ⟨r, n, now⟩ :: l.calls })

/-- The calls since this was last asked, the earliest one first. -/
def takeCalls (l : Loader) : List LoaderCall × Loader := (l.calls.reverse, { l with calls := [] })

end Loader

namespace Ticket

/-- The instant when a call ends, if it ever does. -/
def due (t : Ticket) (now : Nat) : Option Nat :=
  if t.cue.break?.any Break.atCall then some now
  else if t.cue.never then none
  else some (now + t.cue.delay)

/-- The end of a call whose answer is given. -/
def endWith {α : Type} (t : Ticket) (answer : α) : LoadEnd α :=
  match t.cue.break?, t.cue.error? with
  | some b, _ => if b.atCall then .brokeAtCall b.message? else .brokeLater b.message?
  | none, some e => .answered (.error e)
  | none, none => .answered (.ok answer)

/-- The usual answer for one key. -/
def usual (k : String) (n : Nat) : String := k ++ "#" ++ toString n

/-- The answer for one key. -/
def value (t : Ticket) : Option String :=
  match t.cue.value? with
  | some v? => v?
  | none => t.read.keys.head?.map (usual · t.number)

/-- The usual answer for a key among several. -/
def usualOfMany (k : String) (n : Nat) : String := k ++ "@" ++ toString n

/-- The answer for several keys. -/
def values (t : Ticket) : Std.HashMap String String :=
  let usual := t.read.keys.filter fun k => !t.cue.missing.contains k
  (Std.HashMap.ofList (usual.map fun k => (k, usualOfMany k t.number))).insertMany t.cue.extra

end Ticket

end CacheLayer.Scenario
