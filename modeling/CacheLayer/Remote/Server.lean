import CacheLayer.Error
import CacheLayer.Span
import Std.Data.HashMap
/-!
# The server

A remote store of bytes, kept in memory. An item is there until its deadline, and every write gives
its item a new token, which a later write can ask for. While the server is unavailable every request
fails and changes nothing.
-/

namespace CacheLayer.Remote

/-- A stored item. -/
structure Item where
  data : ByteArray
  /-- The instant from which on the item is gone; without one it stays. -/
  deadline? : Option Nat
  /-- The number of the write that stored the item. -/
  token : Nat

/-- Whether an item is still there. -/
def Item.Live (now : Nat) (i : Item) : Prop := ∀ d ∈ i.deadline?, now < d

instance (now : Nat) (i : Item) : Decidable (i.Live now) :=
  match h : i.deadline? with
  | none => isTrue (by simp [Item.Live, h])
  | some d => decidable_of_iff (now < d) (by simp [Item.Live, h])

/-- What became of a write that asked for a token. -/
inductive CasAnswer where
  | stored
  /-- The item carries another token. -/
  | changed
  /-- There is no item. -/
  | missing
deriving DecidableEq

/-- The server. -/
structure Server where
  items : Std.HashMap String Item := ∅
  /-- The token given last. -/
  lastToken : Nat := 0
  unavailable : Bool := false

namespace Server

/-- Why a request is refused while the server is unavailable. -/
def refusal : CacheError := .backend "server unavailable"

/-- Answers a request that only reads. -/
def reading {α : Type} (s : Server) (a : α) : Outcome α :=
  if s.unavailable then .error refusal else .ok a

/-- Answers a request that may write. -/
def writing {α : Type} (s : Server) (f : Server → α × Server) : Outcome α × Server :=
  if s.unavailable then (.error refusal, s)
  else
    let (a, s) := f s
    (.ok a, s)

/-- The live item of a key. -/
def item? (s : Server) (now : Nat) (key : String) : Option Item :=
  s.items[key]?.filter fun i => i.Live now

/-- Stores an item for so many milliseconds, for ever if there are none. -/
def put (s : Server) (now : Nat) (key : String) (expiration : Nat) (data : ByteArray) : Server :=
  let ⟨items, lastToken, unavailable⟩ := s
  let deadline? := if expiration = 0 then none else some (now + Span.ofMillis expiration)
  ⟨items.insert key ⟨data, deadline?, lastToken + 1⟩, lastToken + 1, unavailable⟩

/-- Reads an item. -/
def get (s : Server) (now : Nat) (key : String) : Outcome (Option ByteArray) :=
  s.reading ((s.item? now key).map Item.data)

/-- Reads an item with its token. -/
def gets (s : Server) (now : Nat) (key : String) : Outcome (Option (ByteArray × Nat)) :=
  s.reading ((s.item? now key).map fun i => (i.data, i.token))

/-- Reads the items of those keys that have one. -/
def bulkGet (s : Server) (now : Nat) (keys : List String) :
    Outcome (Std.HashMap String ByteArray) :=
  s.reading <| Std.HashMap.ofList <|
    keys.filterMap fun k => (s.item? now k).map fun i => (k, i.data)

/-- Stores an item. -/
def set (s : Server) (now : Nat) (key : String) (expiration : Nat) (data : ByteArray) :
    Outcome Bool × Server :=
  s.writing fun s => (true, s.put now key expiration data)

/-- Stores an item if there is none. -/
def add (s : Server) (now : Nat) (key : String) (expiration : Nat) (data : ByteArray) :
    Outcome Bool × Server :=
  s.writing fun s =>
    match s.item? now key with
    | some _ => (false, s)
    | none => (true, s.put now key expiration data)

/-- Stores an item if there is one with the given token. -/
def cas (s : Server) (now : Nat) (key : String) (token expiration : Nat) (data : ByteArray) :
    Outcome CasAnswer × Server :=
  s.writing fun s =>
    match s.item? now key with
    | none => (.missing, s)
    | some i =>
      if i.token = token then (.stored, s.put now key expiration data) else (.changed, s)

/-- Drops an item and tells whether it was there. -/
def delete (s : Server) (now : Nat) (key : String) : Outcome Bool × Server :=
  s.writing fun s => ((s.item? now key).isSome, { s with items := s.items.erase key })

/-- The bytes stored for a key, whether or not their deadline has passed. -/
def raw (s : Server) (key : String) : Option ByteArray := s.items[key]?.map Item.data

/-- The number of live items. -/
def size (s : Server) (now : Nat) : Nat := (s.items.toList.filter fun p => p.2.Live now).length

end Server

/-- A server and the present instant. -/
structure Site where
  now : Nat := 0
  server : Server := {}

namespace Site

/-- Makes a request that may write. -/
def request {α : Type} (s : Site) (f : Server → Nat → α × Server) : α × Site :=
  let ⟨now, server⟩ := s
  let (a, server) := f server now
  (a, ⟨now, server⟩)

/-- Moves the clock. -/
def advance (s : Site) (by_ : Nat) : Site := { s with now := s.now + by_ }

end Site

end CacheLayer.Remote
