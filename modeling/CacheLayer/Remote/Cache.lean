import CacheLayer.Aggregate
import CacheLayer.Config
import CacheLayer.Remote.Key
import CacheLayer.Remote.Server
import CacheLayer.Remote.Transcoder
import CacheLayer.Update
/-!
# Remote caches

A cache of typed values on a server. Keys are translated to wire keys, which have to be acceptable;
values are encoded, and have to be small enough. An update reads an item with its token and asks for
the token when it writes, or for absence if there was no item.
-/

namespace CacheLayer.Remote

/-- The most bytes an encoded value may have. -/
def maxValueSize : Nat := 1024 * 1024

/-- How typed values are kept on a server. -/
structure RemoteCache (κ ν : Type) where
  /-- The wire key of a key. -/
  translate : κ → String
  transcoder : Transcoder ν
  /-- How long an item stays; for ever if this is zero. -/
  expiration : Nat

namespace RemoteCache

variable {κ ν : Type}

/-- Values as JSON with the expiration and the compression of a configuration, compressed by a
library. -/
def ofConfigWith (l : Compression.Library) [Json.JsonForm ν] (translate : κ → String) (c : Config) :
    RemoteCache κ ν :=
  ⟨translate, .standardWith l ν c.compression, c.expiration⟩

/-- Values as JSON with the expiration and the compression of a configuration, compressed as it is
done here. -/
def ofConfig [Json.JsonForm ν] (translate : κ → String) (c : Config) : RemoteCache κ ν :=
  ofConfigWith .own translate c

/-- The wire key of a key, if it is acceptable. -/
def wireKey (c : RemoteCache κ ν) (k : κ) : Outcome String := do
  let wire := c.translate k
  Key.check wire
  return wire

/-- The expiration in whole milliseconds. -/
def expirationMillis (c : RemoteCache κ ν) : Nat := Span.toMillis c.expiration

/-- The bytes of a value, if they are few enough. -/
def encode (c : RemoteCache κ ν) (v : ν) : Outcome ByteArray := do
  let data ← c.transcoder.encode v
  if maxValueSize < data.size then throw (.valueTooLarge data.size maxValueSize)
  return data

/-- Decodes what was found. -/
def decode? (c : RemoteCache κ ν) : Option ByteArray → Outcome (Option ν)
  | none => .ok none
  | some data => (c.transcoder.decode data).map some

/-- Reads a value. -/
def get (c : RemoteCache κ ν) (s : Server) (now : Nat) (k : κ) : Outcome (Option ν) := do
  let wire ← c.wireKey k
  c.decode? (← s.get now wire)

/-- The keys with their wire keys, if all of these are acceptable. -/
def wireKeys (c : RemoteCache κ ν) : List κ → Outcome (List (κ × String))
  | [] => .ok []
  | k :: ks => do
    let wire ← c.wireKey k
    return (k, wire) :: (← c.wireKeys ks)

/-- The values of the keys whose wire keys were found. -/
def decodeFound [BEq κ] [Hashable κ] (c : RemoteCache κ ν)
    (found : Std.HashMap String ByteArray) :
    List (κ × String) → Std.HashMap κ ν → Outcome (Std.HashMap κ ν)
  | [], values => .ok values
  | (k, wire) :: ks, values =>
    match found[wire]? with
    | none => c.decodeFound found ks values
    | some data => do
      let v ← c.transcoder.decode data
      c.decodeFound found ks (values.insert k v)

/-- Reads values: those of the keys that are found. The server is asked once for each wire key, and
not at all if there are no keys. -/
def getBulk [BEq κ] [Hashable κ] (c : RemoteCache κ ν) (s : Server) (now : Nat) (keys : List κ) :
    Outcome (Std.HashMap κ ν) := do
  let wired ← c.wireKeys keys
  -- No request is made for nothing, not even to a server that would refuse it.
  if wired.isEmpty then return ∅
  let found ← s.bulkGet now (wired.map Prod.snd).eraseDups
  c.decodeFound found wired ∅

/-- Sends what was encoded, or gives the error that stood in the way. -/
def send {α : Type} (s : Server) (o : Outcome (String × ByteArray))
    (f : String → ByteArray → Outcome α × Server) : Outcome α × Server :=
  match o with
  | .error e => (.error e, s)
  | .ok (wire, data) => f wire data

/-- Writes a value. -/
def set (c : RemoteCache κ ν) (s : Server) (now : Nat) (k : κ) (v : ν) :
    Outcome Bool × Server :=
  send s (do return (← c.wireKey k, ← c.encode v)) fun wire data =>
    s.set now wire c.expirationMillis data

/-- Writes entries, each on its own: which of them were accepted. -/
def setEach (c : RemoteCache κ ν) (now : Nat) :
    List (κ × ν) → Server → List (κ × Outcome Bool) × Server
  | [], s => ([], s)
  | (k, v) :: entries, s =>
    let (r, s) := c.set s now k v
    let (rs, s) := c.setEach now entries s
    ((k, r) :: rs, s)

/-- Writes entries, each on its own. This only fails if every write fails. -/
def setBulk [BEq κ] [Hashable κ] (c : RemoteCache κ ν) (s : Server) (now : Nat)
    (entries : List (κ × ν)) : Outcome (Std.HashMap κ Bool) × Server :=
  let (answers, s) := c.setEach now entries s
  (gather false answers, s)

/-- Drops a value. -/
def delete (c : RemoteCache κ ν) (s : Server) (now : Nat) (k : κ) : Outcome Bool × Server :=
  match c.wireKey k with
  | .error e => (.error e, s)
  | .ok wire => s.delete now wire

/-- Reads the value of an update with its token. -/
def updateRead (c : RemoteCache κ ν) (now : Nat) (wire : String) (s : Server) :
    Outcome (Option ν × Option Nat) := do
  match ← s.gets now wire with
  | none => return (none, none)
  | some (data, token) => return (some (← c.transcoder.decode data), some token)

/-- The end of an update that asked for a token. -/
def casEnd : CasAnswer → Option Bool
  | .stored => some true
  | .changed => none
  | .missing => some false

/-- The end of an update that asked for absence. -/
def addEnd (stored : Bool) : Option Bool := if stored then some true else none

/-- Writes the value of an update if the item still has its token, or is still absent. -/
def updateWrite (c : RemoteCache κ ν) (now : Nat) (wire : String) (token? : Option Nat) (v : ν)
    (s : Server) : Outcome (Option Bool) × Server :=
  send s (do return (wire, ← c.encode v)) fun wire data =>
    match token? with
    | some token =>
      let (r, s) := s.cas now wire token c.expirationMillis data
      (r.map casEnd, s)
    | none =>
      let (r, s) := s.add now wire c.expirationMillis data
      (r.map addEnd, s)

/-- How a wire key is updated. -/
def updater (c : RemoteCache κ ν) (wire : String) : Updater Site (Option Nat) ν where
  read s := (c.updateRead s.now wire s.server, s)
  write token? v s := s.request fun server now => c.updateWrite now wire token? v server

/-- Updates a value in at most `attempts` attempts, if its wire key is acceptable. -/
def update (c : RemoteCache κ ν) (k : κ) (f : Mapper ν) (meanwhile : Nat → Site → Site)
    (attempts : Nat) (s : Site) : Outcome Bool × List (Option ν) × Site :=
  match c.wireKey k with
  | .error e => (.error e, [], s)
  | .ok wire => (c.updater wire).run f meanwhile attempts 0 s

/-- The cache in words. -/
def describe (c : RemoteCache κ ν) : String :=
  "RemoteCache \x7b expiration: " ++ Span.text c.expiration ++ ", .. \x7d"

end RemoteCache

end CacheLayer.Remote
