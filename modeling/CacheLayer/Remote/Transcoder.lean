import CacheLayer.Compression.Codec
import CacheLayer.Json.Form
/-!
# Transcoders

How values become the bytes of an item and bytes become values again. A transcoder is a pair of
functions; the one that is used stores values as JSON, compressed if a codec is given.
-/

namespace CacheLayer.Remote

/-- An encoding of values as bytes. -/
structure Transcoder (ν : Type) where
  /-- The bytes of a value. -/
  encode : ν → Except CacheError ByteArray
  /-- The value that the bytes stand for. -/
  decode : ByteArray → Except CacheError ν

namespace Transcoder

/-- Values as JSON. -/
def json (ν : Type) [Json.JsonForm ν] : Transcoder ν where
  encode v := .ok (Json.encode v)
  decode data :=
    match Json.decode data with
    | .ok v => .ok v
    | .error message => .error (.transcode message)

/-- Compresses what another transcoder encodes. -/
def compressed {ν : Type} (codec : Compression.Codec) (t : Transcoder ν) : Transcoder ν where
  encode v := do codec.compress (← t.encode v)
  decode data := do t.decode (← codec.decompress data)

/-- Values as JSON, compressed by a library if an algorithm is given. -/
def standardWith (l : Compression.Library) (ν : Type) [Json.JsonForm ν]
    (compression? : Option Compression.Algorithm) : Transcoder ν :=
  match compression? with
  | none => json ν
  | some a => (json ν).compressed (l.codec a)

/-- Values as JSON, compressed as it is done here if an algorithm is given. -/
def standard (ν : Type) [Json.JsonForm ν] (compression? : Option Compression.Algorithm) :
    Transcoder ν :=
  standardWith .own ν compression?

end Transcoder

end CacheLayer.Remote
