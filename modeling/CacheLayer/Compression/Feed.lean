/-!
# Feeds of decoded bytes

What a stream holds is read piece by piece, and how much it is shows only in the end. A feed is what
its reader gives, one read after another. `Feed.readBounded` reads a feed that may be hostile: it
takes one byte more than it may, and asks for nothing behind that.
-/

namespace CacheLayer.Compression

/-- Why a codec did not answer with bytes. -/
inductive Fault where
  /-- The input is shorter than the size that has to stand in front of it. -/
  | missingSize
  /-- The output would be larger than this. -/
  | tooLarge (limit : Nat)
  /-- The input is not what the format asks for. -/
  | malformed (what : String)

/-- The fault in words. -/
def Fault.message : Fault → String
  | missingSize => "missing size prefix"
  | tooLarge limit => "output exceeds " ++ toString limit ++ " bytes"
  | malformed what => what

/-- What a reader gives, one read after another. Nothing is read before it is asked for. -/
inductive Feed where
  | piece (bytes : ByteArray) (rest : Unit → Feed)
  | ended
  | fault (fault : Fault)

namespace Feed

/-- No more than the first `most` bytes of a feed. -/
def take (most : Nat) : Feed → Feed
  | piece bytes rest =>
    if most = 0 then ended
    else piece (bytes.extract 0 most) fun _ => take (most - bytes.size) (rest ())
  | ended => ended
  -- A fault behind the last byte is not met.
  | fault f => if most = 0 then ended else fault f

/-- Appends a feed to what has been read before. -/
def readToEnd (buffer : ByteArray) : Feed → Except Fault ByteArray
  | piece bytes rest => readToEnd (buffer ++ bytes) (rest ())
  | ended => .ok buffer
  | fault f => .error f

/-- Reads a feed of at most `limit` bytes, and fails once there are more. -/
def readBounded (limit : Nat) (f : Feed) : Except Fault ByteArray := do
  let buffer ← (f.take (limit + 1)).readToEnd .empty
  if limit < buffer.size then throw (.tooLarge limit)
  return buffer

/-- Reads a feed, within a limit if one is given. -/
def read (limit? : Option Nat) (f : Feed) : Except Fault ByteArray :=
  match limit? with
  | none => f.readToEnd .empty
  | some limit => f.readBounded limit

end Feed

end CacheLayer.Compression
