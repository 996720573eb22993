import CacheLayer.Compression.Crc32
import CacheLayer.Compression.Deflate.Decode
import CacheLayer.Compression.Deflate.Encode
/-!
# Gzip members

A member is a header, a deflate stream, and a trailer with the check and the size of the content.
Only the first member of the data is decoded; what follows is left alone.
-/

namespace CacheLayer.Compression.Gzip

/-- The longest name or comment in a header. -/
def maxField : Nat := 65535

/-- The level of the deflate stream in a member. -/
def level : Nat := 6

/-- The header of a member without a name and without a time. -/
def header : ByteArray := ⟨#[0x1F, 0x8B, 8, 0, 0, 0, 0, 0, 0, 0xFF]⟩

/-- Encodes data as one member. -/
def encode (data : ByteArray) : ByteArray :=
  let out := header ++ Deflate.encode level data
  pushLittleEndian (pushLittleEndian out (Crc32.ofBytes data).toNat 4) data.size 4

/-- The index behind a text that ends with a zero byte, if it is short enough. -/
def skipField (data : ByteArray) (start : Nat) : Nat → Option Nat
  | 0 => none
  | fuel + 1 =>
    if data.size ≤ start then none
    else if byteAt data start = 0 then some (start + 1)
    else skipField data (start + 1) fuel

/-- Applies a reader if a flag is set. -/
def whenSet (flags : UInt8) (bit : UInt8) (read : Nat → Option Nat) (pos : Nat) : Option Nat :=
  if flags &&& bit = 0 then some pos else read pos

/-- Passes over the extra data of a header. -/
def skipExtra (data : ByteArray) (pos : Nat) : Option Nat :=
  let stop := pos + 2 + littleEndian data pos 2
  if stop ≤ data.size then some stop else none

/-- Passes over the check of a header if it agrees with the bytes in front of it. -/
def skipHeaderCheck (data : ByteArray) (pos : Nat) : Option Nat :=
  let check := (Crc32.ofBytes (data.extract 0 pos)).toNat % UInt16.size
  if pos + 2 ≤ data.size ∧ littleEndian data pos 2 = check then some (pos + 2) else none

/-- The index behind the header of the member, if it has one. -/
def skipHeader (data : ByteArray) : Option Nat := do
  let flags := byteAt data 3
  if data.size < 10 then none
  else if byteAt data 0 ≠ 0x1F ∨ byteAt data 1 ≠ 0x8B ∨ byteAt data 2 ≠ 8 then none
  else if flags &&& 0xE0 ≠ 0 then none
  else
    -- In this order: extra data, name, comment, check.
    let pos ← whenSet flags 4 (skipExtra data) 10
    let pos ← whenSet flags 8 (skipField data · (maxField + 1)) pos
    let pos ← whenSet flags 16 (skipField data · (maxField + 1)) pos
    whenSet flags 2 (skipHeaderCheck data) pos

/-- Whether the trailer at an index belongs to the content. -/
def TrailerMatches (data : ByteArray) (start : Nat) (out : ByteArray) : Prop :=
  start + 8 ≤ data.size ∧ littleEndian data start 4 = (Crc32.ofBytes out).toNat ∧
    littleEndian data (start + 4) 4 = out.size % UInt32.size

instance (data : ByteArray) (start : Nat) (out : ByteArray) :
    Decidable (TrailerMatches data start out) :=
  inferInstanceAs (Decidable (_ ∧ _ ∧ _))

/-- Where the decoder of a member stands: in its content, or behind it with the trailer to check. -/
inductive State where
  | content (inner : Deflate.State)
  | trailer (start : Nat) (out : ByteArray)

/-- The decoder of a member. -/
def decoder (data : ByteArray) : Decoder State where
  step s :=
    match s with
    | .content inner =>
      match inner.next data with
      | .more inner => .more (.content inner)
      | .ended pos out => .more (.trailer ((pos + 7) / 8) out)
      | .bad what => .fault (.malformed what)
    | .trailer start out =>
      if TrailerMatches data start out then .done out
      else .fault (.malformed "gzip trailer does not match")
  output s :=
    match s with
    | .content inner => inner.out
    | .trailer _ out => out

/-- What the first member of the data holds. -/
def feed (data : ByteArray) : Feed :=
  match skipHeader data with
  | none => .fault (.malformed "not a gzip header")
  | some start => (decoder data).feed (Deflate.stepsFor data + 1) (.content (.start (8 * start)))

end CacheLayer.Compression.Gzip
