/-!
# Bits and bytes of a stream

Bytes are read by their index and bits by their position, the least significant bit of a byte first.
Behind the end of the data every bit is zero; a reader compares its position with the end. Bytes are
written back by `ByteArray.push` and bits through `BitWriter`.
-/

namespace CacheLayer.Compression

/-- The byte at an index, zero behind the end. -/
@[inline] def byteAt (data : ByteArray) (i : Nat) : UInt8 :=
  if h : i < data.size then data[i] else 0

/-- The number in `n` bytes from an index on, least significant byte first. -/
def littleEndian (data : ByteArray) (i : Nat) : Nat → Nat
  | 0 => 0
  | n + 1 => (byteAt data i).toNat + 256 * littleEndian data (i + 1) n

/-- The bits from a position on, least significant first; at least 57 of them are there. -/
@[inline] def window (data : ByteArray) (pos : Nat) : UInt64 :=
  let i := pos / 8
  let low := (byteAt data i).toUInt64 ||| (byteAt data (i + 1)).toUInt64 <<< 8 |||
    (byteAt data (i + 2)).toUInt64 <<< 16 ||| (byteAt data (i + 3)).toUInt64 <<< 24
  let high := (byteAt data (i + 4)).toUInt64 ||| (byteAt data (i + 5)).toUInt64 <<< 8 |||
    (byteAt data (i + 6)).toUInt64 <<< 16 ||| (byteAt data (i + 7)).toUInt64 <<< 24
  (low ||| high <<< 32) >>> (pos % 8).toUInt64

/-- The number in `n` bits from a position on, at most 32 of them. -/
@[inline] def bitsAt (data : ByteArray) (pos n : Nat) : Nat :=
  (window data pos &&& ((1 <<< n.toUInt64) - 1)).toNat

/-- Appends the number in `n` bytes, least significant byte first. -/
def pushLittleEndian (out : ByteArray) (value : Nat) : Nat → ByteArray
  | 0 => out
  | n + 1 => pushLittleEndian (out.push value.toUInt8) (value / 256) n

/-- Appends `n` bytes of `data` from an index on. -/
def pushSlice (out data : ByteArray) (start n : Nat) : ByteArray :=
  data.copySlice start out out.size n

/-- Appends the same byte `n` times. -/
def pushTimes (out : ByteArray) (b : UInt8) : Nat → ByteArray
  | 0 => out
  | n + 1 => pushTimes (out.push b) b n

/-- Appends `n` bytes, each equal to the one `distance` places before it. In front of the output
stand zeros. -/
def pushBack (out : ByteArray) (distance : Nat) : Nat → ByteArray
  | 0 => out
  | n + 1 =>
    let b := if distance ≤ out.size then byteAt out (out.size - distance) else 0
    pushBack (out.push b) distance n

/-- Bytes with some bits behind them that do not fill a byte yet. -/
structure BitWriter where
  bytes : ByteArray := .empty
  /-- The bits that are not yet in `bytes`, the first one least significant. -/
  pending : UInt64 := 0
  /-- How many bits are pending. -/
  count : Nat := 0

namespace BitWriter

/-- Moves whole bytes out of the pending bits. -/
def drain (bytes : ByteArray) (pending : UInt64) (count : Nat) : BitWriter :=
  if 8 ≤ count then drain (bytes.push pending.toUInt8) (pending >>> 8) (count - 8)
  else ⟨bytes, pending, count⟩
termination_by count

/-- Appends the `n` low bits of a number, at most 32 of them. -/
def push (w : BitWriter) (value n : Nat) : BitWriter :=
  let ⟨bytes, pending, count⟩ := w
  let low := value.toUInt64 &&& ((1 <<< n.toUInt64) - 1)
  drain bytes (pending ||| low <<< count.toUInt64) (count + n)

/-- The bytes, the last one filled with zeros. -/
def finish (w : BitWriter) : ByteArray :=
  if w.count = 0 then w.bytes else w.bytes.push w.pending.toUInt8

end BitWriter

end CacheLayer.Compression
