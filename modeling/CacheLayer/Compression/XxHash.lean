import CacheLayer.Compression.Bits
/-!
# XXH64

The 64-bit content check of zstd frames, with seed zero. Four lanes take eight bytes each of every
stripe of 32; what is left over is mixed in by words and bytes.
-/

namespace CacheLayer.Compression.XxHash

def prime1 : UInt64 := 0x9E3779B185EBCA87
def prime2 : UInt64 := 0xC2B2AE3D27D4EB4F
def prime3 : UInt64 := 0x165667B19E3779F9
def prime4 : UInt64 := 0x85EBCA77C2B2AE63
def prime5 : UInt64 := 0x27D4EB2F165667C5

/-- Rotates to the left. -/
@[inline] def rotate (x : UInt64) (n : UInt64) : UInt64 := (x <<< n) ||| (x >>> (64 - n))

/-- Takes eight bytes into a lane. -/
@[inline] def round (acc input : UInt64) : UInt64 := rotate (acc + input * prime2) 31 * prime1

/-- Mixes a lane into the check. -/
@[inline] def merge (h lane : UInt64) : UInt64 := (h ^^^ round 0 lane) * prime1 + prime4

/-- The eight bytes from an index on. -/
@[inline] def word64 (data : ByteArray) (i : Nat) : UInt64 := window data (8 * i)

/-- Takes whole stripes into the four lanes. -/
def stripes (data : ByteArray) (i : Nat) (a b c d : UInt64) :
    Nat → UInt64 × UInt64 × UInt64 × UInt64
  | 0 => (a, b, c, d)
  | n + 1 =>
    stripes data (i + 32) (round a (word64 data i)) (round b (word64 data (i + 8)))
      (round c (word64 data (i + 16))) (round d (word64 data (i + 24))) n

/-- Mixes in the words of eight bytes behind the stripes. -/
def words (data : ByteArray) (i : Nat) (h : UInt64) : Nat → UInt64
  | 0 => h
  | n + 1 =>
    words data (i + 8) (rotate (h ^^^ round 0 (word64 data i)) 27 * prime1 + prime4) n

/-- Mixes in the bytes at the end. -/
def bytes (data : ByteArray) (i : Nat) (h : UInt64) : Nat → UInt64
  | 0 => h
  | n + 1 => bytes data (i + 1) (rotate (h ^^^ (byteAt data i).toUInt64 * prime5) 11 * prime1) n

/-- Spreads the check over all its bits. -/
def avalanche (h : UInt64) : UInt64 :=
  let h := (h ^^^ (h >>> 33)) * prime2
  let h := (h ^^^ (h >>> 29)) * prime3
  h ^^^ (h >>> 32)

/-- The check of the bytes from an index to the end of the data. -/
def ofBytesFrom (data : ByteArray) (start : Nat) : UInt64 :=
  let size := data.size - start
  let whole := size / 32
  let seed :=
    if whole = 0 then prime5
    else
      let (a, b, c, d) :=
        stripes data start (prime1 + prime2) prime2 0 (0 - prime1) whole
      merge (merge (merge (merge
        (rotate a 1 + rotate b 7 + rotate c 12 + rotate d 18) a) b) c) d
  let i := start + 32 * whole
  let rest := size % 32
  let h := words data i (seed + size.toUInt64) (rest / 8)
  let i := i + 8 * (rest / 8)
  let rest := rest % 8
  let (h, i) :=
    if 4 ≤ rest then
      (rotate (h ^^^ (littleEndian data i 4).toUInt64 * prime1) 23 * prime2 + prime3, i + 4)
    else (h, i)
  avalanche (bytes data i h (rest % 4))

end CacheLayer.Compression.XxHash
