import CacheLayer.Compression.Bits
/-!
# Bit streams read backwards

Entropy-coded sections of a zstd block are read from their end. The highest set bit of the last byte
marks where the bits begin; numbers are read from there towards the front, each with its most
significant bit first. In front of the section every bit is zero, but what reads such bits has read
too far.
-/

namespace CacheLayer.Compression.Zstd

/-- A position in a stream that is read backwards. -/
structure BackwardBits where
  /-- The position of the first bit of the section. -/
  base : Nat
  /-- How many bits are left; negative after reading too far. -/
  left : Int

namespace BackwardBits

/-- The stream in the bytes from `start` up to `stop`, if their last one carries the mark. -/
def ofSection (data : ByteArray) (start stop : Nat) : Option BackwardBits :=
  if stop ≤ start then none
  else
    let last := byteAt data (stop - 1)
    if last = 0 then none
    else some ⟨8 * start, (8 * (stop - 1 - start) + last.toNat.log2 : Nat)⟩

/-- The next `n` bits as a number. -/
@[inline] def peek (data : ByteArray) (b : BackwardBits) (n : Nat) : Nat :=
  if (n : Int) ≤ b.left then bitsAt data (b.base + (b.left.toNat - n)) n
  else bitsAt data b.base b.left.toNat <<< (n - b.left.toNat)

/-- The stream behind the next `n` bits. -/
@[inline] def skip (b : BackwardBits) (n : Nat) : BackwardBits := { b with left := b.left - n }

/-- Whether every bit has been read, and none too many. -/
def AtEnd (b : BackwardBits) : Prop := b.left = 0

instance (b : BackwardBits) : Decidable b.AtEnd := inferInstanceAs (Decidable (_ = _))

end BackwardBits

end CacheLayer.Compression.Zstd
