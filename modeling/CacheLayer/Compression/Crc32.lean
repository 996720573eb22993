/-!
# CRC-32

The cyclic redundancy check of gzip members: polynomial 0xEDB88320 in reflected form, with inverted
start and result.
-/

namespace CacheLayer.Compression.Crc32

/-- One bit of the division. -/
def divideBit (r : UInt32) : UInt32 :=
  if r &&& 1 = 1 then (r >>> 1) ^^^ 0xEDB88320 else r >>> 1

/-- The remainder of a byte. -/
def ofByte (b : UInt8) : UInt32 :=
  (List.range 8).foldl (fun r _ => divideBit r) b.toUInt32

/-- The remainders of all bytes. -/
def table : Array UInt32 := (List.range 256).toArray.map fun i => ofByte i.toUInt8

/-- Takes one more byte into the running check. -/
@[inline] def add (r : UInt32) (b : UInt8) : UInt32 :=
  table.getD ((r.toUInt8 ^^^ b).toNat) 0 ^^^ (r >>> 8)

/-- The check of some bytes. -/
def ofBytes (data : ByteArray) : UInt32 :=
  (data.foldl add 0xFFFFFFFF) ^^^ 0xFFFFFFFF

end CacheLayer.Compression.Crc32
