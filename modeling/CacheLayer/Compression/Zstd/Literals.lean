import CacheLayer.Compression.Zstd.LiteralCode
/-!
# The literals section of a block

The bytes that the sequences of a block insert: as they are, one byte repeated, or coded with a
prefix code that the section brings or that an earlier block of the frame brought.
-/

namespace CacheLayer.Compression.Zstd

/-- What a literals section leads to. -/
structure Literals where
  bytes : ByteArray
  /-- The code that later blocks may use again. -/
  code? : Option LiteralCode
  /-- The index behind the section. -/
  next : Nat

namespace Literals

/-- The size of the header and the number of bytes of a section that is not coded. -/
def plainHeader (data : ByteArray) (start : Nat) : Nat × Nat :=
  match (byteAt data start).toNat / 4 % 4 with
  | 1 => (2, littleEndian data start 2 / 16)
  | 3 => (3, littleEndian data start 3 / 16)
  | _ => (1, (byteAt data start).toNat / 8)

/-- A section with the bytes as they are. -/
def readRaw (data : ByteArray) (start stop limit : Nat) (code? : Option LiteralCode) :
    Option Literals :=
  let (header, size) := plainHeader data start
  if stop < start + header + size ∨ limit < size then none
  else
    some ⟨data.extract (start + header) (start + header + size), code?, start + header + size⟩

/-- A section with one byte repeated. -/
def readRepeated (data : ByteArray) (start stop limit : Nat) (code? : Option LiteralCode) :
    Option Literals :=
  let (header, size) := plainHeader data start
  if stop < start + header + 1 ∨ limit < size then none
  else
    some ⟨pushTimes .empty (byteAt data (start + header)) size, code?, start + header + 1⟩

/-- The header of a coded section: its size, the number of bytes, the size of the coded bytes, and
whether they are one stream. -/
def codedHeader (data : ByteArray) (start : Nat) : Nat × Nat × Nat × Bool :=
  let form := (byteAt data start).toNat / 4 % 4
  let bits := littleEndian data start 5 / 16
  let width :=
    match form with
    | 2 => 14
    | 3 => 18
    | _ => 10
  let top := 1 <<< width
  ((4 + 2 * width) / 8, bits % top, bits / top % top, form = 0)

/-- A section with coded bytes; without `code?` it brings its code. -/
def readCoded (data : ByteArray) (start stop limit : Nat) (code? : Option LiteralCode) :
    Option Literals := do
  if stop < start + 5 then none
  else
    let (header, size, coded, oneStream) := codedHeader data start
    let first := start + header
    let next := first + coded
    if limit < size ∨ stop < next ∨ (¬ oneStream ∧ size < 6) then none
    else
      let (code, pos) ←
        match code? with
        | some code => some (code, first)
        | none => LiteralCode.read data first next
      if next ≤ pos then none
      else
        let bytes ←
          if oneStream then code.decodeStream data pos next size .empty
          else code.decodeStreams data pos next size
        some ⟨bytes, some code, next⟩

/-- Reads the literals section between two indices. At most `limit` bytes are allowed. -/
def read (data : ByteArray) (start stop limit : Nat) (code? : Option LiteralCode) :
    Option Literals :=
  if stop < start + 2 then none
  else
    match (byteAt data start).toNat % 4 with
    | 0 => readRaw data start stop limit code?
    | 1 => readRepeated data start stop limit code?
    | 2 => readCoded data start stop limit none
    | _ =>
      match code? with
      | none => none
      | some code => readCoded data start stop limit (some code)

end Literals

end CacheLayer.Compression.Zstd
