import CacheLayer.Compression.Zstd.Sequences
/-!
# Blocks of a frame

A block holds its bytes as they are, one byte repeated, or literals and sequences. The codes and
offsets of a block may be used again by later blocks of its frame.
-/

namespace CacheLayer.Compression.Zstd

/-- The most bytes of a block. -/
def maxBlock : Nat := 1 <<< 17

/-- What the blocks of a frame hand on to later ones. -/
structure Memory where
  literals? : Option LiteralCode := none
  sequences? : Option SequenceCodes := none
  recent : RecentOffsets := {}

/-- How a block holds its bytes. -/
inductive BlockForm where
  | raw
  | repeated
  | compressed
deriving DecidableEq

/-- The header of a block. -/
structure BlockHeader where
  last : Bool
  form : BlockForm
  /-- The number of bytes that a raw or repeated block stands for, or the size of a compressed
  one. -/
  size : Nat

namespace BlockHeader

/-- The size of a header. -/
def width : Nat := 3

/-- Reads the header at an index. -/
def read (data : ByteArray) (pos : Nat) : Option BlockHeader :=
  let bits := littleEndian data pos width
  let last := bits % 2 = 1
  if data.size < pos + width then none
  else
    match bits / 2 % 4 with
    | 0 => some ⟨last, .raw, bits / 8⟩
    | 1 => some ⟨last, .repeated, bits / 8⟩
    | 2 => some ⟨last, .compressed, bits / 8⟩
    | _ => none

/-- How many bytes follow the header. -/
def extent (h : BlockHeader) : Nat := if h.form = .repeated then 1 else h.size

end BlockHeader

/-- The states at the front of a stream of sequences. -/
def SequenceStates.read (data : ByteArray) (codes : SequenceCodes) (start stop : Nat) :
    Option SequenceStates := do
  let bits ← BackwardBits.ofSection data start stop
  let literalLength := bits.peek data codes.literalLengths.log
  let bits := bits.skip codes.literalLengths.log
  let offset := bits.peek data codes.offsets.log
  let bits := bits.skip codes.offsets.log
  let matchLength := bits.peek data codes.matchLengths.log
  return ⟨literalLength, offset, matchLength, bits.skip codes.matchLengths.log⟩

/-- Appends the literals that no sequence has used. -/
def pushRest (literals : ByteArray) (used start limit : Nat) (out : ByteArray) :
    Option ByteArray :=
  let rest := literals.size - used
  if start + limit < out.size + rest then none else some (pushSlice out literals used rest)

/-- How large the blocks of a frame may be. -/
structure BlockLimits where
  /-- The most compressed bytes, and the most literals. -/
  coded : Nat
  /-- The most bytes that a block stands for. -/
  content : Nat

/-- Decodes literals and sequences between two indices. The output of the frame starts at
`origin`. -/
def compressedBlock (data : ByteArray) (origin : Nat) (limits : BlockLimits) (start stop : Nat)
    (memory : Memory) (out : ByteArray) : Option (Memory × ByteArray) := do
  let literals ← Literals.read data start stop limits.coded memory.literals?
  let memory := { memory with literals? := literals.code? }
  let (count, pos) ← readSequenceCount data literals.next stop
  let first := out.size
  if count = 0 then
    if pos = stop then
      let out ← pushRest literals.bytes 0 first limits.content out
      return (memory, out)
    else none
  else
    let (codes, pos) ← readSequenceCodes data pos stop memory.sequences?
    let states ← SequenceStates.read data codes pos stop
    let (recent, used, out) ←
      runSequences data codes literals.bytes origin first limits.content count states
        memory.recent 0 out
    let out ← pushRest literals.bytes used first limits.content out
    return ({ memory with sequences? := some codes, recent := recent }, out)

/-- Decodes the block behind a header. -/
def decodeBlock (data : ByteArray) (origin : Nat) (limits : BlockLimits) (start : Nat)
    (h : BlockHeader) (memory : Memory) (out : ByteArray) : Option (Memory × ByteArray) :=
  if data.size < start + h.extent then none
  else
    match h.form with
    | .raw =>
      if limits.content < h.size then none else some (memory, pushSlice out data start h.size)
    | .repeated =>
      if limits.content < max 1 h.size then none
      else some (memory, pushTimes out (byteAt data start) h.size)
    | .compressed =>
      if limits.coded < h.size then none
      else if h.size = 0 then some (memory, out)
      else compressedBlock data origin limits start (start + h.size) memory out

end CacheLayer.Compression.Zstd
