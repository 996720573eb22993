import CacheLayer.Compression.Bits
import CacheLayer.Compression.Decoder
/-!
# Decoding LZ4 blocks

A block is a row of sequences: literals, then a match that repeats earlier output. The last sequence
has literals only. A decoder is given the capacity of its output and refuses a block that would not
fit. Near the ends of the input and of the capacity the format asks for margins, and how strictly a
decoder keeps them depends on its pace: while there is room it strides, later it walks.
-/

namespace CacheLayer.Compression.Lz4

/-- How far the decoder is from the end of its capacity. -/
inductive Pace where
  /-- At least 64 bytes of the capacity are left. -/
  | stride
  /-- Near the end, or after a sequence that did not leave enough room. -/
  | walk
deriving DecidableEq

/-- Where a decoder stands. -/
structure State where
  /-- The index of the next byte. -/
  pos : Nat
  /-- The bytes produced so far. -/
  out : ByteArray
  pace : Pace

/-- The fault of a block that breaks the rules of the format. -/
def malformed : Decoder.Step State := .fault (.malformed "block is malformed")

/-- Adds up length bytes: each byte of 255 is followed by another. Reading stops with nothing when
it gets behind `limit`. -/
def lengthBytes (data : ByteArray) (limit : Nat) : Nat → Nat → Nat → Option (Nat × Nat)
  | 0, _, _ => none
  | fuel + 1, pos, sum =>
    let b := byteAt data pos
    let sum := sum + b.toNat
    if limit < pos + 1 then none
    else if b = 255 then lengthBytes data limit fuel (pos + 1) sum
    else some (sum, pos + 1)

/-- The length of a run of literals from its four bits in the token. -/
def literalLength (data : ByteArray) (pos bits : Nat) : Option (Nat × Nat) :=
  if bits < 15 then some (bits, pos)
  else if data.size - 15 ≤ pos then none
  else lengthBytes data (data.size - 15) (data.size - pos) pos 15

/-- The length of a match from its four bits in the token. -/
def matchLength (data : ByteArray) (pos bits : Nat) : Option (Nat × Nat) :=
  if bits < 15 then some (bits + 4, pos)
  else lengthBytes data (data.size - 4) (data.size - pos) pos 19

/-- Copies a match. An offset of zero repeats a zero byte. -/
def pushMatch (out : ByteArray) (offset length : Nat) : ByteArray :=
  if offset = 0 then pushTimes out 0 length else pushBack out offset length

/-- Copies a match that may come near the end of the capacity: the last five bytes of the output
have to be literals. -/
def walkMatch (capacity pos offset length : Nat) (out : ByteArray) : Decoder.Step State :=
  if out.size < offset ∨ capacity < out.size + length + 5 then malformed
  else .more ⟨pos, pushMatch out offset length, .walk⟩

/-- Reads the length of a match whose offset has been read, and copies it. -/
def walkMatchTail (data : ByteArray) (capacity pos offset bits : Nat) (out : ByteArray) :
    Decoder.Step State :=
  match matchLength data pos bits with
  | none => malformed
  | some (length, pos) => walkMatch capacity pos offset length out

/-- Copies literals that may be the last ones. They are if they end within the margins, and then
they have to end with the block and to fit. -/
def walkLiterals (data : ByteArray) (capacity pos length matchBits : Nat) (out : ByteArray) :
    Decoder.Step State :=
  if capacity < out.size + length + 12 ∨ data.size < pos + length + 8 then
    -- These are the last literals, or none at all.
    if pos + length = data.size ∧ out.size + length ≤ capacity then
      .done (pushSlice out data pos length)
    else malformed
  else
    let next := pos + length
    walkMatchTail data capacity (next + 2) (littleEndian data next 2) matchBits
      (pushSlice out data pos length)

/-- A sequence at walking pace. A short one far enough from both ends needs no margin behind its
match. -/
def walkSequence (data : ByteArray) (capacity pos literalBits matchBits : Nat) (out : ByteArray) :
    Decoder.Step State :=
  if literalBits < 15 ∧ pos + 16 < data.size ∧ out.size + 32 ≤ capacity then
    let next := pos + literalBits
    let offset := littleEndian data next 2
    let out := pushSlice out data pos literalBits
    if matchBits < 15 ∧ 8 ≤ offset ∧ offset ≤ out.size then
      .more ⟨next + 2, pushMatch out offset (matchBits + 4), .walk⟩
    else walkMatchTail data capacity (next + 2) offset matchBits out
  else
    match literalLength data pos literalBits with
    | none => malformed
    | some (length, pos) => walkLiterals data capacity pos length matchBits out

/-- Copies a match at striding pace, or walks if it comes near the end of the capacity. -/
def strideMatch (data : ByteArray) (capacity pos matchBits : Nat) (out : ByteArray) :
    Decoder.Step State :=
  let offset := littleEndian data pos 2
  match matchLength data (pos + 2) matchBits with
  | none => malformed
  | some (length, pos) =>
    if capacity ≤ out.size + length + 64 then walkMatch capacity pos offset length out
    else if out.size < offset then malformed
    else .more ⟨pos, pushMatch out offset length, .stride⟩

/-- A sequence at striding pace. -/
def strideSequence (data : ByteArray) (capacity pos literalBits matchBits : Nat)
    (out : ByteArray) : Decoder.Step State :=
  match literalLength data pos literalBits with
  | none => malformed
  | some (length, pos) =>
    -- A short run is copied as 16 bytes at once, a long one as pieces of 32.
    let fits :=
      if literalBits < 15 then pos + 17 ≤ data.size
      else out.size + length + 32 ≤ capacity ∧ pos + length + 32 ≤ data.size
    if fits then
      strideMatch data capacity (pos + length) matchBits (pushSlice out data pos length)
    else walkLiterals data capacity pos length matchBits out

/-- The decoder of a block with the given capacity. One step decodes a sequence. -/
def decoder (data : ByteArray) (capacity : Nat) : Decoder State where
  step s :=
    let ⟨pos, out, pace⟩ := s
    let token := (byteAt data pos).toNat
    match pace with
    | .stride => strideSequence data capacity (pos + 1) (token / 16) (token % 16) out
    | .walk => walkSequence data capacity (pos + 1) (token / 16) (token % 16) out
  output s := s.out

/-- Decodes the block from an index to the end of the data into at most `capacity` bytes. -/
def decodeBlock (data : ByteArray) (start capacity : Nat) : Except Fault ByteArray :=
  if capacity = 0 then
    if data.size = start + 1 ∧ byteAt data start = 0 then .ok .empty
    else .error (.malformed "block is malformed")
  else if data.size ≤ start then .error (.malformed "block is empty")
  else
    let pace := if capacity < 64 then Pace.walk else .stride
    (decoder data capacity).run (data.size + 1) ⟨start, .empty, pace⟩

/-- The size that stands in front of a block, as a signed number of 32 bits. -/
def sizeField (data : ByteArray) : Int :=
  Int.bmod (littleEndian data 0 4) UInt32.size

/-- Whether a size is above the limit, if there is one. -/
def Exceeds (limit? : Option Nat) (size : Nat) : Bool :=
  match limit? with
  | some limit => limit < size
  | none => false

/-- The fault of a size that is not allowed. -/
def overflow (limit? : Option Nat) : Fault := .tooLarge (limit?.getD 0)

/-- Decodes a block behind its uncompressed size by a decoder of blocks, which is given the data,
the index of the block and its capacity. A size that is negative or above the limit, if one is
given, is refused before the block is looked at. -/
def decodeWith (block : ByteArray → Nat → Nat → Except Fault ByteArray) (limit? : Option Nat)
    (data : ByteArray) : Except Fault ByteArray :=
  if data.size < 4 then .error .missingSize
  else
    let size := sizeField data
    if size < 0 ∨ Exceeds limit? size.toNat then .error (overflow limit?)
    else block data 4 size.toNat

end CacheLayer.Compression.Lz4
