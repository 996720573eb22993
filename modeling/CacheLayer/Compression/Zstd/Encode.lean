import CacheLayer.Compression.Factoring
import CacheLayer.Compression.Zstd.Frame
/-!
# Encoding frames

One frame, whose blocks are factored on their own. A block is written as literals and sequences in
the standard codes if that is shorter than its bytes, and as one repeated byte where it is one. A
negative level looks for copies in strides.
-/

namespace CacheLayer.Compression.Zstd

/-- The longest stride. -/
def maxStride : Nat := 131072

/-- How far a level goes on where it finds nothing. -/
def strideOf (level : Int) : Nat := if level < 0 then min level.natAbs maxStride else 1

/-- The copies at a level. -/
def scope (level : Int) : Scope := ⟨65538, maxBlock, 4, 0, strideOf level⟩

/-- A state with a symbol from which a state can be reached: the state, the number that leads on,
and its bits. -/
def stateBefore (t : FseTable) (symbol next : Nat) : Nat × Nat × Nat :=
  let state := t.cells.findIdx fun c =>
    c.symbol = symbol ∧ c.base ≤ next ∧ next < c.base + (1 <<< c.bits)
  let cell := t.cell state
  (state, next - cell.base, cell.bits)

/-- A state with a symbol. -/
def stateOf (t : FseTable) (symbol : Nat) : Nat := t.cells.findIdx fun c => c.symbol = symbol

/-- The three numbers of a sequence by their symbols and what is left to the extra bits. -/
structure Codeword where
  literalLength : Nat
  literalRest : Nat
  literalBits : Nat
  matchLength : Nat
  matchRest : Nat
  matchBits : Nat
  offset : Nat
  offsetRest : Nat

/-- The symbols of a piece. -/
def Codeword.ofPiece (p : Piece) : Codeword :=
  let ll := entryOf literalLengthEntries p.literals
  let (llBase, llBits) := literalLengthEntries.getD ll (0, 0)
  let ml := entryOf matchLengthEntries p.length
  let (mlBase, mlBits) := matchLengthEntries.getD ml (0, 0)
  let value := p.distance + 3
  ⟨ll, p.literals - llBase, llBits, ml, p.length - mlBase, mlBits, value.log2,
    value - (1 <<< value.log2)⟩

/-- Appends the extra bits of a sequence. Bits are read backwards, so what is read first is written
last. -/
def pushExtra (w : BitWriter) (c : Codeword) : BitWriter :=
  ((w.push c.literalRest c.literalBits).push c.matchRest c.matchBits).push c.offsetRest c.offset

/-- The states of the three codes while sequences are written. -/
structure States where
  literalLength : Nat
  offset : Nat
  matchLength : Nat

/-- Appends a sequence in front of the one whose states are given. -/
def pushSequence (acc : BitWriter × States) (c : Codeword) : BitWriter × States :=
  let (w, next) := acc
  let (of_, ofRest, ofBits) := stateBefore standardOffsetTable c.offset next.offset
  let (ml, mlRest, mlBits) := stateBefore standardMatchLengthTable c.matchLength next.matchLength
  let (ll, llRest, llBits) :=
    stateBefore standardLiteralLengthTable c.literalLength next.literalLength
  let w := ((w.push ofRest ofBits).push mlRest mlBits).push llRest llBits
  (pushExtra w c, ⟨ll, of_, ml⟩)

/-- The stream of sequences, from the last one to the first. -/
def sequenceStream (backwards : List Codeword) : ByteArray :=
  match backwards with
  | [] => .empty
  | last :: rest =>
    let states : States :=
      ⟨stateOf standardLiteralLengthTable last.literalLength,
        stateOf standardOffsetTable last.offset,
        stateOf standardMatchLengthTable last.matchLength⟩
    let (w, states) := rest.foldl pushSequence (pushExtra {} last, states)
    let w := w.push states.matchLength standardMatchLengthTable.log
    let w := w.push states.offset standardOffsetTable.log
    let w := w.push states.literalLength standardLiteralLengthTable.log
    (w.push 1 1).finish

/-- Appends the number of sequences. -/
def pushCount (out : ByteArray) (n : Nat) : ByteArray :=
  if n < 128 then out.push n.toUInt8
  else if n < 0x7F00 then (out.push (n / 256 + 128).toUInt8).push n.toUInt8
  else pushLittleEndian (out.push 255) (n - 0x7F00) 2

/-- The literals of the pieces and those at the end. -/
def gatherLiterals (data : ByteArray) (pieces : Array Piece) (start rest stop : Nat) : ByteArray :=
  let (literals, _) := pieces.foldl
    (fun (acc : ByteArray × Nat) p =>
      (pushSlice acc.1 data acc.2 p.literals, acc.2 + p.literals + p.length))
    (.empty, start)
  pushSlice literals data rest (stop - rest)

/-- The content of a compressed block with the data between two indices. -/
def compressedContent (level : Int) (data : ByteArray) (start stop : Nat) : ByteArray :=
  let (pieces, rest) := factor (scope level) data start stop
  let literals := gatherLiterals data pieces start rest stop
  let head := pushLittleEndian .empty (16 * literals.size + 12) 3
  let out := pushCount (head ++ literals) pieces.size
  if pieces.size = 0 then out
  else
    let backwards := pieces.foldl (fun acc p => .ofPiece p :: acc) ([] : List Codeword)
    out.push 0 ++ sequenceStream backwards

/-- Whether the bytes from an index on are all the same as the one before, for `n` bytes. -/
def isRun (data : ByteArray) (i : Nat) : Nat → Bool
  | 0 => true
  | n + 1 => byteAt data i = byteAt data (i - 1) && isRun data (i + 1) n

/-- Appends the header of a block. -/
def pushHeader (out : ByteArray) (last : Bool) (form size : Nat) : ByteArray :=
  pushLittleEndian out (8 * size + 2 * form + (if last then 1 else 0)) 3

/-- Appends a block with the data between two indices. -/
def pushBlock (level : Int) (data : ByteArray) (start stop : Nat) (last : Bool)
    (out : ByteArray) : ByteArray :=
  let size := stop - start
  if 1 < size ∧ isRun data (start + 1) (size - 1) then
    (pushHeader out last 1 size).push (byteAt data start)
  else
    let content := compressedContent level data start stop
    if content.size < size then pushHeader out last 2 content.size ++ content
    else pushSlice (pushHeader out last 0 size) data start size

/-- Appends the blocks of the data from an index on. -/
def pushBlocks (level : Int) (data : ByteArray) (start : Nat) (out : ByteArray) : Nat → ByteArray
  | 0 => out
  | fuel + 1 =>
    let stop := min (start + maxBlock) data.size
    let out := pushBlock level data start stop (stop = data.size) out
    if stop = data.size then out else pushBlocks level data stop out fuel

/-- Encodes data at a level. The window byte says that no copy reaches further than 2 MiB. -/
def encode (level : Int) (data : ByteArray) : ByteArray :=
  let head := (pushLittleEndian .empty magic 4).push 0 |>.push 0x58
  pushBlocks level data 0 head (data.size + 1)

end CacheLayer.Compression.Zstd
