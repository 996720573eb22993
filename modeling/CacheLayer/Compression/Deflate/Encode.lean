import CacheLayer.Compression.Deflate.Tables
import CacheLayer.Compression.Factoring
/-!
# Encoding deflate streams

Level 0 stores the data as it is; every other level writes one block in the fixed code. A level asks
for an effort and not for certain bytes, and any stream that holds the data is good.
-/

namespace CacheLayer.Compression.Deflate

/-- The highest level. -/
def maxLevel : Nat := 9

/-- The level that is used for a given one. -/
def effectiveLevel (level : Nat) : Nat := min level maxLevel

/-- The most bytes in a stored block. -/
def maxStored : Nat := 65535

/-- The copies of the format. -/
def scope : Scope := ⟨258, 32768, 4, 0, 1⟩

/-- Appends stored blocks. -/
def storeBlocks (data : ByteArray) (start : Nat) (out : ByteArray) : Nat → ByteArray
  | 0 => out
  | fuel + 1 =>
    let size := min (data.size - start) maxStored
    let last := data.size ≤ start + size
    let out := out.push (if last then 1 else 0)
    let out := pushLittleEndian (pushLittleEndian out size 2) (0xFFFF - size) 2
    let out := pushSlice out data start size
    if last then out else storeBlocks data (start + size) out fuel

/-- The data in stored blocks. -/
def store (data : ByteArray) : ByteArray := storeBlocks data 0 .empty (data.size + 1)

/-- The `n` low bits of a number in reverse order. -/
def reverseBits : Nat → Nat → Nat
  | 0, _ => 0
  | n + 1, value => ((value % 2) <<< n) + reverseBits n (value / 2)

/-- The word of a symbol in the fixed code and its length. -/
def fixedWord (symbol : Nat) : Nat × Nat :=
  if symbol < 144 then (0x30 + symbol, 8)
  else if symbol < 256 then (0x190 + (symbol - 144), 9)
  else if symbol < 280 then (symbol - 256, 7)
  else (0xC0 + (symbol - 280), 8)

/-- The words of the fixed code, with the bits in the order in which they are sent. -/
def fixedWords : Array (Nat × Nat) :=
  ((List.range 288).map fun s =>
    let (word, n) := fixedWord s
    (reverseBits n word, n)).toArray

/-- Appends a symbol of the fixed code. -/
@[inline] def pushSymbol (w : BitWriter) (symbol : Nat) : BitWriter :=
  let (word, n) := fixedWords.getD symbol (0, 0)
  w.push word n

/-- Appends `n` literals from an index on. -/
def pushLiterals (data : ByteArray) (start : Nat) (w : BitWriter) : Nat → BitWriter
  | 0 => w
  | n + 1 => pushLiterals data (start + 1) (pushSymbol w (byteAt data start).toNat) n

/-- Appends a copy. -/
def pushCopy (w : BitWriter) (length distance : Nat) : BitWriter :=
  let symbol := entryOf lengthEntries length
  let (base, extra) := lengthEntries.getD symbol (0, 0)
  let w := (pushSymbol w (endOfBlock + 1 + symbol)).push (length - base) extra
  let symbol := entryOf distanceEntries distance
  let (base, extra) := distanceEntries.getD symbol (0, 0)
  (w.push (reverseBits 5 symbol) 5).push (distance - base) extra

/-- The data in one block of the fixed code. -/
def compress (data : ByteArray) : ByteArray :=
  let (pieces, rest) := factor scope data 0 data.size
  let head : BitWriter := ({} : BitWriter).push 3 3
  let (w, _) := pieces.foldl
    (fun (acc : BitWriter × Nat) p =>
      let w := pushLiterals data acc.2 acc.1 p.literals
      (pushCopy w p.length p.distance, acc.2 + p.literals + p.length))
    (head, 0)
  (pushSymbol (pushLiterals data rest w (data.size - rest)) endOfBlock).finish

/-- Encodes data at a level of at most `maxLevel`. -/
def encode (level : Nat) (data : ByteArray) : ByteArray :=
  if level = 0 then store data else compress data

end CacheLayer.Compression.Deflate
