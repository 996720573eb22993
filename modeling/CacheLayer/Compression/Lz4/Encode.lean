import CacheLayer.Compression.Decoder
import CacheLayer.Compression.Factoring
/-!
# Encoding LZ4 blocks

A block behind its uncompressed size. The last five bytes are literals, and no copy starts in the
last twelve.
-/

namespace CacheLayer.Compression.Lz4

/-- The most bytes that can be encoded. -/
def maxInput : Nat := 0x7E000000

/-- The copies of the format. -/
def scope : Scope := ⟨maxInput, 65535, 12, 5, 1⟩

/-- The four bits of a length in the token. -/
def nibble (n : Nat) : Nat := min n 15

/-- Appends what of a length is not in the token. -/
def pushLength (out : ByteArray) (n : Nat) : ByteArray :=
  if n < 15 then out else (pushTimes out 255 ((n - 15) / 255)).push ((n - 15) % 255).toUInt8

/-- Appends the token, the lengths and the literals in front of a copy of `length` bytes. -/
def pushPiece (data : ByteArray) (start : Nat) (p : Piece) (out : ByteArray) : ByteArray :=
  let extra := p.length - 4
  let out := out.push (16 * nibble p.literals + nibble extra).toUInt8
  let out := pushSlice (pushLength out p.literals) data start p.literals
  pushLength (pushLittleEndian out p.distance 2) extra

/-- Appends the last literals. -/
def pushLast (data : ByteArray) (start : Nat) (out : ByteArray) : ByteArray :=
  let n := data.size - start
  pushSlice (pushLength (out.push (16 * nibble n).toUInt8) n) data start n

/-- Encodes data as its size and a block. -/
def encode (data : ByteArray) : Except Fault ByteArray :=
  if maxInput < data.size then .error (.malformed "input is too long")
  else
    let (pieces, rest) := factor scope data 0 data.size
    let (out, _) := pieces.foldl
      (fun (acc : ByteArray × Nat) p =>
        (pushPiece data acc.2 p acc.1, acc.2 + p.literals + p.length))
      (pushLittleEndian .empty data.size 4, 0)
    .ok (pushLast data rest out)

end CacheLayer.Compression.Lz4
