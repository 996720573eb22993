import CacheLayer.Compression.Bits
/-!
# Factoring data into literals and copies

Data is cut into pieces: some literals, then a copy of earlier data. A table keeps the last place of
every four bytes seen; where the four bytes at a place were seen before, they are copied from there,
together with all that agrees behind them. What a format allows is written in a `Scope`.
-/

namespace CacheLayer.Compression

/-- Literals, and a copy of what stands `distance` bytes before. -/
structure Piece where
  /-- How many literals stand in front of the copy. -/
  literals : Nat
  /-- How many bytes are copied. -/
  length : Nat
  distance : Nat

/-- Which copies are looked for. -/
structure Scope where
  maxLength : Nat
  maxDistance : Nat
  /-- How many bytes there have to be behind the start of a copy, at least four. -/
  room : Nat
  /-- How many literals there have to be at the end. -/
  margin : Nat
  /-- How far to go on where nothing is found, at least one. -/
  stride : Nat

namespace Factoring

/-- The number of places in the table. -/
def tableSize : Nat := 1 <<< 14

/-- The place of the four bytes at an index. -/
@[inline] def place (data : ByteArray) (i : Nat) : Nat :=
  let word := window data (8 * i) &&& 0xFFFFFFFF
  ((word * 2654435761) >>> 18).toNat % tableSize

/-- How many bytes from two indices on agree, at most as many as the fuel. -/
def agreement (data : ByteArray) (i j : Nat) : Nat → Nat → Nat
  | 0, n => n
  | fuel + 1, n =>
    if byteAt data (i + n) = byteAt data (j + n) then agreement data i j fuel (n + 1) else n

/-- The length of the copy at `pos` of what stands at `source`, zero if it is of no use. -/
def copyLength (scope : Scope) (data : ByteArray) (stop source pos : Nat) : Nat :=
  let length :=
    if pos - source ≤ scope.maxDistance then
      agreement data source pos (min scope.maxLength (stop - scope.margin - pos)) 0
    else 0
  if length < 4 then 0 else length

/-- Finds the pieces from `pos` on, while the literals since `anchor` belong to no piece yet. The
table holds one more than an index, zero for none. -/
def pieces (scope : Scope) (data : ByteArray) (stop : Nat) :
    Nat → Nat → Nat → Array Nat → Array Piece → Array Piece × Nat
  | 0, _, anchor, _, acc => (acc, anchor)
  | fuel + 1, pos, anchor, table, acc =>
    if stop < pos + scope.room then (acc, anchor)
    else
      let place := place data pos
      let seen := table.getD place 0
      let table := table.set! place (pos + 1)
      let length := if seen = 0 then 0 else copyLength scope data stop (seen - 1) pos
      if length = 0 then pieces scope data stop fuel (pos + scope.stride) anchor table acc
      else
        pieces scope data stop fuel (pos + length) (pos + length) table
          (acc.push ⟨pos - anchor, length, pos + 1 - seen⟩)

end Factoring

/-- The pieces of the data between two indices, and the index where its last literals begin. -/
def factor (scope : Scope) (data : ByteArray) (start stop : Nat) : Array Piece × Nat :=
  Factoring.pieces scope data stop (stop - start) start start
    (Array.replicate Factoring.tableSize 0) #[]

/-- The index of the last entry whose base is at most a value. -/
def entryOf (entries : Array (Nat × Nat)) (value : Nat) : Nat :=
  entries.size - 1 - (entries.reverse.findIdx fun e => e.1 ≤ value)

end CacheLayer.Compression
