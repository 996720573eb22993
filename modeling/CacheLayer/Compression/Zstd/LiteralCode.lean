import CacheLayer.Compression.Zstd.Fse
/-!
# Codes for literals

A prefix code for bytes is sent as one weight per byte: a byte of weight `w` takes up `2 ^ (w - 1)`
of the `2 ^ log` rows of the table, and a word is as long as the number of bits that single out its
rows. The weight of the last byte is not sent, it fills the table.
-/

namespace CacheLayer.Compression.Zstd

/-- A prefix code for bytes: each row holds a byte and the length of its word. -/
structure LiteralCode where
  log : Nat
  rows : Array (UInt8 × Nat)

namespace LiteralCode

/-- The longest word. -/
def maxLog : Nat := 12

/-- The most weights that are sent. -/
def maxWeights : Nat := 255

/-- Reads weights of four bits each. -/
def plainWeights (data : ByteArray) (start count : Nat) : List Nat :=
  (List.range count).map fun i =>
    let b := (byteAt data (start + i / 2)).toNat
    if i % 2 = 0 then b / 16 else b % 16

/-- Reads weights from two states in turn until a state reaches in front of the stream; the other
state then gives the last weight. -/
def codedWeights (data : ByteArray) (table : FseTable) :
    Nat → Nat → Nat → BackwardBits → List Nat → Option (List Nat)
  | 0, _, _, _, _ => none
  | fuel + 1, state, other, bits, weights =>
    if maxWeights < weights.length + 2 then none
    else
      let cell := table.cell state
      let next := FseTable.next data cell bits
      let bits := bits.skip cell.bits
      let weights := cell.symbol :: weights
      if bits.left < 0 then some ((table.cell other).symbol :: weights).reverse
      else codedWeights data table fuel other next bits weights

/-- Reads weights that are coded by a distribution of their own. -/
def readCodedWeights (data : ByteArray) (start stop : Nat) : Option (List Nat) := do
  let (distribution, pos) ← Distribution.read data start stop 256 6
  let table := FseTable.ofDistribution distribution
  let bits ← BackwardBits.ofSection data pos stop
  let first := bits.peek data table.log
  let bits := bits.skip table.log
  let second := bits.peek data table.log
  let bits := bits.skip table.log
  if bits.left < 0 then none
  else codedWeights data table (maxWeights + 1) first second bits []

/-- Reads the weights that are sent: the weights and the index behind them. -/
def readWeights (data : ByteArray) (start stop : Nat) : Option (List Nat × Nat) :=
  if stop ≤ start then none
  else
    let head := (byteAt data start).toNat
    if 128 ≤ head then
      let count := head - 127
      let next := start + 1 + (count + 1) / 2
      if stop < next then none else some (plainWeights data (start + 1) count, next)
    else
      let next := start + 1 + head
      if stop < next then none
      else (readCodedWeights data (start + 1) next).map fun weights => (weights, next)

/-- How many rows a weight takes up. -/
def rowsOf (weight : Nat) : Nat := if weight = 0 then 0 else 1 <<< (weight - 1)

/-- All weights of a code, the last one filling the table, and the logarithm of its size. -/
def complete (weights : List Nat) : Option (List Nat × Nat) :=
  let total := weights.foldl (fun acc w => acc + rowsOf w) 0
  let log := total.log2 + 1
  -- The last weight is not sent: it stands for what is left of the table.
  let rest := (1 <<< log) - total
  let all := weights ++ [rest.log2 + 1]
  if weights.any (fun w => maxLog < w) ∨ total = 0 ∨ maxLog < log then none
  else if 1 <<< rest.log2 ≠ rest then none
  else if all.count 1 < 2 ∨ all.count 1 % 2 = 1 then none
  else some (all, log)

/-- The code with the given weights. Rows go to lighter bytes first. -/
def ofWeights (weights : List Nat) (log : Nat) : LiteralCode :=
  let rows := (List.range (log + 1)).foldl
    (fun (rows : Array (UInt8 × Nat)) w =>
      weights.zipIdx.foldl
        (fun rows (p : Nat × Nat) =>
          if p.1 = w ∧ w ≠ 0 then
            rows ++ Array.replicate (rowsOf w) (p.2.toUInt8, log + 1 - w)
          else rows) rows) #[]
  ⟨log, rows⟩

/-- Reads a code: the code and the index behind it. -/
def read (data : ByteArray) (start stop : Nat) : Option (LiteralCode × Nat) := do
  let (weights, next) ← readWeights data start stop
  let (all, log) ← complete weights
  return (ofWeights all log, next)

/-- Decodes `n` bytes. -/
def decodeBytes (data : ByteArray) (c : LiteralCode) :
    Nat → BackwardBits → ByteArray → BackwardBits × ByteArray
  | 0, bits, out => (bits, out)
  | n + 1, bits, out =>
    let (b, length) := c.rows.getD (bits.peek data c.log) (0, 0)
    decodeBytes data c n (bits.skip length) (out.push b)

/-- Decodes a stream of `n` bytes that has to end with the last of them. -/
def decodeStream (data : ByteArray) (c : LiteralCode) (start stop n : Nat) (out : ByteArray) :
    Option ByteArray := do
  let bits ← BackwardBits.ofSection data start stop
  let (bits, out) := decodeBytes data c n bits out
  if bits.AtEnd then some out else none

/-- Decodes `n` bytes from four streams, whose sizes stand in front of them. -/
def decodeStreams (data : ByteArray) (c : LiteralCode) (start stop n : Nat) : Option ByteArray := do
  if stop < start + 10 then none
  else
    let first := start + 6
    let second := first + littleEndian data start 2
    let third := second + littleEndian data (start + 2) 2
    let fourth := third + littleEndian data (start + 4) 2
    let part := (n + 3) / 4
    if stop < fourth ∨ n < 3 * part then none
    else
      let out ← decodeStream data c first second part .empty
      let out ← decodeStream data c second third part out
      let out ← decodeStream data c third fourth part out
      decodeStream data c fourth stop (n - 3 * part) out

end LiteralCode

end CacheLayer.Compression.Zstd
