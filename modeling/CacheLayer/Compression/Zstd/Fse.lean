import CacheLayer.Compression.Zstd.BackwardBits
/-!
# Finite state entropy codes

A distribution gives every symbol a share of the `2 ^ log` states; a share of -1 stands for one
state whose code restarts. The table lists the states: the symbol of a state, and where the next one
is found.
-/

namespace CacheLayer.Compression.Zstd

/-- A distribution of states over symbols. -/
structure Distribution where
  /-- The binary logarithm of the number of states. -/
  log : Nat
  /-- The share of each symbol; -1 for a symbol that is less likely than one state. -/
  shares : Array Int

/-- A state: its symbol, and the next state as a base plus a number in some bits. -/
structure FseCell where
  symbol : Nat
  bits : Nat
  base : Nat
deriving Inhabited

/-- The states of a code. -/
structure FseTable where
  log : Nat
  cells : Array FseCell

namespace Distribution

/-- Reads how many symbols have no share, in groups of two bits; a group of three is followed by
another. Each group takes one unit of fuel. -/
def readZeros (data : ByteArray) : Nat → Nat → Nat → Nat × Nat
  | 0, pos, count => (count, pos)
  | fuel + 1, pos, count =>
    let n := bitsAt data pos 2
    if n = 3 then readZeros data fuel (pos + 2) (count + 3) else (count + n, pos + 2)

/-- Reads the share of a symbol while `remaining` is one more than the number of states left: the
share and the number of its bits. -/
def readShare (data : ByteArray) (pos remaining : Nat) : Int × Nat :=
  let bits := remaining.log2
  let threshold := 1 <<< bits
  let spare := 2 * threshold - 1 - remaining
  -- With `bits` bits one could tell `threshold` shares apart; the first `spare` of them are the
  -- only ones that get along without another bit.
  let low := bitsAt data pos bits
  if low < spare then ((low : Int) - 1, bits)
  else
    let full := bitsAt data pos (bits + 1)
    (((if threshold ≤ full then full - spare else full : Nat) : Int) - 1, bits + 1)

/-- Reads shares until every state is given to a symbol. At most `symbols` symbols may have one.
Each share takes one unit of fuel. -/
def readShares (data : ByteArray) (symbols : Nat) :
    Nat → Nat → Nat → Array Int → Option (Array Int × Nat)
  | 0, _, _, _ => none
  | fuel + 1, pos, remaining, shares =>
    if symbols ≤ shares.size then none
    else
      let (share, n) := readShare data pos remaining
      let pos := pos + n
      let shares := shares.push share
      let used := share.natAbs
      if remaining ≤ used then none
      else if remaining - used = 1 then some (shares, pos)
      -- A share of zero is followed by the number of further zeros.
      else if share = 0 then
        let (zeros, pos) := readZeros data symbols pos 0
        readShares data symbols fuel pos (remaining - used) (shares ++ Array.replicate zeros 0)
      else readShares data symbols fuel pos (remaining - used) shares

/-- Reads a distribution over at most `symbols` symbols from the bytes between two indices: the
distribution and the index behind it. -/
def read (data : ByteArray) (start stop symbols maxLog : Nat) : Option (Distribution × Nat) :=
  let log := bitsAt data (8 * start) 4 + 5
  if stop ≤ start ∨ maxLog < log then none
  else
    match readShares data symbols (symbols + 1) (8 * start + 4) ((1 <<< log) + 1) #[] with
    | none => none
    | some (shares, pos) =>
      let next := (pos + 7) / 8
      if stop < next then none else some (⟨log, shares⟩, next)

end Distribution

namespace FseTable

/-- Gives the states at the end of the table to the symbols that are less likely than one state. -/
def placeRare (shares : Array Int) (cells : Array Nat) : Array Nat × Nat :=
  shares.zipIdx.foldl
    (fun (acc : Array Nat × Nat) (p : Int × Nat) =>
      if p.1 = -1 then (acc.1.set! (acc.2 - 1) p.2, acc.2 - 1) else acc)
    (cells, cells.size)

/-- The next free place for a state: places move on by a fixed step and pass over those from `high`
on. -/
def nextPlace (size high : Nat) : Nat → Nat → Nat
  | 0, place => place
  | fuel + 1, place =>
    let place := (place + size / 2 + size / 8 + 3) % size
    if place < high then place else nextPlace size high fuel place

/-- Gives `n` states to a symbol, from a place on. -/
def spreadSymbol (high symbol : Nat) : Nat → Array Nat × Nat → Array Nat × Nat
  | 0, acc => acc
  | n + 1, (cells, place) =>
    spreadSymbol high symbol n
      (cells.set! place symbol, nextPlace cells.size high cells.size place)

/-- The symbol of each state. -/
def spread (d : Distribution) : Array Nat :=
  let (cells, high) := placeRare d.shares (Array.replicate (1 <<< d.log) 0)
  (d.shares.zipIdx.foldl
    (fun (acc : Array Nat × Nat) (p : Int × Nat) => spreadSymbol high p.2 p.1.toNat acc)
    (cells, 0)).1

/-- The states of a distribution. The states of a symbol are numbered on from its share, and the
number of a state decides how many bits lead to the next one. -/
def ofDistribution (d : Distribution) : FseTable :=
  let size := 1 <<< d.log
  let numbers := d.shares.map fun s => if s = -1 then 1 else s.toNat
  let (cells, _) := (spread d).foldl
    (fun (acc : Array FseCell × Array Nat) symbol =>
      let number := acc.2.getD symbol 1
      let bits := d.log - number.log2
      (acc.1.push ⟨symbol, bits, (number <<< bits) - size⟩, acc.2.set! symbol (number + 1)))
    (Array.mkEmpty size, numbers)
  ⟨d.log, cells⟩

/-- The code with a single symbol, which takes no bits. -/
def single (symbol : Nat) : FseTable := ⟨0, #[⟨symbol, 0, 0⟩]⟩

/-- The cell of a state. -/
@[inline] def cell (t : FseTable) (state : Nat) : FseCell := t.cells.getD state default

/-- The state behind a cell. -/
@[inline] def next (data : ByteArray) (c : FseCell) (b : BackwardBits) : Nat :=
  c.base + b.peek data c.bits

end FseTable

end CacheLayer.Compression.Zstd
