import CacheLayer.Compression.Bits
/-!
# Canonical prefix codes

A code is given by the length of each symbol's code word. Words of one length are consecutive
numbers in the order of their symbols, and shorter words come before longer ones, so the lengths
determine the code. Words are sent with the most significant bit first.
-/

namespace CacheLayer.Compression.Deflate

/-- The longest code word. -/
def maxWord : Nat := 15

/-- A canonical prefix code. -/
structure PrefixCode where
  /-- How many words there are of each length. -/
  counts : Array Nat
  /-- The symbols in the order of their words. -/
  symbols : Array Nat

namespace PrefixCode

/-- The symbols with words of the given length, in ascending order. -/
def symbolsOf (lengths : Array Nat) (length : Nat) : List Nat :=
  (List.range lengths.size).filter fun s => lengths.getD s 0 = length

/-- The code with the given word lengths; a symbol of length zero has no word. -/
def ofLengths (lengths : Array Nat) : PrefixCode :=
  let groups := (List.range (maxWord + 1)).map fun n => if n = 0 then [] else symbolsOf lengths n
  { counts := (groups.map List.length).toArray
    symbols := groups.flatten.toArray }

/-- The share of all words of length 15 that the code uses up. -/
def weight (c : PrefixCode) : Nat :=
  (List.range (maxWord + 1)).foldl (fun acc n => acc + (c.counts.getD n 0 <<< (maxWord - n))) 0

/-- Whether every sequence of bits starts with exactly one word. -/
def IsComplete (c : PrefixCode) : Prop := c.weight = 1 <<< maxWord

instance (c : PrefixCode) : Decidable c.IsComplete := inferInstanceAs (Decidable (_ = _))

/-- Whether a code may be used: it is complete, or it has at most one word. -/
def IsUsable (c : PrefixCode) : Prop := c.IsComplete ∨ c.symbols.size ≤ 1

instance (c : PrefixCode) : Decidable c.IsUsable := inferInstanceAs (Decidable (_ ∨ _))

/-- Looks for the word at the front of the bits: words of `length` bits are considered next, `word`
holds the bits in front as a number, `first` is the first word of that length and `index` its place
among the symbols. -/
def search (c : PrefixCode) (bits : UInt64) (length word first index : Nat) :
    Nat → Option (Nat × Nat)
  | 0 => none
  | fuel + 1 =>
    let word := 2 * word + (bits &&& 1).toNat
    let count := c.counts.getD length 0
    if word < first + count then some (c.symbols.getD (index + (word - first)) 0, length)
    else search c (bits >>> 1) (length + 1) word (2 * (first + count)) (index + count) fuel

/-- The symbol of the word at a position and the number of its bits. -/
def symbolAt (c : PrefixCode) (data : ByteArray) (pos : Nat) : Option (Nat × Nat) :=
  c.search (window data pos) 1 0 0 0 maxWord

end PrefixCode

end CacheLayer.Compression.Deflate
