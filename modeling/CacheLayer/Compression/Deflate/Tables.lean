import CacheLayer.Compression.Deflate.PrefixCode
/-!
# Lengths, distances and the fixed code

What the symbols of a deflate stream stand for. A length or distance is the base of its symbol plus
a number in as many extra bits as the symbol asks for.
-/

namespace CacheLayer.Compression.Deflate

/-- The symbol that ends a block. -/
def endOfBlock : Nat := 256

/-- The base and the extra bits of a length symbol. -/
def lengthEntries : Array (Nat × Nat) :=
  #[(3, 0), (4, 0), (5, 0), (6, 0), (7, 0), (8, 0), (9, 0), (10, 0), (11, 1), (13, 1), (15, 1),
    (17, 1), (19, 2), (23, 2), (27, 2), (31, 2), (35, 3), (43, 3), (51, 3), (59, 3), (67, 4),
    (83, 4), (99, 4), (115, 4), (131, 5), (163, 5), (195, 5), (227, 5), (258, 0)]

/-- The base and the extra bits of a distance symbol. -/
def distanceEntries : Array (Nat × Nat) :=
  #[(1, 0), (2, 0), (3, 0), (4, 0), (5, 1), (7, 1), (9, 2), (13, 2), (17, 3), (25, 3), (33, 4),
    (49, 4), (65, 5), (97, 5), (129, 6), (193, 6), (257, 7), (385, 7), (513, 8), (769, 8),
    (1025, 9), (1537, 9), (2049, 10), (3073, 10), (4097, 11), (6145, 11), (8193, 12), (12289, 12),
    (16385, 13), (24577, 13)]

/-- The word lengths of the fixed code for literals and lengths. -/
def fixedLengths : Array Nat :=
  Array.replicate 144 8 ++ Array.replicate 112 9 ++ Array.replicate 24 7 ++ Array.replicate 8 8

/-- The fixed code for literals and lengths. -/
def fixedLiterals : PrefixCode := .ofLengths fixedLengths

/-- The fixed code for distances. -/
def fixedDistances : PrefixCode := .ofLengths (Array.replicate 32 5)

/-- The order in which the lengths of the code for lengths are sent. -/
def lengthCodeOrder : Array Nat :=
  #[16, 17, 18, 0, 8, 7, 9, 6, 10, 5, 11, 4, 12, 3, 13, 2, 14, 1, 15]

end CacheLayer.Compression.Deflate
