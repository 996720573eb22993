import CacheLayer.Compression.Zstd.Literals
/-!
# The sequences section of a block

A sequence inserts some literals and then repeats earlier output. Its three numbers are coded
together: each has a state whose symbol gives a base and a number of extra bits. Small offset values
stand for one of the three offsets used last.
-/

namespace CacheLayer.Compression.Zstd

/-- The bases and extra bits of literal lengths. -/
def literalLengthEntries : Array (Nat × Nat) :=
  #[(0, 0), (1, 0), (2, 0), (3, 0), (4, 0), (5, 0), (6, 0), (7, 0), (8, 0), (9, 0), (10, 0),
    (11, 0), (12, 0), (13, 0), (14, 0), (15, 0), (16, 1), (18, 1), (20, 1), (22, 1), (24, 2),
    (28, 2), (32, 3), (40, 3), (48, 4), (64, 6), (128, 7), (256, 8), (512, 9), (1024, 10),
    (2048, 11), (4096, 12), (8192, 13), (16384, 14), (32768, 15), (65536, 16)]

/-- The bases and extra bits of match lengths. -/
def matchLengthEntries : Array (Nat × Nat) :=
  ((List.range 32).map fun i => (i + 3, 0)).toArray ++
  #[(35, 1), (37, 1), (39, 1), (41, 1), (43, 2), (47, 2), (51, 3), (59, 3), (67, 4), (83, 4),
    (99, 5), (131, 7), (259, 8), (515, 9), (1027, 10), (2051, 11), (4099, 12), (8195, 13),
    (16387, 14), (32771, 15), (65539, 16)]

/-- The most symbols for offsets. -/
def offsetSymbols : Nat := 32

/-- The distribution of literal lengths when a block brings none. -/
def standardLiteralLengths : Distribution :=
  ⟨6, #[4, 3, 2, 2, 2, 2, 2, 2, 2, 2, 2, 2, 2, 1, 1, 1, 2, 2, 2, 2, 2, 2, 2, 2, 2, 3, 2, 1, 1, 1,
    1, 1, -1, -1, -1, -1]⟩

/-- The distribution of match lengths when a block brings none. -/
def standardMatchLengths : Distribution :=
  ⟨6, #[1, 4, 3, 2, 2, 2, 2, 2, 2, 1, 1, 1, 1, 1, 1, 1, 1, 1, 1, 1, 1, 1, 1, 1, 1, 1, 1, 1, 1, 1,
    1, 1, 1, 1, 1, 1, 1, 1, 1, 1, 1, 1, 1, 1, 1, 1, -1, -1, -1, -1, -1, -1, -1]⟩

/-- The distribution of offsets when a block brings none. -/
def standardOffsets : Distribution :=
  ⟨5, #[1, 1, 1, 1, 1, 1, 2, 2, 2, 1, 1, 1, 1, 1, 1, 1, 1, 1, 1, 1, 1, 1, 1, 1, -1, -1, -1, -1,
    -1]⟩

/-- The code for literal lengths when a block brings none. -/
def standardLiteralLengthTable : FseTable := .ofDistribution standardLiteralLengths

/-- The code for match lengths when a block brings none. -/
def standardMatchLengthTable : FseTable := .ofDistribution standardMatchLengths

/-- The code for offsets when a block brings none. -/
def standardOffsetTable : FseTable := .ofDistribution standardOffsets

/-- The codes for the numbers of a sequence. -/
structure SequenceCodes where
  literalLengths : FseTable
  offsets : FseTable
  matchLengths : FseTable

/-- The three offsets used last. -/
structure RecentOffsets where
  first : Nat := 1
  second : Nat := 4
  third : Nat := 8

namespace RecentOffsets

/-- A new offset becomes the first. -/
def push (r : RecentOffsets) (offset : Nat) : RecentOffsets := ⟨offset, r.first, r.second⟩

/-- The offset that a small value from 0 to 3 stands for, and the offsets after its use. Zero is no
offset. -/
def use (r : RecentOffsets) : Nat → Nat × RecentOffsets
  | 0 => (r.first, r)
  | 1 => (r.second, ⟨r.second, r.first, r.third⟩)
  | 2 => (r.third, ⟨r.third, r.first, r.second⟩)
  | _ => (r.first - 1, ⟨r.first - 1, r.first, r.second⟩)

end RecentOffsets

/-- Reads the code for one of the three numbers, described in the bytes from an index on in one of
four ways: the standard one, a single symbol, a distribution, or the one used last. -/
def readSequenceCode (data : ByteArray) (form start stop symbols maxLog : Nat)
    (standard : FseTable) (last? : Option FseTable) : Option (FseTable × Nat) :=
  match form with
  | 0 => some (standard, start)
  | 1 =>
    let symbol := (byteAt data start).toNat
    if stop ≤ start ∨ symbols ≤ symbol then none else some (.single symbol, start + 1)
  | 2 =>
    match Distribution.read data start stop symbols maxLog with
    | some (d, next) => some (.ofDistribution d, next)
    | none => none
  | _ => last?.map fun t => (t, start)

/-- Reads the number of sequences: the number and the index behind it. -/
def readSequenceCount (data : ByteArray) (start stop : Nat) : Option (Nat × Nat) :=
  let head := (byteAt data start).toNat
  if stop ≤ start then none
  else if head < 128 then some (head, start + 1)
  else if head = 255 then
    if stop < start + 3 then none
    else some (littleEndian data (start + 1) 2 + 0x7F00, start + 3)
  else if stop < start + 2 then none
  else some ((head - 128) * 256 + (byteAt data (start + 1)).toNat, start + 2)

/-- Reads the codes of a section: the codes and the index behind them. -/
def readSequenceCodes (data : ByteArray) (start stop : Nat) (last? : Option SequenceCodes) :
    Option (SequenceCodes × Nat) := do
  if stop ≤ start then none
  else
    let forms := (byteAt data start).toNat
    if forms % 4 ≠ 0 then none
    else
      let (ll, pos) ← readSequenceCode data (forms / 64) (start + 1) stop
        literalLengthEntries.size 9 standardLiteralLengthTable (last?.map (·.literalLengths))
      let (of_, pos) ← readSequenceCode data (forms / 16 % 4) pos stop offsetSymbols 8
        standardOffsetTable (last?.map (·.offsets))
      let (ml, pos) ← readSequenceCode data (forms / 4 % 4) pos stop
        matchLengthEntries.size 9 standardMatchLengthTable (last?.map (·.matchLengths))
      return (⟨ll, of_, ml⟩, pos)

/-- The states of the three codes while sequences are read. -/
structure SequenceStates where
  literalLength : Nat
  offset : Nat
  matchLength : Nat
  bits : BackwardBits

/-- Reads the offset of a sequence: the offset, the recent offsets after it, and the stream. -/
def readOffset (data : ByteArray) (symbol literalLengthBase : Nat) (recent : RecentOffsets)
    (bits : BackwardBits) : Nat × RecentOffsets × BackwardBits :=
  if 2 ≤ symbol then
    let offset := (1 <<< symbol) - 3 + bits.peek data symbol
    (offset, recent.push offset, bits.skip symbol)
  else
    let shift := if literalLengthBase = 0 then 1 else 0
    let value := if symbol = 0 then shift else 1 + shift + bits.peek data 1
    let (offset, recent) := recent.use value
    (offset, recent, bits.skip symbol)

/-- Reads and carries out `n` sequences. The output of the block starts at `start`; it may have at
most `limit` bytes and reaches back to `origin` for its matches. -/
def runSequences (data : ByteArray) (codes : SequenceCodes) (literals : ByteArray)
    (origin start limit : Nat) :
    Nat → SequenceStates → RecentOffsets → Nat → ByteArray →
      Option (RecentOffsets × Nat × ByteArray)
  | 0, states, recent, used, out =>
    if states.bits.AtEnd then some (recent, used, out) else none
  | n + 1, states, recent, used, out =>
    let ll := codes.literalLengths.cell states.literalLength
    let of_ := codes.offsets.cell states.offset
    let ml := codes.matchLengths.cell states.matchLength
    let (llBase, llBits) := literalLengthEntries.getD ll.symbol (0, 0)
    let (mlBase, mlBits) := matchLengthEntries.getD ml.symbol (0, 0)
    let (offset, recent, bits) := readOffset data of_.symbol llBase recent states.bits
    let matchLength := mlBase + bits.peek data mlBits
    let bits := bits.skip mlBits
    let literalLength := llBase + bits.peek data llBits
    let bits := bits.skip llBits
    -- The states do not move on behind the last sequence.
    let states :=
      if n = 0 then { states with bits }
      else
        let llNext := FseTable.next data ll bits
        let bits := bits.skip ll.bits
        let mlNext := FseTable.next data ml bits
        let bits := bits.skip ml.bits
        let ofNext := FseTable.next data of_ bits
        ⟨llNext, ofNext, mlNext, bits.skip of_.bits⟩
    if literals.size < used + literalLength then none
    else if start + limit < out.size + literalLength + matchLength then none
    else
      let out := pushSlice out literals used literalLength
      -- A match stays inside of its frame.
      if offset = 0 ∨ out.size < origin + offset then none
      else
        runSequences data codes literals origin start limit n states recent
          (used + literalLength) (pushBack out offset matchLength)

end CacheLayer.Compression.Zstd
