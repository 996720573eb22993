import CacheLayer.Compression.Decoder
import CacheLayer.Compression.Deflate.Tables
/-!
# Decoding deflate streams

The machine that decodes a raw deflate stream. One step reads a block header, copies a stored block,
or decodes one symbol. A distance may reach in front of the output, where zeros stand. The stream
ends behind its final block; what follows is left alone.
-/

namespace CacheLayer.Compression.Deflate

/-- What the next step decodes. -/
inductive Mode where
  /-- The header of a block. -/
  | header
  /-- A symbol of a block; `last` tells whether it is the final block. -/
  | symbols (literals distances : PrefixCode) (last : Bool)

/-- Where a decoder stands. -/
structure State where
  /-- The position of the next bit. -/
  pos : Nat
  /-- The bytes produced so far. -/
  out : ByteArray
  mode : Mode

/-- What one step of the stream leads to. -/
inductive Progress where
  /-- More blocks or symbols follow. -/
  | more (state : State)
  /-- The stream has ended in front of a bit. -/
  | ended (pos : Nat) (out : ByteArray)
  /-- The stream is malformed. -/
  | bad (what : String)

/-- The fault of a stream that stops in the middle. -/
def truncated : String := "deflate stream ended early"

/-- The state behind a block. -/
def closeBlock (last : Bool) (pos : Nat) (out : ByteArray) : Progress :=
  if last then .ended pos out else .more ⟨pos, out, .header⟩

/-- Reads a stored block: its size, the complement of its size, and its bytes. -/
def storedBlock (data : ByteArray) (last : Bool) (pos : Nat) (out : ByteArray) : Progress :=
  -- The bits up to the next byte do not count.
  let start := (pos + 7) / 8
  let size := littleEndian data start 2
  let check := littleEndian data (start + 2) 2
  if data.size < start + 4 then .bad truncated
  else if size + check ≠ 0xFFFF then .bad "stored block has a wrong size"
  else if data.size < start + 4 + size then .bad truncated
  else closeBlock last (8 * (start + 4 + size)) (pushSlice out data (start + 4) size)

/-- Reads the word lengths of the code for word lengths, three bits each. -/
def lengthCodeLengths (data : ByteArray) (pos count : Nat) : Array Nat :=
  (List.range count).foldl
    (fun lengths i => lengths.set! (lengthCodeOrder.getD i 0) (bitsAt data (pos + 3 * i) 3))
    (Array.replicate 19 0)

/-- Reads word lengths until there are `total` of them: the lengths and the position behind them.
Each step takes one unit of fuel and adds at least one length. -/
def wordLengths (data : ByteArray) (code : PrefixCode) (total : Nat) :
    Nat → Nat → Array Nat → Option (Array Nat × Nat)
  | 0, _, _ => none
  | fuel + 1, pos, lengths =>
    if lengths.size = total then some (lengths, pos)
    else if total < lengths.size then none
    else
      match code.symbolAt data pos with
      | none => none
      | some (symbol, n) =>
        let pos := pos + n
        -- A symbol below 16 is a length; the others repeat the last length or zero.
        if symbol < 16 then wordLengths data code total fuel pos (lengths.push symbol)
        else if symbol = 16 then
          match lengths.back? with
          | none => none
          | some previous =>
            wordLengths data code total fuel (pos + 2)
              (lengths ++ Array.replicate (3 + bitsAt data pos 2) previous)
        else if symbol = 17 then
          wordLengths data code total fuel (pos + 3)
            (lengths ++ Array.replicate (3 + bitsAt data pos 3) 0)
        else
          wordLengths data code total fuel (pos + 7)
            (lengths ++ Array.replicate (11 + bitsAt data pos 7) 0)

/-- Reads the two codes in front of a block that brings its own. -/
def dynamicBlock (data : ByteArray) (last : Bool) (pos : Nat) (out : ByteArray) : Progress :=
  let literals := bitsAt data pos 5 + 257
  let distances := bitsAt data (pos + 5) 5 + 1
  let codeLengths := bitsAt data (pos + 10) 4 + 4
  let start := pos + 14 + 3 * codeLengths
  let code := PrefixCode.ofLengths (lengthCodeLengths data (pos + 14) codeLengths)
  if 286 < literals ∨ 30 < distances then .bad "too many symbols"
  else if ¬ code.IsComplete then .bad "code for lengths is not complete"
  else
    match wordLengths data code (literals + distances) (literals + distances + 1) start #[] with
    | none => .bad "word lengths are malformed"
    | some (lengths, pos) =>
      let literalCode := PrefixCode.ofLengths (lengths.extract 0 literals)
      let distanceCode := PrefixCode.ofLengths (lengths.extract literals (literals + distances))
      -- The two codes are read in one row: a run of lengths may cross from one into the other.
      if 8 * data.size < pos then .bad truncated
      else if literalCode.IsUsable ∧ distanceCode.IsUsable then
        .more ⟨pos, out, .symbols literalCode distanceCode last⟩
      else .bad "code is not complete"

/-- Reads the header of a block and what belongs to it. -/
def blockHeader (data : ByteArray) (pos : Nat) (out : ByteArray) : Progress :=
  if 8 * data.size < pos + 3 then .bad truncated
  else
    let last := bitsAt data pos 1 = 1
    match bitsAt data (pos + 1) 2 with
    | 0 => storedBlock data last (pos + 3) out
    | 1 => .more ⟨pos + 3, out, .symbols fixedLiterals fixedDistances last⟩
    | 2 => dynamicBlock data last (pos + 3) out
    | _ => .bad "unknown block type"

/-- Reads the distance behind a length and copies. -/
def copyMatch (data : ByteArray) (literals distances : PrefixCode) (last : Bool)
    (pos length : Nat) (out : ByteArray) : Progress :=
  match distances.symbolAt data pos with
  | none => .bad "unknown distance"
  | some (symbol, n) =>
    match distanceEntries[symbol]? with
    | none => .bad "unknown distance"
    | some (base, extra) =>
      let pos := pos + n
      let distance := base + bitsAt data pos extra
      if 8 * data.size < pos + extra then .bad truncated
      else .more ⟨pos + extra, pushBack out distance length, .symbols literals distances last⟩

/-- Decodes one symbol of a block. -/
def blockSymbol (data : ByteArray) (literals distances : PrefixCode) (last : Bool)
    (pos : Nat) (out : ByteArray) : Progress :=
  match literals.symbolAt data pos with
  | none => .bad "unknown symbol"
  | some (symbol, n) =>
    let pos := pos + n
    if 8 * data.size < pos then .bad truncated
    else if symbol < endOfBlock then
      .more ⟨pos, out.push symbol.toUInt8, .symbols literals distances last⟩
    else if symbol = endOfBlock then closeBlock last pos out
    else
      match lengthEntries[symbol - (endOfBlock + 1)]? with
      | none => .bad "unknown symbol"
      | some (base, extra) =>
        copyMatch data literals distances last (pos + extra) (base + bitsAt data pos extra) out

/-- One step of the stream. -/
def State.next (data : ByteArray) (s : State) : Progress :=
  let ⟨pos, out, mode⟩ := s
  match mode with
  | .header => blockHeader data pos out
  | .symbols literals distances last => blockSymbol data literals distances last pos out

/-- The state in front of a stream. -/
def State.start (pos : Nat) : State := ⟨pos, .empty, .header⟩

/-- A number of steps in which every stream in the data ends. -/
def stepsFor (data : ByteArray) : Nat := 8 * data.size + 2

/-- The decoder of a raw deflate stream. -/
def decoder (data : ByteArray) : Decoder State where
  step s :=
    match s.next data with
    | .more s => .more s
    | .ended _ out => .done out
    | .bad what => .fault (.malformed what)
  output s := s.out

/-- What a raw deflate stream holds. -/
def feed (data : ByteArray) : Feed := (decoder data).feed (stepsFor data) (.start 0)

end CacheLayer.Compression.Deflate
