import CacheLayer.Json.Token
/-!
# Reading JSON

Readers for whole values and the punctuation between them. Values may be nested 127 deep. A text is
read to its end: `readAll` refuses anything but blanks behind the value.
-/

namespace CacheLayer.Json

/-- A reader may enter one array or object less than this. -/
def maxDepth : Nat := 128

/-- Reads a value behind the blanks in front of it; at the end of the text there is none. -/
def withToken {α : Type} (read : UInt8 → List UInt8 → Except Stop (α × List UInt8)) : Reader α :=
  fun text =>
    match skipSpace text with
    | [] => stopPast .endInValue []
    | b :: rest => read b rest

/-- The reader inside an array or object, if it may be entered with the given number of levels
left; `text` is what starts with its opening mark. -/
def entering {α : Type} (depth : Nat) (text : List UInt8) (inside : Nat → Except Stop α) :
    Except Stop α :=
  if depth ≤ 1 then stopPast .tooDeep text else inside (depth - 1)

/-! ## Punctuation -/

/-- Reads the closing bracket of an array whose elements have been read. -/
def closeArray (text : List UInt8) : Except Stop (List UInt8) :=
  match skipSpace text with
  | 0x5D :: rest => .ok rest
  | 0x2C :: rest =>
    match skipSpace rest with
    | 0x5D :: rest => stopPast .trailingComma (0x5D :: rest)
    | rest => stopPast .trailingCharacters rest
  | [] => stopPast .endInList []
  | rest => stopPast .trailingCharacters rest

/-- Reads the closing brace of an object whose fields have been read. -/
def closeObject (text : List UInt8) : Except Stop (List UInt8) :=
  match skipSpace text with
  | 0x7D :: rest => .ok rest
  | 0x2C :: rest => stopPast .trailingComma (0x2C :: rest)
  | [] => stopPast .endInObject []
  | rest => stopPast .trailingCharacters rest

/-- Goes to the next element of an array: the text it starts with, or `none` in front of the closing
bracket. -/
def nextElement (first : Bool) (text : List UInt8) : Except Stop (Option (List UInt8)) :=
  match skipSpace text with
  | [] => stopPast .endInList []
  | 0x5D :: _ => .ok none
  | b :: rest =>
    if first then .ok (some (b :: rest))
    else if b = 0x2C then
      match skipSpace rest with
      | [] => stopPast .endInValue []
      | 0x5D :: rest => stopPast .trailingComma (0x5D :: rest)
      | rest => .ok (some rest)
    else stopPast .expectedCommaOrBracket (b :: rest)

/-- Goes to the next field of an object: the text behind the opening quote of its name, or `none` in
front of the closing brace. -/
def nextField (first : Bool) (text : List UInt8) : Except Stop (Option (List UInt8)) :=
  match skipSpace text with
  | [] => stopPast .endInObject []
  | 0x7D :: _ => .ok none
  | b :: rest =>
    if first then
      if b = 0x22 then .ok (some rest) else stopPast .keyNotString (b :: rest)
    else if b = 0x2C then
      match skipSpace rest with
      | [] => stopPast .endInValue []
      | 0x22 :: rest => .ok (some rest)
      | 0x7D :: rest => stopPast .trailingComma (0x7D :: rest)
      | rest => stopPast .keyNotString rest
    else stopPast .expectedCommaOrBrace (b :: rest)

/-- Reads the colon behind the name of a field. -/
def readColon (text : List UInt8) : Except Stop (List UInt8) :=
  match skipSpace text with
  | 0x3A :: rest => .ok rest
  | [] => stopPast .endInObject []
  | rest => stopPast .expectedColon rest

/-! ## Values -/

mutual

/-- Reads any value. Each value and each element takes one unit of fuel, so the length of the text
is always enough. -/
def readValueWith (depth : Nat) : Nat → Reader Json
  | 0 => fun text => stopAt .expectedValue text
  | fuel + 1 => withToken fun b rest => do
    if b = 0x6E then return (.null, ← readWord [0x75, 0x6C, 0x6C] rest)
    else if b = 0x74 then return (.bool true, ← readWord [0x72, 0x75, 0x65] rest)
    else if b = 0x66 then return (.bool false, ← readWord [0x61, 0x6C, 0x73, 0x65] rest)
    else if b = 0x2D then
      let (n, rest) ← readMagnitude false rest
      return (.number n, rest)
    else if (digitValue? b).isSome then
      let (n, rest) ← readMagnitude true (b :: rest)
      return (.number n, rest)
    else if b = 0x22 then
      let (s, rest) ← readStringTail rest
      return (.string s, rest)
    else if b = 0x5B then
      entering depth (b :: rest) fun depth => do
        let (vs, rest) ← readElements depth fuel true [] rest
        return (.array vs, ← closeArray rest)
    else if b = 0x7B then
      entering depth (b :: rest) fun depth => do
        let (fs, rest) ← readFields depth fuel true [] rest
        return (.object fs, ← closeObject rest)
    else stopPast .expectedValue (b :: rest)

/-- Reads the elements of an array up to its closing bracket; `acc` holds those read, last
first. -/
def readElements (depth : Nat) : Nat → Bool → List Json → Reader (List Json)
  | 0, _, _ => fun text => stopAt .expectedValue text
  | fuel + 1, first, acc => fun text => do
    match ← nextElement first text with
    | none => return (acc.reverse, text)
    | some text =>
      let (v, rest) ← readValueWith depth fuel text
      readElements depth fuel false (v :: acc) rest

/-- Reads the fields of an object up to its closing brace; `acc` holds those read. -/
def readFields (depth : Nat) :
    Nat → Bool → List (String × Json) → Reader (List (String × Json))
  | 0, _, _ => fun text => stopAt .expectedValue text
  | fuel + 1, first, acc => fun text => do
    match ← nextField first text with
    | none => return (acc, text)
    | some text =>
      let (name, rest) ← readStringTail text
      let rest ← readColon rest
      let (v, rest) ← readValueWith depth fuel rest
      readFields depth fuel false (insertField name v acc) rest

end

/-- Reads any value. -/
def readValue : Reader Json :=
  fun text => readValueWith maxDepth (2 * text.length + 2) text

/-- The container that a reader passing over a value is inside. -/
inductive Frame where
  | list
  | map
deriving DecidableEq

/-- Leaves the containers that end here. `comma` tells whether a comma may follow. The result is the
remaining containers and the text behind the comma, or in front of the first value of the
innermost one; `none` once the outermost container has ended. -/
def leaveFrames (comma : Bool) :
    List Frame → List UInt8 → Except Stop (Option (List Frame) × List UInt8)
  | [], text => .ok (none, text)
  | frame :: frames, text =>
    match skipSpace text with
    | [] => stopPast (if frame = .list then .endInList else .endInObject) []
    | b :: rest =>
      if comma && b = 0x2C then .ok (some (frame :: frames), rest)
      else if (frame = .list && b = 0x5D) || (frame = .map && b = 0x7D) then
        leaveFrames true frames rest
      else if comma then
        stopPast (if frame = .list then .expectedCommaOrBracket else .expectedCommaOrBrace)
          (b :: rest)
      else .ok (some (frame :: frames), b :: rest)

/-- Passes over the name of a field and its colon. -/
def skipName (text : List UInt8) : Except Stop (List UInt8) :=
  match skipSpace text with
  | [] => stopPast .endInObject []
  | 0x22 :: rest => do readColon (← skipText .plain rest)
  | rest => stopPast .keyNotString rest

/-- Passes over one value inside the given containers and then over the rest of them. Each value
takes one unit of fuel. -/
def skipValueWith : Nat → List Frame → List UInt8 → Except Stop (List UInt8)
  | 0, _, text => stopAt .expectedValue text
  | fuel + 1, frames, text =>
    match skipSpace text with
    | [] => stopPast .endInValue []
    | b :: rest => do
      let (opened, rest) ←
        if b = 0x6E then pure (none, ← readWord [0x75, 0x6C, 0x6C] rest)
        else if b = 0x74 then pure (none, ← readWord [0x72, 0x75, 0x65] rest)
        else if b = 0x66 then pure (none, ← readWord [0x61, 0x6C, 0x73, 0x65] rest)
        else if b = 0x2D then pure (none, ← skipMagnitude rest)
        else if (digitValue? b).isSome then pure (none, ← skipMagnitude (b :: rest))
        else if b = 0x22 then pure (none, ← skipText .plain rest)
        else if b = 0x5B then pure (some Frame.list, rest)
        else if b = 0x7B then pure (some Frame.map, rest)
        else stopPast .expectedValue (b :: rest)
      let (frames?, rest) ←
        match opened with
        | some frame => leaveFrames false (frame :: frames) rest
        | none => leaveFrames true frames rest
      match frames? with
      | none => return rest
      | some [] => return rest
      | some (frame :: frames) =>
        let rest ← if frame = .map then skipName rest else pure rest
        skipValueWith fuel (frame :: frames) rest

/-- Passes over one value. Only its punctuation and the form of its tokens are asked for. -/
def skipValue (text : List UInt8) : Except Stop (List UInt8) :=
  skipValueWith (text.length + 1) [] text

/-- Reads a text to its end. -/
def readAll {α : Type} (read : Reader α) (text : List UInt8) : Except Stop α := do
  let (v, rest) ← read text
  match skipSpace rest with
  | [] => return v
  | rest => stopPast .trailingCharacters rest

/-- Stops at a value of another kind than expected. A value that ends in itself is read first, an
array or object is not. -/
def wrongType {α : Type} (expected : String) (text : List UInt8) : Except Stop α :=
  match text with
  | [] => stopPast .expectedValue []
  | b :: rest => do
    if b = 0x6E then
      stopAt (.wrongType .null expected) (← readWord [0x75, 0x6C, 0x6C] rest)
    else if b = 0x74 then
      stopAt (.wrongType (.bool true) expected) (← readWord [0x72, 0x75, 0x65] rest)
    else if b = 0x66 then
      stopAt (.wrongType (.bool false) expected) (← readWord [0x61, 0x6C, 0x73, 0x65] rest)
    else if b = 0x2D then
      let (n, rest) ← readMagnitude false rest
      stopAt (.wrongType (.number n) expected) rest
    else if (digitValue? b).isSome then
      let (n, rest) ← readMagnitude true (b :: rest)
      stopAt (.wrongType (.number n) expected) rest
    else if b = 0x22 then
      let (s, rest) ← readStringTail rest
      stopAt (.wrongType (.string s) expected) rest
    else if b = 0x5B then stopAt (.wrongType .sequence expected) (b :: rest)
    else if b = 0x7B then stopAt (.wrongType .map expected) (b :: rest)
    else stopPast .expectedValue (b :: rest)

end CacheLayer.Json
