import CacheLayer.Json.Printer
import CacheLayer.Text.Quoted
/-!
# What can be wrong with a JSON text

The faults a reader reports, the place of a fault as a line and a column, and the sentence that
names both. A reader notes how many bytes it had not consumed when it stopped; lines and columns
are counted from that afterwards.
-/

namespace CacheLayer.Json

/-- A value found where another was expected. -/
inductive Found where
  | null
  | bool (b : Bool)
  | number (n : Number)
  | string (s : String)
  | sequence
  | map

/-- What was found, in words. -/
def Found.text : Found → String
  | null => "null"
  | bool b => "boolean `" ++ (if b then "true" else "false") ++ "`"
  | number (.nat n) => "integer `" ++ toString n ++ "`"
  | number (.negative n) => "integer `-" ++ toString n ++ "`"
  | number (.float x) => "floating point `" ++ floatText x ++ "`"
  | string s => "string " ++ Text.quote s
  | sequence => "sequence"
  | map => "map"

/-- Why a text could not be read. -/
inductive Fault where
  | endInValue
  | endInString
  | endInList
  | endInObject
  | expectedValue
  | expectedWord
  | expectedColon
  | expectedCommaOrBracket
  | expectedCommaOrBrace
  | keyNotString
  | trailingComma
  | trailingCharacters
  | badNumber
  | numberOutOfRange
  | badEscape
  | brokenPair
  | loneSurrogate
  | controlCharacter
  | badCodePoint
  | tooDeep
  | wrongType (found : Found) (expected : String)
  | wrongValue (found : Found) (expected : String)
  | wrongLength (length : Nat) (expected : String)
  | missingField (name : String)
  | duplicateField (name : String)

/-- The fault in words. -/
def Fault.text : Fault → String
  | endInValue => "EOF while parsing a value"
  | endInString => "EOF while parsing a string"
  | endInList => "EOF while parsing a list"
  | endInObject => "EOF while parsing an object"
  | expectedValue => "expected value"
  | expectedWord => "expected ident"
  | expectedColon => "expected `:`"
  | expectedCommaOrBracket => "expected `,` or `]`"
  | expectedCommaOrBrace => "expected `,` or `\x7d`"
  | keyNotString => "key must be a string"
  | trailingComma => "trailing comma"
  | trailingCharacters => "trailing characters"
  | badNumber => "invalid number"
  | numberOutOfRange => "number out of range"
  | badEscape => "invalid escape"
  | brokenPair => "unexpected end of hex escape"
  | loneSurrogate => "lone leading surrogate in hex escape"
  | controlCharacter => "control character (\\u0000-\\u001F) found while parsing a string"
  | badCodePoint => "invalid unicode code point"
  | tooDeep => "recursion limit exceeded"
  | wrongType found expected => "invalid type: " ++ found.text ++ ", expected " ++ expected
  | wrongValue found expected => "invalid value: " ++ found.text ++ ", expected " ++ expected
  | wrongLength n expected => "invalid length " ++ toString n ++ ", expected " ++ expected
  | missingField name => "missing field `" ++ name ++ "`"
  | duplicateField name => "duplicate field `" ++ name ++ "`"

/-- A fault together with the number of bytes behind its place. -/
structure Stop where
  fault : Fault
  unread : Nat

/-- The line and the column after the bytes: lines count from one, columns from the last line
break. -/
def place (read : List UInt8) : Nat × Nat :=
  read.foldl (fun at_ b => if b = 0x0A then (at_.1 + 1, 0) else (at_.1, at_.2 + 1)) (1, 0)

/-- The sentence for a fault found in a text. -/
def Stop.message (text : List UInt8) (s : Stop) : String :=
  let (line, column) := place (text.take (text.length - s.unread))
  s.fault.text ++ " at line " ++ toString line ++ " column " ++ toString column

/-- A reader consumes a value from the front of a text, or stops. -/
abbrev Reader (α : Type) := List UInt8 → Except Stop (α × List UInt8)

/-- Stops behind what has been consumed, with `rest` still unread. -/
def stopAt {α : Type} (fault : Fault) (rest : List UInt8) : Except Stop α :=
  .error ⟨fault, rest.length⟩

/-- Stops behind the next byte of `rest`, which is the one that cannot stand there; at the end of
the text there is none. -/
def stopPast {α : Type} (fault : Fault) (rest : List UInt8) : Except Stop α :=
  .error ⟨fault, rest.length - 1⟩

end CacheLayer.Json
