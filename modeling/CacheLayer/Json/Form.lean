import CacheLayer.Json.Reader
import CacheLayer.Stamped
/-!
# Values with a JSON form

How texts, integers, truth values, lists of texts, optional integers, stamped texts and plain JSON
values are written as JSON and read back. Each reader says what it expected where it finds something
else.
-/

namespace CacheLayer.Json

/-- Values that are written and read as JSON. -/
class JsonForm (α : Type) where
  /-- The text of a value. -/
  write : α → List UInt8
  /-- Reads a value from the front of a text. -/
  read : Reader α

/-- Reads a string. -/
def readString : Reader String :=
  withToken fun b rest =>
    if b = 0x22 then readStringTail rest else wrongType "a string" (b :: rest)

/-- Reads a truth value. -/
def readBool : Reader Bool :=
  withToken fun b rest => do
    if b = 0x74 then return (true, ← readWord [0x72, 0x75, 0x65] rest)
    else if b = 0x66 then return (false, ← readWord [0x61, 0x6C, 0x73, 0x65] rest)
    else wrongType "a boolean" (b :: rest)

/-- Reads a number that `accept` can use; `expected` names what was expected. -/
def readNumberAs {α : Type} (expected : String) (accept : Number → Except Fault α) : Reader α :=
  withToken fun b rest => do
    if b = 0x2D then
      let (n, rest) ← readMagnitude false rest
      finish n rest
    else if (digitValue? b).isSome then
      let (n, rest) ← readMagnitude true (b :: rest)
      finish n rest
    else wrongType expected (b :: rest)
where
  /-- The accepted number, or a stop behind it. -/
  finish (n : Number) (rest : List UInt8) : Except Stop (α × List UInt8) :=
    match accept n with
    | .ok v => .ok (v, rest)
    | .error fault => stopAt fault rest

/-- The unsigned integers of 64 bits. -/
def unsigned (n : Number) : Except Fault UInt64 :=
  match n with
  | .nat k => .ok (UInt64.ofNat k)
  | .negative _ => .error (.wrongValue (.number n) "u64")
  | .float _ => .error (.wrongType (.number n) "u64")

/-- The signed integers of 64 bits. -/
def signed (n : Number) : Except Fault Int64 :=
  match n with
  | .nat k =>
    if k < UInt64.size / 2 then .ok (Int64.ofNat k) else .error (.wrongValue (.number n) "i64")
  | .negative k => .ok (Int64.ofInt (-(k : Int)))
  | .float _ => .error (.wrongType (.number n) "i64")

/-- Reads an unsigned integer. -/
def readUnsigned : Reader UInt64 := readNumberAs "u64" unsigned

/-- The text of a signed integer. -/
def writeSigned (n : Int64) : List UInt8 :=
  if n.toInt < 0 then 0x2D :: writeNat n.toInt.natAbs else writeNat n.toInt.natAbs

/-- Reads the strings of a list up to its closing bracket. Each takes one unit of fuel. -/
def readStrings : Nat → Bool → List String → Reader (List String)
  | 0, _, _ => fun text => stopAt .expectedValue text
  | fuel + 1, first, acc => fun text => do
    match ← nextElement first text with
    | none => return (acc.reverse, text)
    | some text =>
      let (s, rest) ← readString text
      readStrings fuel false (s :: acc) rest

/-- Reads a list of strings. -/
def readStringList : Reader (List String) :=
  withToken fun b rest =>
    if b = 0x5B then do
      let (l, rest) ← readStrings (rest.length + 1) true [] rest
      return (l, ← closeArray rest)
    else wrongType "a sequence" (b :: rest)

/-- The text of further strings of a list and its end. -/
def writeMoreStrings : List String → List UInt8
  | [] => [0x5D]
  | s :: ss => 0x2C :: (writeString s ++ writeMoreStrings ss)

/-- The text of a list of strings. -/
def writeStringList : List String → List UInt8
  | [] => [0x5B, 0x5D]
  | s :: ss => 0x5B :: (writeString s ++ writeMoreStrings ss)

/-- Reads a value or null. -/
def readOptional {α : Type} (read : Reader α) : Reader (Option α) :=
  fun text =>
    match skipSpace text with
    | 0x6E :: rest => do return (none, ← readWord [0x75, 0x6C, 0x6C] rest)
    | rest => do
      let (v, rest) ← read rest
      return (some v, rest)

/-- What a reader of stamped values expected. -/
def stampedName : String := "struct ValueWithWriteTime"

/-- What a reader of stamped values expected from a list. -/
def stampedPair : String := "struct ValueWithWriteTime with 2 elements"

/-- Reads the fields of a stamped value up to the closing brace, in any order; other fields are
passed over. Each takes one unit of fuel. -/
def readStampedFields :
    Nat → Bool → Option String → Option UInt64 → Reader (Stamped String)
  | 0, _, _, _ => fun text => stopAt .expectedValue text
  | fuel + 1, first, value?, time? => fun text => do
    match ← nextField first text with
    | none =>
      let rest ← closeObject text
      match value?, time? with
      | some value, some time => return (⟨value, time.toNat⟩, rest)
      | none, _ => stopAt (.missingField "value") rest
      | some _, none => stopAt (.missingField "write_time") rest
    | some text =>
      let (name, rest) ← readStringTail text
      if name = "value" then
        if value?.isSome then stopAt (.duplicateField "value") (skipSpace rest)
        else
          let (value, rest) ← readString (← readColon rest)
          readStampedFields fuel false (some value) time? rest
      else if name = "write_time" then
        if time?.isSome then stopAt (.duplicateField "write_time") (skipSpace rest)
        else
          let (time, rest) ← readUnsigned (← readColon rest)
          readStampedFields fuel false value? (some time) rest
      else
        let rest ← skipValue (← readColon rest)
        readStampedFields fuel false value? time? rest

/-- Reads a stamped value from the elements of a list. -/
def readStampedPair (text : List UInt8) : Except Stop (Stamped String × List UInt8) := do
  match ← nextElement true text with
  | none => stopAt (.wrongLength 0 stampedPair) (← closeArray text)
  | some text =>
    let (value, rest) ← readString text
    match ← nextElement false rest with
    | none => stopAt (.wrongLength 1 stampedPair) (← closeArray rest)
    | some text =>
      let (time, rest) ← readUnsigned text
      return (⟨value, time.toNat⟩, ← closeArray rest)

/-- Reads a stamped string. -/
def readStamped : Reader (Stamped String) :=
  withToken fun b rest =>
    if b = 0x5B then readStampedPair rest
    else if b = 0x7B then readStampedFields (rest.length + 1) true none none rest
    else wrongType stampedName (b :: rest)

/-- The text of a stamped string. -/
def writeStamped (s : Stamped String) : List UInt8 :=
  0x7B :: (writeString "value" ++ 0x3A :: (writeString s.value ++
    0x2C :: (writeString "write_time" ++ 0x3A :: (writeNat s.writeTime ++ [0x7D]))))

instance : JsonForm String := ⟨writeString, readString⟩
instance : JsonForm Bool := ⟨writeBool, readBool⟩
instance : JsonForm UInt64 := ⟨fun n => writeNat n.toNat, readUnsigned⟩
instance : JsonForm Int64 := ⟨writeSigned, readNumberAs "i64" signed⟩
instance : JsonForm (List String) := ⟨writeStringList, readStringList⟩
instance : JsonForm (Option UInt64) where
  write
    | none => writeNull
    | some n => writeNat n.toNat
  read := readOptional readUnsigned
instance : JsonForm (Stamped String) := ⟨writeStamped, readStamped⟩
instance : JsonForm Json := ⟨Json.write, readValue⟩

/-- Decodes the text of a value, or says what is wrong with it. -/
def decode {α : Type} [JsonForm α] (data : ByteArray) : Except String α :=
  let text := data.data.toList
  match readAll JsonForm.read text with
  | .ok v => .ok v
  | .error stop => .error (stop.message text)

/-- Encodes a value as its text. -/
def encode {α : Type} [JsonForm α] (v : α) : ByteArray := packed (JsonForm.write v)

end CacheLayer.Json
