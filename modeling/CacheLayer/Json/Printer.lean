import CacheLayer.Decimal.Shortest
import CacheLayer.Json.Value
/-!
# Writing JSON

The text of a JSON value, without blanks. Inside strings only the quote, the backslash and the
controls below the space are escaped; all of them are single bytes, so the escapes are stated byte
by byte and the bytes of other characters pass through.
-/

namespace CacheLayer.Json

/-- A digit of a base up to sixteen, in lower case. -/
def hexByte (n : Nat) : UInt8 :=
  if n < 10 then UInt8.ofNat (48 + n) else UInt8.ofNat (87 + n)

/-- The bytes of a text. -/
def utf8 (s : String) : List UInt8 := s.toUTF8.data.toList

/-- The written form of one byte of a string. -/
def escapeByte (b : UInt8) : List UInt8 :=
  if b = 0x22 then [0x5C, 0x22]
  else if b = 0x5C then [0x5C, 0x5C]
  else if b < 0x20 then
    if b = 0x08 then [0x5C, 0x62]
    else if b = 0x09 then [0x5C, 0x74]
    else if b = 0x0A then [0x5C, 0x6E]
    else if b = 0x0C then [0x5C, 0x66]
    else if b = 0x0D then [0x5C, 0x72]
    else [0x5C, 0x75, 0x30, 0x30, hexByte (b.toNat / 16), hexByte (b.toNat % 16)]
  else [b]

/-- A string between quotes. -/
def writeString (s : String) : List UInt8 :=
  0x22 :: ((utf8 s).flatMap escapeByte ++ [0x22])

/-- The decimal digits of a number. -/
def writeNat (n : Nat) : List UInt8 :=
  (Nat.toDigits 10 n).map fun c => c.toNat.toUInt8

/-- Lays out digits whose decimal point stands behind the first `point` of them: positionally while
the leading digit has an exponent from -5 to 15, otherwise with an exponent. -/
def layout (digits : List Char) (point : Int) : List Char :=
  let n : Int := digits.length
  if n ≤ point ∧ point ≤ 16 then
    digits ++ List.replicate (point - n).toNat '0' ++ ['.', '0']
  else if 0 < point ∧ point ≤ 16 then
    digits.take point.toNat ++ '.' :: digits.drop point.toNat
  else if -5 < point ∧ point ≤ 0 then
    '0' :: '.' :: (List.replicate (-point).toNat '0' ++ digits)
  else
    let e := point - 1
    let mark := if e < 0 then ['e', '-'] else ['e', '+']
    let fraction := if digits.length ≤ 1 then [] else '.' :: digits.drop 1
    digits.take 1 ++ fraction ++ mark ++ Nat.toDigits 10 e.natAbs

/-- The fewest digits that read back, with a point or an exponent in every case. A number that is
not finite has no text of its own. -/
def floatText (x : Float) : String :=
  if x.isNaN || x.isInf then "null"
  else
    let bits := x.toBits
    let sign := if bits >>> 63 = 1 then ['-'] else []
    let value := Decimal.Binary.ofBits (bits &&& 0x7FFFFFFFFFFFFFFF)
    if value.mantissa = 0 then String.ofList (sign ++ ['0', '.', '0'])
    else
      let d := value.shortest
      let digits := Nat.toDigits 10 d.digits
      String.ofList (sign ++ layout digits (d.exponent + digits.length))

/-- The text of a number. -/
def writeNumber : Number → List UInt8
  | .nat n => writeNat n
  | .negative n => 0x2D :: writeNat n
  | .float x => utf8 (floatText x)

/-- The text of a truth value. -/
def writeBool (b : Bool) : List UInt8 :=
  if b then [0x74, 0x72, 0x75, 0x65] else [0x66, 0x61, 0x6C, 0x73, 0x65]

/-- The text of the null value. -/
def writeNull : List UInt8 := [0x6E, 0x75, 0x6C, 0x6C]

mutual

/-- The text of a value. -/
def write : Json → List UInt8
  | null => writeNull
  | bool b => writeBool b
  | number n => writeNumber n
  | string s => writeString s
  | array [] => [0x5B, 0x5D]
  | array (v :: vs) => 0x5B :: (write v ++ writeElements vs)
  | object [] => [0x7B, 0x7D]
  | object (f :: fs) => 0x7B :: (writeString f.1 ++ 0x3A :: (write f.2 ++ writeFields fs))

/-- The text of the further elements of an array and its end. -/
def writeElements : List Json → List UInt8
  | [] => [0x5D]
  | v :: vs => 0x2C :: (write v ++ writeElements vs)

/-- The text of the further fields of an object and its end. -/
def writeFields : List (String × Json) → List UInt8
  | [] => [0x7D]
  | f :: fs => 0x2C :: (writeString f.1 ++ 0x3A :: (write f.2 ++ writeFields fs))

end

/-- The bytes as they are stored or sent. -/
def packed (bytes : List UInt8) : ByteArray := ⟨bytes.toArray⟩

end CacheLayer.Json
