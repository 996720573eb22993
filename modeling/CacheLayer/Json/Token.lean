import CacheLayer.Json.Fault
/-!
# Words, strings and numbers in a JSON text

Readers for what stands between the structural marks. Strings are read by a machine with one state
for each place inside an escape, so that a fault is always found at the byte that causes it. The
value of a number with a fraction or an exponent is computed with one rounding for its significand
and one for its scale.
-/

namespace CacheLayer.Json

/-- Blanks between tokens. -/
def isSpace (b : UInt8) : Bool := b = 0x20 || b = 0x0A || b = 0x09 || b = 0x0D

/-- The text behind the blanks in front. -/
def skipSpace : List UInt8 → List UInt8
  | [] => []
  | b :: rest => if isSpace b then skipSpace rest else b :: rest

/-- Consumes the bytes of a fixed word. -/
def readWord : List UInt8 → List UInt8 → Except Stop (List UInt8)
  | [], rest => .ok rest
  | _ :: _, [] => stopAt .endInValue []
  | w :: ws, b :: rest => if b = w then readWord ws rest else stopAt .expectedWord rest

/-! ## Strings -/

/-- The value of a hexadecimal digit of either case. -/
def hexValue? (b : UInt8) : Option Nat :=
  if 0x30 ≤ b ∧ b ≤ 0x39 then some (b.toNat - 0x30)
  else if 0x61 ≤ b ∧ b ≤ 0x66 then some (b.toNat - 0x57)
  else if 0x41 ≤ b ∧ b ≤ 0x46 then some (b.toNat - 0x37)
  else none

/-- The value of four hexadecimal digits. -/
def hexWord? (ds : List UInt8) : Option Nat :=
  ds.foldl (fun acc d => do return 16 * (← acc) + (← hexValue? d)) (some 0)

/-- The byte that a one-letter escape stands for. -/
def unescape? (b : UInt8) : Option UInt8 :=
  if b = 0x22 then some 0x22
  else if b = 0x5C then some 0x5C
  else if b = 0x2F then some 0x2F
  else if b = 0x62 then some 0x08
  else if b = 0x66 then some 0x0C
  else if b = 0x6E then some 0x0A
  else if b = 0x72 then some 0x0D
  else if b = 0x74 then some 0x09
  else none

/-- Where inside a string the reader stands. -/
inductive TextState where
  /-- Between characters. -/
  | plain
  /-- Behind a backslash. -/
  | escape
  /-- Behind a backslash and `u`, with some digits read, and the first half of a surrogate pair if
  this escape is the second. -/
  | hex (digits : List UInt8) (high : Option Nat)
  /-- Behind the first half of a surrogate pair, before the backslash of the second. -/
  | pairSlash (high : Nat)
  /-- Behind the first half of a surrogate pair and a backslash. -/
  | pairLetter (high : Nat)

/-- What a byte inside a string leads to. -/
inductive TextStep where
  /-- Further bytes of the text, and the next state. -/
  | next (emitted : List UInt8) (state : TextState)
  /-- The closing quote. -/
  | close
  /-- A byte that cannot stand there. -/
  | bad (fault : Fault)

/-- The bytes of the character with the given code point. -/
def utf8Of (codePoint : Nat) : List UInt8 := utf8 (String.ofList [Char.ofNat codePoint])

/-- What follows the fourth digit of an escape that stands for the unit `n`. -/
def afterHex (n : Nat) : Option Nat → TextStep
  | none =>
    if 0xDC00 ≤ n ∧ n ≤ 0xDFFF then .bad .loneSurrogate
    else if 0xD800 ≤ n ∧ n ≤ 0xDBFF then .next [] (.pairSlash n)
    else .next (utf8Of n) .plain
  | some high =>
    if 0xDC00 ≤ n ∧ n ≤ 0xDFFF then
      .next (utf8Of (0x10000 + (high - 0xD800) * 0x400 + (n - 0xDC00))) .plain
    else .bad .loneSurrogate

/-- The effect of one byte inside a string. -/
def TextState.step (state : TextState) (b : UInt8) : TextStep :=
  match state with
  | plain =>
    if b = 0x22 then .close
    else if b = 0x5C then .next [] escape
    else if b < 0x20 then .bad .controlCharacter
    else .next [b] plain
  | escape =>
    if b = 0x75 then .next [] (hex [] none)
    else match unescape? b with
      | some c => .next [c] plain
      | none => .bad .badEscape
  | hex digits high =>
    let digits := digits ++ [b]
    if digits.length < 4 then .next [] (hex digits high)
    else match hexWord? digits with
      | some n => afterHex n high
      | none => .bad .badEscape
  | pairSlash high => if b = 0x5C then .next [] (pairLetter high) else .bad .brokenPair
  | pairLetter high => if b = 0x75 then .next [] (hex [] (some high)) else .bad .brokenPair

/-- The length of the UTF-8 character that the bytes start with, if they start with one. -/
def utf8Length? : List UInt8 → Option Nat
  | [] => none
  | a :: rest =>
    let tail := (rest.take 3).takeWhile fun b => 0x80 ≤ b && b < 0xC0
    let second := tail.headD 0
    if a < 0x80 then some 1
    else if 0xC2 ≤ a && a < 0xE0 then if 1 ≤ tail.length then some 2 else none
    else if 0xE0 ≤ a && a < 0xF0 then
      if 2 ≤ tail.length && (a != 0xE0 || 0xA0 ≤ second) && (a != 0xED || second < 0xA0) then some 3
      else none
    else if 0xF0 ≤ a && a < 0xF5 then
      if 3 ≤ tail.length && (a != 0xF0 || 0x90 ≤ second) && (a != 0xF4 || second < 0x90) then some 4
      else none
    else none

/-- The bytes from the first on that starts no UTF-8 character. `skip` bytes belong to the character
in front. -/
def fromInvalid : Nat → List UInt8 → List UInt8
  | _, [] => []
  | skip + 1, _ :: rest => fromInvalid skip rest
  | 0, b :: rest =>
    match utf8Length? (b :: rest) with
    | some n => fromInvalid (n - 1) rest
    | none => b :: rest

/-- Reads on inside a string up to its closing quote; `acc` holds the bytes read so far. -/
def readText (acc : ByteArray) (state : TextState) : Reader String
  | [] => stopAt .endInString []
  | b :: rest =>
    match state.step b with
    | .next emitted state => readText (emitted.foldl ByteArray.push acc) state rest
    | .close =>
      match String.fromUTF8? acc with
      | some s => .ok (s, rest)
      | none => stopAt .badCodePoint rest
    | .bad fault => stopAt fault rest

/-- Reads a string behind its opening quote. Bytes that are no UTF-8 are reported where they
start. -/
def readStringTail : Reader String := fun text =>
  match readText .empty .plain text with
  | .error ⟨.badCodePoint, _⟩ => stopPast .badCodePoint (fromInvalid 0 text)
  | r => r

/-- Where inside a string that is passed over the reader stands. -/
inductive SkipState where
  | plain
  | escape
  | hex (digits : List UInt8)

/-- Passes over a string behind its opening quote. Nothing is asked of its characters but that
escapes are well formed and no control character stands bare. -/
def skipText (state : SkipState) : List UInt8 → Except Stop (List UInt8)
  | [] => stopAt .endInString []
  | b :: rest =>
    match state with
    | .plain =>
      if b = 0x22 then .ok rest
      else if b = 0x5C then skipText .escape rest
      else if b < 0x20 then stopAt .controlCharacter (b :: rest)
      else skipText .plain rest
    | .escape =>
      if b = 0x75 then skipText (.hex []) rest
      else if (unescape? b).isSome then skipText .plain rest
      else stopAt .badEscape rest
    | .hex digits =>
      let digits := digits ++ [b]
      if digits.length < 4 then skipText (.hex digits) rest
      else if (hexWord? digits).isSome then skipText .plain rest
      else stopAt .badEscape rest

/-! ## Numbers -/

/-- The value of a decimal digit. -/
def digitValue? (b : UInt8) : Option Nat :=
  if 0x30 ≤ b ∧ b ≤ 0x39 then some (b.toNat - 0x30) else none

/-- The greatest significand that is kept exactly. -/
def maxSignificand : Nat := UInt64.size - 1

/-- Appends digits to a significand while it stays exact: the significand, how many digits went
into it, and the text behind them. -/
def takeSignificand (n taken : Nat) : List UInt8 → Nat × Nat × List UInt8
  | [] => (n, taken, [])
  | b :: rest =>
    match digitValue? b with
    | some d =>
      if 10 * n + d ≤ maxSignificand then takeSignificand (10 * n + d) (taken + 1) rest
      else (n, taken, b :: rest)
    | none => (n, taken, b :: rest)

/-- Passes over digits and counts them. -/
def dropDigits (count : Nat) : List UInt8 → Nat × List UInt8
  | [] => (count, [])
  | b :: rest => if (digitValue? b).isSome then dropDigits (count + 1) rest else (count, b :: rest)

/-- A power of ten up to the 308th. -/
def powerOfTen (n : Nat) : Float := Float.ofScientific 1 false n

/-- Divides by `10 ^ n`, in steps that a float can hold. -/
def scaleDown (x : Float) (n : Nat) : Float :=
  if n ≤ 308 then x / powerOfTen n
  else if x == 0.0 then x
  else scaleDown (x / powerOfTen 308) (n - 308)
termination_by n

/-- The number `significand * 10 ^ exponent` with its sign, if it is in range. -/
def assemble (positive : Bool) (significand : Nat) (exponent : Int) : Option Float :=
  let x := Float.ofScientific significand false 0
  let magnitude? : Option Float :=
    if exponent < 0 then some (scaleDown x exponent.natAbs)
    else if exponent ≤ 308 then
      let y := x * powerOfTen exponent.natAbs
      if y.isInf then none else some y
    else if x == 0.0 then some x
    else none
  magnitude?.map fun y => if positive then y else -y

/-- Reads the digits of an exponent behind the first, up to the greatest of 32 bits. What is left
over is read with them but makes the exponent endless. -/
def takeExponent (n : Nat) : List UInt8 → Nat × Bool × List UInt8
  | [] => (n, false, [])
  | b :: rest =>
    match digitValue? b with
    | some d =>
      -- What is behind the greatest exponent is left to the caller.
      if 10 * n + d < UInt32.size / 2 then takeExponent (10 * n + d) rest else (n, true, rest)
    | none => (n, false, b :: rest)

/-- The assembled number, or a stop behind its text. -/
def finishFloat (positive : Bool) (significand : Nat) (exponent : Int) : Reader Number :=
  fun rest =>
    match assemble positive significand exponent with
    | some x => .ok (.float x, rest)
    | none => stopAt .numberOutOfRange rest

/-- Reads an exponent behind its `e`. -/
def readExponent (positive : Bool) (significand : Nat) (exponent : Int) : Reader Number :=
  fun text =>
    let (up, text) :=
      match text with
      | 0x2B :: rest => (true, rest)
      | 0x2D :: rest => (false, rest)
      | rest => (true, rest)
    match text with
    | [] => stopAt .endInValue []
    | b :: rest =>
      match digitValue? b with
      | none => stopAt .badNumber rest
      | some d =>
        let (n, endless, rest) := takeExponent d rest
        if endless then
          if significand ≠ 0 ∧ up then stopAt .numberOutOfRange rest
          else .ok (.float (if positive then 0.0 else -0.0), (dropDigits 0 rest).2)
        else finishFloat positive significand (if up then exponent + n else exponent - n) rest

/-- Reads an exponent if one follows. -/
def readScale (positive : Bool) (significand : Nat) (exponent : Int) : Reader Number
  | 0x65 :: rest => readExponent positive significand exponent rest
  | 0x45 :: rest => readExponent positive significand exponent rest
  | rest => finishFloat positive significand exponent rest

/-- Reads a fraction behind its point. -/
def readFraction (positive : Bool) (significand : Nat) (exponent : Int) : Reader Number :=
  fun text =>
    let (n, taken, rest) := takeSignificand significand 0 text
    let (dropped, rest') := dropDigits 0 rest
    if taken + dropped = 0 then
      if rest'.isEmpty then stopPast .endInValue rest' else stopPast .badNumber rest'
    else readScale positive n (exponent - taken) rest'

/-- The integer with the given sign and magnitude. Zero with a minus sign and magnitudes below the
least integer of 64 bits are floating-point numbers. -/
def Number.ofInteger (positive : Bool) (n : Nat) : Number :=
  if positive then .nat n
  else if 0 < n ∧ n ≤ UInt64.size / 2 then .negative n
  else .float (-(Float.ofScientific n false 0))

/-- Reads what follows the digits in front of the point. -/
def readNumberTail (positive : Bool) (significand : Nat) (dropped : Nat) : Reader Number
  | 0x2E :: rest => readFraction positive significand dropped rest
  | 0x65 :: rest => readExponent positive significand dropped rest
  | 0x45 :: rest => readExponent positive significand dropped rest
  | rest =>
    if dropped = 0 then .ok (.ofInteger positive significand, rest)
    else finishFloat positive significand dropped rest

/-- Reads a number behind its sign. -/
def readMagnitude (positive : Bool) : Reader Number
  | [] => stopAt .endInValue []
  | b :: rest =>
    match digitValue? b with
    | none => stopAt .badNumber rest
    | some 0 =>
      match rest with
      | c :: _ =>
        if (digitValue? c).isSome then stopPast .badNumber rest
        else readNumberTail positive 0 0 rest
      | [] => readNumberTail positive 0 0 rest
    | some d =>
      let (n, _, rest) := takeSignificand d 0 rest
      let (dropped, rest) := dropDigits 0 rest
      readNumberTail positive n dropped rest

/-- Passes over the digits behind a point or in an exponent. -/
def skipExponent (text : List UInt8) : Except Stop (List UInt8) :=
  let text :=
    match text with
    | 0x2B :: rest => rest
    | 0x2D :: rest => rest
    | rest => rest
  match text with
  | [] => stopAt .badNumber []
  | b :: rest =>
    if (digitValue? b).isSome then .ok (dropDigits 0 rest).2 else stopAt .badNumber rest

/-- Passes over what follows the digits in front of the point. -/
def skipNumberTail : List UInt8 → Except Stop (List UInt8)
  | 0x2E :: rest =>
    match dropDigits 0 rest with
    | (0, rest) => stopPast .badNumber rest
    | (_, 0x65 :: rest) => skipExponent rest
    | (_, 0x45 :: rest) => skipExponent rest
    | (_, rest) => .ok rest
  | 0x65 :: rest => skipExponent rest
  | 0x45 :: rest => skipExponent rest
  | rest => .ok rest

/-- Passes over a number behind its sign. -/
def skipMagnitude : List UInt8 → Except Stop (List UInt8)
  | [] => stopAt .badNumber []
  | b :: rest =>
    match digitValue? b with
    | none => stopAt .badNumber rest
    | some 0 =>
      match rest with
      | c :: _ => if (digitValue? c).isSome then stopPast .badNumber rest else skipNumberTail rest
      | [] => .ok rest
    | some _ => skipNumberTail (dropDigits 0 rest).2

end CacheLayer.Json
