/-!
# Spans of time

Lengths of time, and instants on a clock that starts at zero, are natural numbers of nanoseconds.
There is a longest span; in milliseconds it saturates to the greatest number of 64 bits.
-/

namespace CacheLayer

namespace Span

/-- Nanoseconds in a millisecond. -/
def millisecond : Nat := 1000000

/-- Nanoseconds in a second. -/
def second : Nat := 1000000000

/-- The longest span: the greatest number of 64 bits in seconds, and 999999999 nanoseconds. -/
def longest : Nat := (UInt64.size - 1) * second + 999999999

/-- A span of whole milliseconds. -/
def ofMillis (n : Nat) : Nat := n * millisecond

/-- The whole milliseconds of a span, at most the greatest number of 64 bits. -/
def toMillis (t : Nat) : Nat := min (t / millisecond) (UInt64.size - 1)

/-- The decimals of `part` in units of `whole`, a power of ten, without trailing zeros. -/
def decimals (part whole : Nat) : String :=
  let width := (Nat.toDigits 10 whole).length - 1
  let digits := Nat.toDigits 10 part
  let padded := List.replicate (width - digits.length) '0' ++ digits
  String.ofList (padded.reverse.dropWhile (· = '0')).reverse

/-- The span in a unit of `unit` nanoseconds, with as many decimals as needed. -/
def inUnit (t unit : Nat) (name : String) : String :=
  let part := t % unit
  toString (t / unit) ++ (if part = 0 then "" else "." ++ decimals part unit) ++ name

/-- The span in the largest unit of seconds, milliseconds, microseconds and nanoseconds that it
fills, with as many decimals as needed. -/
def text (t : Nat) : String :=
  if second ≤ t then inUnit t second "s"
  else if millisecond ≤ t then inUnit t millisecond "ms"
  else if 1000 ≤ t then inUnit t 1000 "µs"
  else inUnit t 1 "ns"

@[simp] theorem toMillis_ofMillis (n : Nat) : toMillis (ofMillis n) = min n (UInt64.size - 1) := by
  simp [toMillis, ofMillis, millisecond]

theorem ofMillis_toMillis_le (t : Nat) : ofMillis (toMillis t) ≤ t := by
  simp only [toMillis, ofMillis, millisecond]; omega

end Span

end CacheLayer
