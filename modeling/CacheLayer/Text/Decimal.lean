/-!
# Decimal numerals

Unsigned numerals with an optional plus sign, read up to a bound. Leading zeros are allowed, blanks
and signs anywhere else are not.
-/

namespace CacheLayer.Text

/-- The value of an ASCII digit. -/
def digit? (c : Char) : Option Nat :=
  if '0' ≤ c ∧ c ≤ '9' then some (c.toNat - '0'.toNat) else none

/-- The value of a run of digits read after the value `acc`, or `none` at the first character that
is no digit. -/
def digitsValue? (acc : Nat) : List Char → Option Nat
  | [] => some acc
  | c :: cs =>
    match digit? c with
    | some d => digitsValue? (10 * acc + d) cs
    | none => none

/-- Drops one plus sign in front. -/
def dropPlus : List Char → List Char
  | '+' :: cs => cs
  | cs => cs

/-- Reads an optional plus sign and one or more digits whose value is at most `limit`. -/
def decimal? (limit : Nat) (cs : List Char) : Option Nat :=
  match dropPlus cs with
  | [] => none
  | ds =>
    match digitsValue? 0 ds with
    | some n => if n ≤ limit then some n else none
    | none => none

/-- The greatest number of 64 bits. -/
def maxWord64 : Nat := UInt64.size - 1

end CacheLayer.Text
