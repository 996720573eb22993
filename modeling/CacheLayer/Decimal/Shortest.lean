/-!
# Shortest decimals of floating-point numbers

A finite binary64 number stands for the reals that round to it. `shortest` selects the decimal with
the fewest digits among them, and of two with equally many digits the nearer one; an exact tie goes
to the even digit. The selection works on exact integers decoded from the bits.
-/

namespace CacheLayer.Decimal

/-- A finite non-negative binary64 value, `mantissa * 2 ^ exponent`. -/
structure Binary where
  mantissa : Nat
  exponent : Int
  /-- The gap to the value below is half the gap to the value above. -/
  narrowBelow : Bool

/-- The magnitude that the bits of a finite number stand for. -/
def Binary.ofBits (bits : UInt64) : Binary :=
  let e := ((bits >>> 52) &&& 0x7FF).toNat
  let f := (bits &&& 0xFFFFFFFFFFFFF).toNat
  if e = 0 then ⟨f, -1074, false⟩ else ⟨0x10000000000000 + f, (e : Int) - 1075, f = 0 && 1 < e⟩

/-- The decimal number `digits * 10 ^ exponent`. -/
structure Scaled where
  digits : Nat
  exponent : Int
deriving DecidableEq, Repr

/-- Compares `a * 10 ^ i` with `n * 2 ^ j`, exactly. -/
def compareScaled (a : Nat) (i : Int) (n : Nat) (j : Int) : Ordering :=
  compare ((a * Nat.pow 10 i.toNat) <<< (-j).toNat) ((n * Nat.pow 10 (-i).toNat) <<< j.toNat)

/-- Whether the decimal lies among the reals that round to the value: from halfway to the
neighbour below to halfway to the neighbour above, ends included for an even mantissa. -/
def Binary.readsBack (x : Binary) (d : Scaled) : Bool :=
  -- In quarters of the gap: the value is `4 * mantissa`, and its neighbours are 4 away, or 2.
  let low := if x.narrowBelow then 4 * x.mantissa - 1 else 4 * x.mantissa - 2
  let high := 4 * x.mantissa + 2
  let closed := x.mantissa % 2 = 0
  let atLow := compareScaled d.digits d.exponent low (x.exponent - 2)
  let atHigh := compareScaled d.digits d.exponent high (x.exponent - 2)
  (atLow == .gt || (closed && atLow == .eq)) && (atHigh == .lt || (closed && atHigh == .eq))

/-- The value in whole units of `10 ^ unit`, rounded down. -/
def Binary.floorAt (x : Binary) (unit : Int) : Nat :=
  ((x.mantissa * Nat.pow 10 (-unit).toNat) <<< x.exponent.toNat) /
    (Nat.pow 10 unit.toNat <<< (-x.exponent).toNat)

/-- The better of the two decimals next to the value on the grid of `10 ^ unit`, if one of them
reads back. -/
def Binary.nearestAt (x : Binary) (unit : Int) : Option Scaled :=
  let below := x.floorAt unit
  let above := below + 1
  match x.readsBack ⟨below, unit⟩, x.readsBack ⟨above, unit⟩ with
  | true, true =>
    match compareScaled (below + above) unit (2 * x.mantissa) x.exponent with
    | .gt => some ⟨below, unit⟩
    | .lt => some ⟨above, unit⟩
    | .eq => some ⟨if below % 2 = 0 then below else above, unit⟩
  | true, false => some ⟨below, unit⟩
  | false, true => some ⟨above, unit⟩
  | false, false => none

/-- The least power of ten above the value, looked for upwards from `k`. -/
def Binary.scaleFrom (x : Binary) (k : Int) : Nat → Int
  | 0 => k
  | fuel + 1 => if x.floorAt k = 0 then k else x.scaleFrom (k + 1) fuel

/-- The exponent of the least power of ten above a value other than zero. The start is a lower
estimate from the binary logarithm. -/
def Binary.scale (x : Binary) : Int :=
  let log := (x.mantissa.log2 : Int) + x.exponent
  x.scaleFrom (Int.fdiv (log * 30103) 100000 - 1) 4

/-- Moves the zeros at the end of the digits into the exponent. -/
def Scaled.strip (d : Scaled) : Nat → Scaled
  | 0 => d
  | fuel + 1 =>
    if d.digits ≠ 0 ∧ d.digits % 10 = 0 then
      Scaled.strip ⟨d.digits / 10, d.exponent + 1⟩ fuel
    else d

/-- The decimal with the fewest digits that reads back as the value. Seventeen digits are always
enough. -/
def Binary.shortest (x : Binary) : Scaled :=
  let k := x.scale
  match (List.range 17).findSome? fun (n : Nat) => x.nearestAt (k - ((n : Int) + 1)) with
  | some d => d.strip 400
  | none => ⟨x.floorAt (k - 17), k - 17⟩

end CacheLayer.Decimal
