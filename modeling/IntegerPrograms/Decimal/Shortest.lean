import IntegerPrograms.Decimal.Binary

/-!
The fewest digits that read back as the same double, and of those the nearest to its exact value.
-/

set_option autoImplicit false

namespace IntegerPrograms.Decimal

/-- The numbers that round to a double, as quarters of its last binary place: the ends belong to
them only if the mantissa is even, and below a power of two the neighbour is twice as near. -/
structure Neighbourhood where
  low : Nat
  high : Nat
  closed : Bool

def Neighbourhood.of (m : Nat) (q : Int) : Neighbourhood where
  low := 4 * m - if m = Binary.hiddenBit ∧ -1074 < q then 1 else 2
  high := 4 * m + 2
  closed := m % 2 = 0

def Neighbourhood.holds (nb : Neighbourhood) (scale unit c : Nat) : Bool :=
  if nb.closed then decide (nb.low * scale ≤ c * unit ∧ c * unit ≤ nb.high * scale)
  else decide (nb.low * scale < c * unit ∧ c * unit < nb.high * scale)

def onGrid? (tie : Tie) (m : Nat) (q g : Int) : Option Nat :=
  let scale := Nat.pow 2 (q - 2).toNat * above (-g)
  let unit := Nat.pow 2 (2 - q).toNat * above g
  let nb := Neighbourhood.of m q
  let low := 4 * m * scale / unit
  match nb.holds scale unit low, nb.holds scale unit (low + 1) with
  | true, true => some (roundDiv tie (4 * m * scale) unit)
  | true, false => some low
  | false, true => some (low + 1)
  | false, false => none

def shortestFrom (tie : Tie) (m : Nat) (q : Int) : Nat → Int → Nat × Int
  | 0, g => (m, g)
  | fuel + 1, g =>
    match onGrid? tie m q g with
    | some d => (d, g)
    | none => shortestFrom tie m q fuel (g - 1)

/-- Digits `d` and exponent `e` of the shortest `d · 10 ^ e` for a positive `m · 2 ^ q`. Seventeen
digits always suffice. -/
def shortest (tie : Tie) (m : Nat) (q : Int) : Nat × Int :=
  let (d, e) := shortestFrom tie m q 18 (magnitude (Binary.numerator m q) (Binary.denominator q))
  if d = 10 then (1, e + 1) else (d, e)

def plain (v : Float) : String :=
  signed v fun m q =>
    if m = 0 then ['0']
    else let (d, e) := shortest .up m q; positional d e

end IntegerPrograms.Decimal
