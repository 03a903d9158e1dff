import IntegerPrograms.Json.Basic

/-!
What a JSON number is worth. A double is computed from at most 64 bits of digits and a power of ten,
so the last place of a long number may differ from the nearest double.
-/

set_option autoImplicit false

namespace IntegerPrograms.Numeral

def wordLimit : Nat := Nat.pow 2 64

def digitValue (c : Char) : Nat := c.toNat - 48

def accumulate (acc : Nat) : List Char → Nat × List Char
  | [] => (acc, [])
  | c :: cs =>
    if 10 * acc + digitValue c < wordLimit then accumulate (10 * acc + digitValue c) cs
    else (acc, c :: cs)

def digitsValue (cs : List Char) : Nat := cs.foldl (fun n c => 10 * n + digitValue c) 0

/-- The digits that count and the power of ten they stand at. Whole digits that no longer fit raise
the power; decimals that no longer fit are dropped. -/
def significand (n : Numeral) : Nat × Int :=
  let (whole, overflow) := accumulate 0 n.whole
  let (both, dropped) := accumulate whole n.fraction
  (both, (overflow.length : Int) - ((n.fraction.length : Int) - dropped.length))

def largestPower : Nat := 308

/-- A value times a power of ten; none if it overflows. Powers beyond the largest one are taken in
steps. -/
def scale? : Nat → Float → Int → Option Float
  | fuel, f, e =>
    if e.natAbs ≤ largestPower then
      let p := Float.ofScientific 1 false e.natAbs
      if 0 ≤ e then if (f * p).isInf then none else some (f * p)
      else some (f / p)
    else if f == 0 then some f
    else if 0 ≤ e then none
    else match fuel with
      | 0 => some 0
      | fuel + 1 =>
        scale? fuel (f / Float.ofScientific 1 false largestPower) (e + largestPower)

/-- The magnitude of the number. A written exponent of `2 ^ 31` or more leaves only zero or an
overflow. -/
def magnitude? (n : Numeral) : Option Float :=
  let (digits, e) := n.significand
  match n.exponent with
  | none => scale? 4 digits.toFloat e
  | some (negative, ds) =>
    let x := digitsValue ds
    if x < Nat.pow 2 31 then scale? 4 digits.toFloat (if negative then e - x else e + x)
    else if digits = 0 ∨ negative then some 0
    else none

def toFloat? (n : Numeral) : Option Float :=
  n.magnitude?.map fun f => if n.negative then -f else f

def toIndex? (n : Numeral) : Option Nat :=
  if n.negative ∨ n.fraction ≠ [] ∨ n.exponent.isSome then none
  else
    let i := digitsValue n.whole
    if i < wordLimit then some i else none

end IntegerPrograms.Numeral
