import IntegerPrograms.Decimal.Digits

set_option autoImplicit false

namespace IntegerPrograms.Decimal

/-- What a double stands for. A finite one is `mantissa · 2 ^ exponent`, with a sign that zero has
too. -/
inductive Binary where
  | nan
  | infinite (negative : Bool)
  | finite (negative : Bool) (mantissa : Nat) (exponent : Int)
  deriving DecidableEq

namespace Binary

def hiddenBit : Nat := Nat.pow 2 52

def ofBits (bits : Nat) : Binary :=
  let negative := decide (Nat.pow 2 63 ≤ bits)
  let exponent := bits / hiddenBit % 2048
  let fraction := bits % hiddenBit
  if exponent = 2047 then
    if fraction = 0 then .infinite negative else .nan
  else if exponent = 0 then .finite negative fraction (-1074)
  else .finite negative (hiddenBit + fraction) ((exponent : Int) - 1075)

def ofFloat (v : Float) : Binary := ofBits v.toBits.toNat

def numerator (mantissa : Nat) (exponent : Int) : Nat := mantissa * Nat.pow 2 exponent.toNat

def denominator (exponent : Int) : Nat := Nat.pow 2 (-exponent).toNat

theorem denominator_pos (exponent : Int) : 0 < denominator exponent :=
  Nat.pow_pos (by decide)

end Binary

def signed (v : Float) (magnitude : Nat → Int → List Char) : String :=
  match Binary.ofFloat v with
  | .nan => "NaN"
  | .infinite negative => if negative then "-inf" else "inf"
  | .finite negative m q => String.ofList ((if negative then ['-'] else []) ++ magnitude m q)

end IntegerPrograms.Decimal
