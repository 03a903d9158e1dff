import IntegerPrograms.Decimal.Binary

set_option autoImplicit false

namespace IntegerPrograms.Decimal

def fixedMagnitude (places m : Nat) (q : Int) : List Char :=
  pointed (roundDiv .even (Binary.numerator m q * Nat.pow 10 places) (Binary.denominator q)) places

def fixed (places : Nat) (v : Float) : String := signed v (fixedMagnitude places)

def scientificDigits (places num den : Nat) : Nat × Int :=
  let e := magnitude num den
  let d := roundDiv .even (num * above (places - e)) (den * above (e - places))
  if d < Nat.pow 10 (places + 1) then (d, e) else (d / 10, e + 1)

def scientificMagnitude (places m : Nat) (q : Int) : List Char :=
  let (d, e) :=
    if m = 0 then (0, 0)
    else scientificDigits places (Binary.numerator m q) (Binary.denominator q)
  pointed d places ++ 'e' :: (toString e).toList

def scientific (places : Nat) (v : Float) : String := signed v (scientificMagnitude places)

end IntegerPrograms.Decimal
