set_option autoImplicit false

namespace IntegerPrograms.Decimal

inductive Tie where
  | up | even
  deriving DecidableEq

def roundDiv (tie : Tie) (num den : Nat) : Nat :=
  let q := num / den
  let twice := 2 * (num % den)
  if twice < den then q
  else if den < twice then q + 1
  else match tie with
    | .up => q + 1
    | .even => q + q % 2

theorem roundDiv_eq_or (tie : Tie) (num den : Nat) :
    roundDiv tie num den = num / den ∨ roundDiv tie num den = num / den + 1 := by
  unfold roundDiv
  have h := Nat.mod_two_eq_zero_or_one (num / den)
  cases tie <;> simp only <;> split <;> (try split) <;> omega

def digits (n : Nat) : List Char := Nat.toDigits 10 n

def above (e : Int) : Nat := Nat.pow 10 e.toNat

/-- The exponent of the power of ten that a positive fraction `num / den` is at least, and below
ten times of. -/
def magnitude (num den : Nat) : Int :=
  let e : Int := (digits num).length - (digits den).length
  if den * above e ≤ num * above (-e) then e else e - 1

def pointed (n places : Nat) : List Char :=
  let ds := digits n
  let ds := List.replicate (places + 1 - ds.length) '0' ++ ds
  let whole := ds.length - places
  if places = 0 then ds else ds.take whole ++ '.' :: ds.drop whole

def positional (d : Nat) (e : Int) : List Char :=
  if 0 ≤ e then digits (d * above e) else pointed d (-e).toNat

end IntegerPrograms.Decimal
