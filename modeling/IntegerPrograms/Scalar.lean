/-!
The arithmetic that the solvers compute with. Every algorithm of this library is written once over
`Scalar`: it runs on double-precision numbers and is reasoned about on exact rationals.
-/

set_option autoImplicit false

namespace IntegerPrograms

/-- Ordered arithmetic with rounding to whole numbers. No law is assumed: an instance may round,
overflow, and hold values that compare with nothing. -/
class Scalar (α : Type) extends Zero α, One α, Add α, Sub α, Mul α, Div α, Neg α, LT α, LE α,
    OfScientific α where
  decideLt : (a b : α) → Decidable (a < b)
  decideLe : (a b : α) → Decidable (a ≤ b)
  abs : α → α
  floor : α → α
  ceil : α → α
  round : α → α
  isFinite : α → Bool
  infinity? : Option α

namespace Scalar

variable {α : Type} [Scalar α]

instance (a b : α) : Decidable (a < b) := decideLt a b

instance (a b : α) : Decidable (a ≤ b) := decideLe a b

def belowInfinity (v : α) : Bool :=
  match (infinity? : Option α) with
  | some top => decide (v < top)
  | none => true

def reachesInfinity (v : α) : Bool :=
  match (infinity? : Option α) with
  | some top => decide (top ≤ v)
  | none => false

/-- A sum starts from negative zero, so a sum of negative zeros keeps its sign. -/
def sum (l : List α) : α := l.foldl (· + ·) (-0)

def dot (l r : List α) : α := sum (List.zipWith (· * ·) l r)

/-- The larger of a running maximum and a value. A value that compares with nothing is passed
over. -/
def raise (most v : α) : α := if most < v then v else most

end Scalar

instance : Scalar Float where
  decideLt := Float.decLt
  decideLe := Float.decLe
  abs := Float.abs
  floor := Float.floor
  ceil := Float.ceil
  round := Float.round
  isFinite := Float.isFinite
  infinity? := some (1 / 0)

instance : Scalar Rat where
  toZero := @Zero.ofOfNat0 Rat Rat.instOfNat
  toOne := @One.ofOfNat1 Rat Rat.instOfNat
  decideLt := Rat.instDecidableLt
  decideLe := Rat.instDecidableLe
  abs := Rat.abs
  floor v := (v.floor : Rat)
  ceil v := (v.ceil : Rat)
  round v :=
    if v.num < 0 then -((-v + mkRat 1 2).floor : Rat) else ((v + mkRat 1 2).floor : Rat)
  isFinite _ := true
  infinity? := none

theorem Scalar.belowInfinity_rat (v : Rat) : Scalar.belowInfinity v = true := rfl

theorem Scalar.reachesInfinity_rat (v : Rat) : Scalar.reachesInfinity v = false := rfl

end IntegerPrograms
