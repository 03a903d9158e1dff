import IntegerPrograms.MixedProblem

set_option autoImplicit false

namespace IntegerPrograms

variable {α : Type} [Scalar α]

inductive Side where
  | upper | lower
  deriving DecidableEq

structure Bound (α : Type) where
  var : Nat
  side : Side
  value : α
  deriving DecidableEq

namespace Bound

def below (var : Nat) (value : α) : Bound α := ⟨var, .upper, Scalar.floor value⟩

def above (var : Nat) (value : α) : Bound α := ⟨var, .lower, Scalar.ceil value⟩

def unitRow (n var : Nat) (v : α) : List α := (List.replicate n 0).set var v

def row? (bound : Bound α) (n : Nat) : Option (List α × α) :=
  if bound.var < n then
    match bound.side with
    | .upper => some (unitRow n bound.var 1, bound.value)
    | .lower => some (unitRow n bound.var (-1), -bound.value)
  else none

theorem length_unitRow (n var : Nat) (v : α) : (unitRow n var v).length = n := by
  simp [unitRow]

end Bound

namespace Problem

def withBound? (p : Problem α) (bound : Bound α) : Option (Problem α) :=
  (bound.row? p.numVars).map fun (row, rhs) => p.withRow row rhs

def withBounds? (p : Problem α) (bounds : List (Bound α)) : Option (Problem α) :=
  bounds.foldlM withBound? p

theorem withBounds?_append (p : Problem α) (bounds : List (Bound α)) (bound : Bound α) :
    p.withBounds? (bounds ++ [bound]) = (p.withBounds? bounds).bind (·.withBound? bound) := by
  simp [withBounds?, List.foldlM_append]

end Problem

namespace Fractional

def down (f : Fractional α) : Bound α := .below f.var f.value

def up (f : Fractional α) : Bound α := .above f.var f.value

/-- The first of those closest to one half. Distances within tolerance of each other count as
equal. -/
def most? (l : List (Fractional α)) : Option (Fractional α) :=
  l.foldl (fun best f =>
    match best with
    | none => some f
    | some g => if f.score ≤ g.score + Tolerance.ratio then some g else some f) none

end Fractional

inductive BranchingRule where
  | firstFractional
  | mostFractional
  deriving DecidableEq

def BranchingRule.pick? : BranchingRule → List (Fractional α) → Option (Fractional α)
  | .firstFractional, l => l.head?
  | .mostFractional, l => Fractional.most? l

namespace MixedProblem

/-- The variable to branch on at a point; `some none` if all integer variables are whole. Fails if
the point is too short. -/
def select? (p : MixedProblem α) (rule : BranchingRule) (x : List α) (tol : α) :
    Option (Option (Fractional α)) :=
  (p.fractional? x tol).map rule.pick?

end MixedProblem

end IntegerPrograms
