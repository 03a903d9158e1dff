import IntegerPrograms.Scalar

set_option autoImplicit false

namespace IntegerPrograms

variable {α : Type} [Scalar α]

inductive Extended (α : Type) where
  | infinity
  | value (v : α)
  deriving DecidableEq

def Extended.toFloat : Extended Float → Float
  | .infinity => 1 / 0
  | .value v => v

structure Candidate (α : Type) where
  x : List α
  objective : α

structure Incumbent (α : Type) where
  best : Option (Candidate α) := none
  updates : Nat := 0

namespace Incumbent

/-- An objective value that cannot beat the incumbent. A tie cannot. -/
def dominates (inc : Incumbent α) (objective : α) : Bool :=
  match inc.best with
  | none => Scalar.reachesInfinity objective
  | some best => decide (best.objective ≤ objective)

def improvedBy (inc : Incumbent α) (objective : α) : Bool :=
  match inc.best with
  | none => Scalar.belowInfinity objective
  | some best => decide (objective < best.objective)

def update (inc : Incumbent α) (x : List α) (objective : α) : Incumbent α :=
  if inc.improvedBy objective then ⟨some ⟨x, objective⟩, inc.updates + 1⟩ else inc

def x (inc : Incumbent α) : List α := inc.best.elim [] Candidate.x

def objective (inc : Incumbent α) : Extended α :=
  inc.best.elim .infinity fun best => .value best.objective

theorem best_update (inc : Incumbent α) (x : List α) (v : α) :
    (inc.update x v).best = if inc.improvedBy v then some ⟨x, v⟩ else inc.best := by
  unfold update
  split <;> rfl

end Incumbent

end IntegerPrograms
