import IntegerPrograms.Scalar

set_option autoImplicit false

namespace IntegerPrograms

variable {α : Type} [Scalar α]

structure Problem (α : Type) where
  c : List α
  A : List (List α)
  b : List α
  deriving DecidableEq

inductive Coefficients where
  | costs | rows | rightHandSides
  deriving DecidableEq

def Coefficients.symbol : Coefficients → String
  | .costs => "c"
  | .rows => "A"
  | .rightHandSides => "b"

inductive Defect where
  | rowCount (rows rhs : Nat)
  | rowLength (row length vars : Nat)
  | nonFinite (what : Coefficients) (index : Nat)
  deriving DecidableEq

def Defect.message : Defect → String
  | .rowCount rows rhs => s!"Dimension mismatch: A has {rows} rows, b has length {rhs}"
  | .rowLength row length vars =>
      s!"Dimension mismatch: row {row} of A has {length} cols, c has length {vars}"
  | .nonFinite what index => s!"Non-finite coefficient in {what.symbol} at index {index}"

namespace Problem

def numVars (p : Problem α) : Nat := p.c.length

def numRows (p : Problem α) : Nat := p.b.length

def nonFinite? (l : List α) : Option Nat := l.findIdx? fun v => !Scalar.isFinite v

/-- The first defect: the number of rows, the length of each row, then the costs, the right-hand
sides and the rows for values that are not finite. -/
def defect? (p : Problem α) : Option Defect :=
  if p.A.length ≠ p.numRows then some (.rowCount p.A.length p.numRows)
  else match p.A.findIdx? fun row => row.length ≠ p.numVars with
    | some i => some (.rowLength i (p.A[i]?.elim 0 List.length) p.numVars)
    | none =>
      ((nonFinite? p.c).map (.nonFinite .costs)).or <|
      ((nonFinite? p.b).map (.nonFinite .rightHandSides)).or <|
      (nonFinite? p.A.flatten).map (.nonFinite .rows)

def Valid (p : Problem α) : Prop := p.defect? = none

def ofData (c : List α) (A : List (List α)) (b : List α) : Except Defect (Problem α) :=
  match defect? ⟨c, A, b⟩ with
  | some d => .error d
  | none => .ok ⟨c, A, b⟩

def withRow (p : Problem α) (row : List α) (rhs : α) : Problem α :=
  { p with A := p.A ++ [row], b := p.b ++ [rhs] }

def objective (p : Problem α) (x : List α) : α := Scalar.dot p.c x

def excesses (p : Problem α) (x : List α) : List α :=
  List.zipWith (fun row rhs => Scalar.dot row x - rhs) p.A p.b

/-- The largest violation of `A x ≤ b` and `x ≥ 0`, or zero. -/
def maxViolation (p : Problem α) (x : List α) : α :=
  Scalar.raise ((p.excesses x).foldl Scalar.raise 0) ((x.map (-·)).foldl Scalar.raise 0)

def isFeasible (p : Problem α) (x : List α) (tol : α) : Bool :=
  x.length == p.numVars && decide (p.maxViolation x ≤ tol)

def Feasible (p : Problem α) (x : List α) : Prop :=
  x.length = p.numVars ∧ (∀ e ∈ p.excesses x, e ≤ 0) ∧ ∀ v ∈ x, 0 ≤ v

omit [Scalar α] in
theorem numVars_withRow (p : Problem α) (row : List α) (rhs : α) :
    (p.withRow row rhs).numVars = p.numVars := rfl

omit [Scalar α] in
theorem numRows_withRow (p : Problem α) (row : List α) (rhs : α) :
    (p.withRow row rhs).numRows = p.numRows + 1 := by
  simp [withRow, numRows]

end Problem

end IntegerPrograms
