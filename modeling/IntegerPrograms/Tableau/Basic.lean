import IntegerPrograms.Problem
import IntegerPrograms.Tolerance

/-!
Dense simplex tableaux. A problem with `n` variables and `m` constraints has `m + 1` rows of
`n + m + 1` entries: the decision variables, the slack variables and the right-hand side. The last
row holds the reduced costs, and its last entry the negated objective value.
-/

set_option autoImplicit false

namespace IntegerPrograms

variable {α : Type} [Scalar α] {n m : Nat}

structure Tableau (α : Type) (n m : Nat) where
  cells : Vector (Vector α (n + m + 1)) (m + 1)
  basis : Vector (Fin (n + m + 1)) m

namespace Tableau

def decisionCol (j : Fin n) : Fin (n + m + 1) := ⟨j, by omega⟩

def slackCol (k : Fin m) : Fin (n + m + 1) := ⟨n + k, by omega⟩

def row (t : Tableau α n m) (i : Fin (m + 1)) : Vector α (n + m + 1) := t.cells.get i

def get (t : Tableau α n m) (i : Fin (m + 1)) (j : Fin (n + m + 1)) : α := (t.row i).get j

def rhs (t : Tableau α n m) (i : Fin (m + 1)) : α := t.get i (Fin.last (n + m))

def reducedCost (t : Tableau α n m) (j : Fin (n + m + 1)) : α := t.get (Fin.last m) j

def basic (t : Tableau α n m) (i : Fin m) : Fin (n + m + 1) := t.basis.get i

def objective (t : Tableau α n m) : α := -t.rhs (Fin.last m)

/-- The entry of the first tableau. The slack of a row and its right-hand side take the place of
whatever a row that is too long has there. -/
def initialEntry (p : Problem α) (i j : Nat) : α :=
  if i < p.numRows then
    match p.A[i]? with
    | none => 0
    | some row =>
      if j = p.numVars + p.numRows then p.b[i]?.getD 0
      else if j = p.numVars + i then 1
      else row[j]?.getD 0
  else p.c[j]?.getD 0

def fits (p : Problem α) : Bool :=
  decide (p.A.length ≤ p.numRows) &&
    p.A.all fun row => decide (row.length ≤ p.numVars + p.numRows + 1)

def slackBasis (p : Problem α) : Tableau α p.numVars p.numRows where
  cells := Vector.ofFn fun i => Vector.ofFn fun j => initialEntry p i j
  basis := Vector.ofFn slackCol

def ofProblem? (p : Problem α) : Option (Tableau α p.numVars p.numRows) :=
  if fits p then some (slackBasis p) else none

/-- The value of a column: the right-hand side of the last row in which it is basic, and zero
where there is none. -/
def value (t : Tableau α n m) (j : Fin (n + m + 1)) : α :=
  ((List.finRange m).reverse.find? fun i => t.basic i == j).elim 0 fun i => t.rhs i.castSucc

def basisProper (t : Tableau α n m) : Bool :=
  (List.finRange m).all fun i => decide ((t.basic i).val < n + m)

omit [Scalar α] in
theorem get_ofFn {w : Nat} (f : Fin w → α) (i : Fin w) : (Vector.ofFn f).get i = f i := by
  simp only [Vector.get, Vector.ofFn, Array.getElem_ofFn]
  rfl

theorem get_slackBasis (p : Problem α) (i : Fin (p.numRows + 1))
    (j : Fin (p.numVars + p.numRows + 1)) : (slackBasis p).get i j = initialEntry p i j := by
  simp only [get, row, slackBasis, get_ofFn]

theorem basic_slackBasis (p : Problem α) (i : Fin p.numRows) :
    ((slackBasis p).basic i).val = p.numVars + i := by
  simp only [basic, slackBasis, get_ofFn, slackCol]

end Tableau

end IntegerPrograms
