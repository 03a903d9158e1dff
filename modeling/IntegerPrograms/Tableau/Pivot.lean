import IntegerPrograms.Tableau.Basic
import IntegerPrograms.Least

set_option autoImplicit false

namespace IntegerPrograms

variable {α : Type} [Scalar α] {n m : Nat}

namespace Tableau

def isDualFeasible (t : Tableau α n m) : Bool :=
  (List.finRange (n + m)).all fun j => decide (-Tolerance.pivot ≤ t.reducedCost j.castSucc)

def primalEntering (t : Tableau α n m) : Option (Fin (n + m)) :=
  leastBy (fun v => decide (v < -Tolerance.ratio)) (fun j => some (t.reducedCost j.castSucc))
    (List.finRange (n + m))

def primalRatio? (t : Tableau α n m) (j : Fin (n + m + 1)) (i : Fin m) : Option α :=
  if Tolerance.ratio < t.get i.castSucc j then some (t.rhs i.castSucc / t.get i.castSucc j)
  else none

def primalLeaving (t : Tableau α n m) (j : Fin (n + m + 1)) : Option (Fin m) :=
  leastBy Scalar.belowInfinity (t.primalRatio? j) (List.finRange m)

def dualLeaving (t : Tableau α n m) : Option (Fin m) :=
  leastBy (fun v => decide (v < -Tolerance.pivot)) (fun i => some (t.rhs i.castSucc))
    (List.finRange m)

def dualRatio? (t : Tableau α n m) (i : Fin (m + 1)) (j : Fin (n + m)) : Option α :=
  if t.get i j.castSucc < -Tolerance.pivot then
    some (Scalar.abs (t.reducedCost j.castSucc / t.get i j.castSucc))
  else none

def dualEntering (t : Tableau α n m) (i : Fin (m + 1)) : Option (Fin (n + m)) :=
  leastBy Scalar.belowInfinity (t.dualRatio? i) (List.finRange (n + m))

def scaledRow (t : Tableau α n m) (r : Fin m) (k : Fin (n + m + 1)) : Vector α (n + m + 1) :=
  let element := t.get r.castSucc k
  Vector.ofFn fun j => t.get r.castSucc j / element

/-- A row less a multiple of the scaled pivot row. A factor of zero, within tolerance, leaves the
row as it is. -/
def eliminate {w : Nat} (factor : α) (scaled row : Vector α w) : Vector α w :=
  if Tolerance.pivot < Scalar.abs factor then
    Vector.ofFn fun j => row.get j - factor * scaled.get j
  else row

def pivot (t : Tableau α n m) (r : Fin m) (k : Fin (n + m + 1)) : Tableau α n m :=
  let scaled := t.scaledRow r k
  { cells := Vector.ofFn fun i =>
      if i.val = r.val then scaled else eliminate (t.get i k) scaled (t.row i)
    basis := Vector.ofFn fun i => if i.val = r.val then k else t.basic i }

def get? (t : Tableau α n m) (row col : Nat) : Option α :=
  if h : row < m + 1 ∧ col < n + m + 1 then some (t.get ⟨row, h.1⟩ ⟨col, h.2⟩) else none

def basic? (t : Tableau α n m) (row : Nat) : Option Nat :=
  if h : row < m then some (t.basic ⟨row, h⟩) else none

/-- A scan over no rows looks at no column. -/
def primalLeaving? (t : Tableau α n m) (col : Nat) : Option (Option Nat) :=
  if m = 0 then some none
  else if h : col < n + m + 1 then some ((t.primalLeaving ⟨col, h⟩).map Fin.val)
  else none

def dualEntering? (t : Tableau α n m) (row : Nat) : Option (Option Nat) :=
  if n + m = 0 then some none
  else if h : row < m + 1 then some ((t.dualEntering ⟨row, h⟩).map Fin.val)
  else none

/-- What a phase does next: it has reached its goal, it has a line that no pivot repairs, or it
pivots. -/
inductive Step (n m : Nat) where
  | goal
  | blocked (line : Nat)
  | pivot (row : Fin m) (col : Fin (n + m))
  deriving DecidableEq

def primalStep (t : Tableau α n m) : Step n m :=
  match t.primalEntering with
  | none => .goal
  | some col =>
    match t.primalLeaving col.castSucc with
    | none => .blocked col
    | some row => .pivot row col

def dualStep (t : Tableau α n m) : Step n m :=
  match t.dualLeaving with
  | none => .goal
  | some row =>
    match t.dualEntering row.castSucc with
    | none => .blocked row
    | some col => .pivot row col

theorem basic_pivot (t : Tableau α n m) (r : Fin m) (k : Fin (n + m + 1)) (i : Fin m) :
    (t.pivot r k).basic i = if i.val = r.val then k else t.basic i := by
  simp only [basic, pivot, get_ofFn]

theorem row_pivot (t : Tableau α n m) (r : Fin m) (k : Fin (n + m + 1)) (i : Fin (m + 1)) :
    (t.pivot r k).row i =
      if i.val = r.val then t.scaledRow r k
      else eliminate (t.get i k) (t.scaledRow r k) (t.row i) := by
  simp only [row, pivot, get_ofFn]

theorem get_scaledRow (t : Tableau α n m) (r : Fin m) (k j : Fin (n + m + 1)) :
    (t.scaledRow r k).get j = t.get r.castSucc j / t.get r.castSucc k := by
  simp only [scaledRow, get_ofFn]

theorem get_eliminate {w : Nat} (factor : α) (scaled row : Vector α w) (j : Fin w) :
    (eliminate factor scaled row).get j =
      if Tolerance.pivot < Scalar.abs factor then row.get j - factor * scaled.get j
      else row.get j := by
  by_cases h : Tolerance.pivot < Scalar.abs factor
  · simp only [eliminate, if_pos h, get_ofFn]
  · simp only [eliminate, if_neg h]

theorem get_pivot_self (t : Tableau α n m) (r : Fin m) (k j : Fin (n + m + 1)) :
    (t.pivot r k).get r.castSucc j = t.get r.castSucc j / t.get r.castSucc k := by
  rw [get, row_pivot, if_pos (by rfl), get_scaledRow]

theorem get_pivot_of_ne (t : Tableau α n m) (r : Fin m) (k j : Fin (n + m + 1))
    (i : Fin (m + 1)) (h : i.val ≠ r.val) :
    (t.pivot r k).get i j =
      if Tolerance.pivot < Scalar.abs (t.get i k) then
        t.get i j - t.get i k * (t.get r.castSucc j / t.get r.castSucc k)
      else t.get i j := by
  rw [get, row_pivot, if_neg h, get_eliminate, get_scaledRow]
  rfl

end Tableau

end IntegerPrograms
