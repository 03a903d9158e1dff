import IntegerPrograms.Tableau.Pivot

/-!
The two-phase simplex method. Primal pivots remove negative reduced costs, dual pivots then remove
negative right-hand sides. The slacks start basic, so a problem without negative costs goes straight
to the dual phase, and a row appended later is repaired by that phase alone.
-/

set_option autoImplicit false

namespace IntegerPrograms

variable {α : Type} [Scalar α] {n m : Nat}

inductive LpStatus where
  | optimal
  | infeasible
  | unbounded
  | pivotLimit
  | notDualFeasible
  deriving DecidableEq

namespace LpStatus

def name : LpStatus → String
  | .optimal => "Optimal"
  | .infeasible => "Infeasible"
  | .unbounded => "Unbounded"
  | .pivotLimit => "MaxIterationsExceeded"
  | .notDualFeasible => "NotDualFeasible"

def label : LpStatus → String
  | .pivotLimit => "MaxIterations"
  | s => s.name

def isInfeasible (s : LpStatus) : Bool := s == .infeasible || s == .notDualFeasible

def hasSolution (s : LpStatus) : Bool := s == .optimal || s == .pivotLimit

end LpStatus

structure LpSettings where
  maxPivots : Nat := 1000
  verbose : Bool := false

structure PivotCount where
  total : Nat
  primal : Nat
  dual : Nat
  deriving DecidableEq

structure LpResult (α : Type) where
  status : LpStatus
  x : List α
  s : List α
  z : List α
  objective : α
  pivots : PivotCount

namespace Tableau

/-- The answer that a tableau stands for. Point and slacks are zero unless the status has a
solution; it fails if the right-hand side itself became basic. -/
def extract? (t : Tableau α n m) (status : LpStatus) (pivots : PivotCount) :
    Option (LpResult α) :=
  if status.hasSolution && !t.basisProper then none
  else
    let read (j : Fin (n + m + 1)) := if status.hasSolution then t.value j else 0
    some {
      status
      x := List.ofFn fun j : Fin n => read (decisionCol j)
      s := List.ofFn fun k : Fin m => read (slackCol k)
      z := List.ofFn fun k : Fin m => t.reducedCost (slackCol k)
      objective := t.objective
      pivots }

end Tableau

structure PivotRecord (α : Type) where
  row : Nat
  col : Nat
  leaving : Nat
  element : α

def PivotRecord.of (t : Tableau α n m) (row : Fin m) (col : Fin (n + m + 1)) : PivotRecord α :=
  ⟨row, col, t.basic row, t.get row.castSucc col⟩

def Tableau.recordedPivot? (t : Tableau α n m) (row col : Nat) :
    Option (PivotRecord α × Tableau α n m) :=
  if h : row < m ∧ col < n + m + 1 then
    some (.of t ⟨row, h.1⟩ ⟨col, h.2⟩, t.pivot ⟨row, h.1⟩ ⟨col, h.2⟩)
  else none

inductive PhaseEnd where
  | goal
  | blocked (line : Nat)
  | capped
  deriving DecidableEq

structure Phase (α : Type) (n m : Nat) where
  pivots : List (PivotRecord α)
  ending : PhaseEnd
  final : Tableau α n m

namespace Phase

def idle (t : Tableau α n m) : Phase α n m := ⟨[], .goal, t⟩

/-- Pivots by a rule until it stops, at most `cap` times. A goal that the last pivot reaches still
counts. -/
def run (rule : Tableau α n m → Tableau.Step n m) : Nat → Tableau α n m → Phase α n m
  | 0, t =>
    match rule t with
    | .goal => idle t
    | _ => ⟨[], .capped, t⟩
  | cap + 1, t =>
    match rule t with
    | .goal => idle t
    | .blocked line => ⟨[], .blocked line, t⟩
    | .pivot row col =>
      let rest := run rule cap (t.pivot row col.castSucc)
      { rest with pivots := .of t row col.castSucc :: rest.pivots }

theorem length_pivots_run_le (rule : Tableau α n m → Tableau.Step n m) (cap : Nat)
    (t : Tableau α n m) : (run rule cap t).pivots.length ≤ cap := by
  induction cap generalizing t with
  | zero => rw [run]; split <;> simp [idle]
  | succ cap ih =>
    rw [run]
    split
    · simp [idle]
    · simp
    · simpa using ih _

end Phase

/-- A whole solve: both phases and how they ended together. -/
structure LpRun (α : Type) (n m : Nat) where
  primal : Phase α n m
  dual : Phase α n m
  status : LpStatus

namespace LpRun

def final (r : LpRun α n m) : Tableau α n m := r.dual.final

def pivots (r : LpRun α n m) : PivotCount :=
  ⟨r.primal.pivots.length + r.dual.pivots.length, r.primal.pivots.length, r.dual.pivots.length⟩

def dualStatus : PhaseEnd → LpStatus
  | .goal => .optimal
  | .blocked _ => .infeasible
  | .capped => .pivotLimit

def afterPrimal (cap : Nat) (primal : Phase α n m) : LpRun α n m :=
  if primal.final.primalEntering.isSome then ⟨primal, .idle primal.final, .notDualFeasible⟩
  else
    let dual := Phase.run Tableau.dualStep cap primal.final
    ⟨primal, dual, dualStatus dual.ending⟩

def ofTableau (cap : Nat) (t : Tableau α n m) : LpRun α n m :=
  let primal := if t.isDualFeasible then .idle t else Phase.run Tableau.primalStep cap t
  match primal.ending with
  | .goal => afterPrimal cap primal
  | .blocked _ => ⟨primal, .idle primal.final, .unbounded⟩
  | .capped => ⟨primal, .idle primal.final, .pivotLimit⟩

end LpRun

structure Solved (α : Type) where
  problem : Problem α
  run : LpRun α problem.numVars problem.numRows
  result : LpResult α

/-- Solves a linear program. It fails only on data that the tableau cannot hold. -/
def Problem.solve? (p : Problem α) (settings : LpSettings) : Option (Solved α) := do
  let t ← Tableau.ofProblem? p
  let run := LpRun.ofTableau settings.maxPivots t
  let result ← run.final.extract? run.status run.pivots
  return ⟨p, run, result⟩

end IntegerPrograms
