import IntegerPrograms.Report.Text
import IntegerPrograms.Search.Run

/-!
The trace of a search: one record for each visited node and, where cuts are made, one for each
attempt at a cut. Records hold numbers the way they are shown and are read off the visits of a run.
-/

set_option autoImplicit false

namespace IntegerPrograms.Report

variable {β : Type}

structure NodeRecord where
  id : Nat
  parent : Option Nat
  constraints : String
  objective : Option Float
  status : NodeStatus
  solution : String
  deriving BEq

structure CutNodeRecord where
  id : Nat
  parent : Option Nat
  depth : Nat
  status : NodeStatus
  objective : Option Float
  solution : String
  cutsApplied : Nat
  deriving BEq

inductive CutStatus where
  | applied
  | tooWeak
  | notFinite
  deriving DecidableEq

structure CutRecord where
  node : Nat
  round : Nat
  status : CutStatus
  constraint : String
  improvement : Option Float
  deriving BEq

namespace CutStatus

def name : CutStatus → String
  | .applied => "Applied"
  | .tooWeak => "RejectedTooWeak"
  | .notFinite => "RejectedNumerical"

def label : CutStatus → String
  | .applied => "Applied"
  | .tooWeak => "Rejected (Too weak)"
  | .notFinite => "Rejected (Numerical)"

def ofAttempt : Cut.Attempt Float → CutStatus
  | .derived _ _ => .notFinite
  | _ => .tooWeak

end CutStatus

def cutFamily : String := "Gomory"

namespace NodeRecord

def line (r : NodeRecord) : String :=
  let id := padRight 4 (toString r.id)
  let parent := padRight 5 (Report.parent r.parent)
  let status := padRight 16 r.status.label
  let objective := padRight 10 (Report.objective r.objective)
  let solution := padRight 24 r.solution
  s!"#{id} parent={parent} {status} obj={objective} {solution} [{r.constraints}]"

end NodeRecord

namespace CutNodeRecord

def line (r : CutNodeRecord) : String :=
  let id := padRight 4 (toString r.id)
  let parent := padRight 5 (Report.parent r.parent)
  let depth := padRight 3 (toString r.depth)
  let status := padRight 16 r.status.label
  let objective := padRight 10 (Report.objective r.objective)
  let cuts := padRight 2 (toString r.cutsApplied)
  s!"#{id} parent={parent} depth={depth} {status} obj={objective} cuts={cuts} {r.solution}"

end CutNodeRecord

namespace CutRecord

def line (r : CutRecord) : String :=
  let node := padRight 4 (toString r.node)
  let round := padRight 2 (toString r.round)
  let status := padRight 20 r.status.label
  let improvement := r.improvement.elim "" fun d => s!" (improvement {Decimal.fixed 4 d})"
  s!"node={node} round={round} {cutFamily} {status} {r.constraint}{improvement}"

end CutRecord

def shownObjective (r : LpResult Float) : Option Float :=
  if r.status = .optimal then some (roundTo r.objective 4) else none

def shownPoint (r : LpResult Float) : String :=
  if r.status = .optimal then point r.x else notAvailable

def NodeRecord.ofVisit (v : Visit Float (List (Bound Float))) : NodeRecord where
  id := v.node.id
  parent := v.node.parent
  constraints := bounds v.node.store
  objective := shownObjective v.last.result
  status := v.verdict.status
  solution := shownPoint v.last.result

def CutNodeRecord.ofVisit (v : Visit Float β) : CutNodeRecord where
  id := v.node.id
  parent := v.node.parent
  depth := v.node.depth
  status := v.verdict.status
  objective := shownObjective v.last.result
  solution := shownPoint v.last.result
  cutsApplied := v.cuts.length

/-- How far the objective moved from one relaxation to the next; unknown unless the next one was
solved to optimality. -/
def improvement (before after : LpResult Float) : Option Float :=
  if after.status = .optimal then some (after.objective - before.objective) else none

/-- The records of the applied cuts of a node, from a round on. -/
def appliedCuts (node : Nat) (last : LpResult Float) : Nat → List (CutRound Float) → List CutRecord
  | _, [] => []
  | round, c :: rest =>
    let next := rest.head?.elim last fun r => r.solved.result
    { node, round, status := .applied, constraint := cut c.cut.coefs c.cut.rhs,
      improvement := improvement c.solved.result next } :: appliedCuts node last (round + 1) rest

/-- The cut records of a visit: those applied, then the attempt that failed. -/
def cutRecords (v : Visit Float β) : List CutRecord :=
  appliedCuts v.node.id v.last.result 1 v.cuts ++
    v.failed.toList.map fun attempt =>
      { node := v.node.id, round := v.cuts.length + 1, status := .ofAttempt attempt,
        constraint := notAvailable, improvement := none }

def byId {α : Type} (visits : List (Visit α β)) : List (Visit α β) :=
  visits.mergeSort fun a b => decide (a.node.id ≤ b.node.id)

theorem length_appliedCuts (node : Nat) (last : LpResult Float) (round : Nat)
    (cuts : List (CutRound Float)) :
    (appliedCuts node last round cuts).length = cuts.length := by
  induction cuts generalizing round with
  | nil => rfl
  | cons c rest ih => simp [appliedCuts, ih]

end IntegerPrograms.Report
