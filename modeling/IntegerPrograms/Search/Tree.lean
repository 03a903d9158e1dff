import IntegerPrograms.Search.Frontier
import IntegerPrograms.Search.Incumbent
import IntegerPrograms.Search.Settings

set_option autoImplicit false

namespace IntegerPrograms

variable {α β : Type} [Scalar α]

inductive NodeStatus where
  | infeasible
  | unbounded
  | pivotLimit
  | dominated
  | integral
  | branched
  deriving DecidableEq

namespace NodeStatus

def name : NodeStatus → String
  | .infeasible => "Infeasible"
  | .unbounded => "Unbounded"
  | .pivotLimit => "IterationLimit"
  | .dominated => "PrunedBound"
  | .integral => "IntegerFound"
  | .branched => "Branched"

def label : NodeStatus → String
  | .infeasible => "Infeasible"
  | .unbounded => "Unbounded"
  | .pivotLimit => "Iteration Limit"
  | .dominated => "Pruned (Bound)"
  | .integral => "Integer Found"
  | .branched => "Branched"

end NodeStatus

inductive SearchStatus where
  | optimal
  | infeasible
  | unbounded
  | nodeLimit
  deriving DecidableEq

namespace SearchStatus

def name : SearchStatus → String
  | .optimal => "Optimal"
  | .infeasible => "Infeasible"
  | .unbounded => "Unbounded"
  | .nodeLimit => "NodeLimit"

def hasSolution (s : SearchStatus) : Bool := s == .optimal || s == .nodeLimit

end SearchStatus

inductive Verdict (α : Type) where
  | infeasible
  | unbounded
  | pivotLimit
  | dominated
  | integral (improves : Bool)
  | fractional (choice : Fractional α)

def Verdict.status : Verdict α → NodeStatus
  | .infeasible => .infeasible
  | .unbounded => .unbounded
  | .pivotLimit => .pivotLimit
  | .dominated => .dominated
  | .integral _ => .integral
  | .fractional _ => .branched

/-- Judges a relaxation: by the status of the solve, then by the incumbent, then by integrality.
Fails if the point is too short. -/
def MixedProblem.judge? (p : MixedProblem α) (settings : SearchSettings α) (inc : Incumbent α)
    (r : LpResult α) : Option (Verdict α) :=
  match r.status with
  | .infeasible | .notDualFeasible => some .infeasible
  | .unbounded => some .unbounded
  | .pivotLimit => some .pivotLimit
  | .optimal =>
    if inc.dominates r.objective then some .dominated
    else (p.select? settings.branching r.x settings.tolerance).map fun
      | some choice => .fractional choice
      | none => .integral (inc.improvedBy r.objective)

structure SearchTree (α β : Type) where
  frontier : Frontier β := {}
  incumbent : Incumbent α := {}
  nextId : Nat := 2
  pruned : Nat := 0
  cutsAdded : Nat := 0
  degraded : Nat := 0
  sawUnbounded : Bool := false

structure Solution (α : Type) where
  status : SearchStatus
  incumbent : Incumbent α
  explored : Nat
  cutsAdded : Nat
  degraded : Nat

namespace SearchTree

def push (t : SearchTree α β) (node : β) : SearchTree α β :=
  { t with frontier := t.frontier.push node }

def pop? (t : SearchTree α β) : Option (β × SearchTree α β) :=
  t.frontier.pop?.map fun (node, frontier) => (node, { t with frontier })

def explored (t : SearchTree α β) : Nat := t.frontier.popped

def childIds (t : SearchTree α β) : (Nat × Nat) × SearchTree α β :=
  ((t.nextId, t.nextId + 1), { t with nextId := t.nextId + 2 })

def addCuts (t : SearchTree α β) (count : Nat) : SearchTree α β :=
  { t with cutsAdded := t.cutsAdded + count }

def offer (t : SearchTree α β) (x : List α) (objective : α) : SearchTree α β :=
  { t with incumbent := t.incumbent.update x objective }

def settle (t : SearchTree α β) (r : LpResult α) : Verdict α → SearchTree α β
  | .infeasible | .dominated => { t with pruned := t.pruned + 1 }
  | .unbounded => { t with pruned := t.pruned + 1, sawUnbounded := true }
  | .pivotLimit => { t with pruned := t.pruned + 1, degraded := t.degraded + 1 }
  | .integral _ => t.offer r.x r.objective
  | .fractional _ => t

def exhausted (t : SearchTree α β) : SearchStatus :=
  if t.sawUnbounded then .unbounded
  else if t.incumbent.best.isSome then .optimal
  else .infeasible

def interrupted (t : SearchTree α β) : SearchStatus :=
  if t.sawUnbounded then .unbounded else .nodeLimit

def status (t : SearchTree α β) : SearchStatus :=
  if t.frontier.isEmpty then t.exhausted else t.interrupted

def status? (t : SearchTree α β) (maxNodes : Nat) : Option SearchStatus :=
  if t.frontier.isEmpty || decide (maxNodes ≤ t.explored) then some t.status else none

def solution (t : SearchTree α β) (status : SearchStatus) : Solution α :=
  ⟨status, t.incumbent, t.explored, t.cutsAdded, t.degraded⟩

end SearchTree

end IntegerPrograms
