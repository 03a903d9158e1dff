import IntegerPrograms.ProblemFile
import IntegerPrograms.Search.Run

set_option autoImplicit false

namespace IntegerPrograms

variable {α : Type} [Scalar α]

inductive Method where
  | lp
  | branchAndBound
  | branchAndCut
  deriving DecidableEq

inductive SolveError where
  | data (defect : Defect)
  | mixed (error : MixedError)
  | misshapen

def SolveError.chain : SolveError → List String
  | .data defect => ["Invalid problem data", defect.message]
  | .mixed error => [error.message]
  | .misshapen => ["Problem does not fit its tableau"]

inductive Outcome (α : Type) [Scalar α] where
  | lp (settings : LpSettings) (solved : Solved α)
  | branchAndBound (search : Search α (List (Bound α))) (run : SearchRun α (List (Bound α)))
  | branchAndCut (search : Search α (Problem α)) (run : SearchRun α (Problem α))

namespace Outcome

def status : Outcome α → String
  | .lp _ solved => solved.result.status.label
  | .branchAndBound _ run => run.solution.status.name
  | .branchAndCut _ run => run.solution.status.name

def searchObjective? (s : Solution α) : Option (Extended α) :=
  if s.status.hasSolution then some s.incumbent.objective else none

/-- The objective value to minimize, if the status promises one. -/
def objective? : Outcome α → Option (Extended α)
  | .lp _ solved =>
    if solved.result.status = .optimal then some (.value solved.result.objective) else none
  | .branchAndBound _ run => searchObjective? run.solution
  | .branchAndCut _ run => searchObjective? run.solution

def x : Outcome α → List α
  | .lp _ solved => solved.result.x
  | .branchAndBound _ run => run.solution.incumbent.x
  | .branchAndCut _ run => run.solution.incumbent.x

end Outcome

namespace Problem

def mixed (p : Problem α) (integers : List Nat) : Except SolveError (MixedProblem α) :=
  (MixedProblem.ofProblem p integers).mapError .mixed

def orMisshapen {β : Type} : Option β → Except SolveError β
  | some v => .ok v
  | none => .error .misshapen

def solveBy (p : Problem α) (method : Method) (integers : List Nat) (settings : SearchSettings α) :
    Except SolveError (Outcome α) :=
  match method with
  | .lp => return .lp settings.lp (← orMisshapen (p.solve? settings.lp))
  | .branchAndBound => do
    let search := IntegerPrograms.branchAndBound (← p.mixed integers) settings
    return .branchAndBound search (← orMisshapen search.run?)
  | .branchAndCut => do
    let search := IntegerPrograms.branchAndCut (← p.mixed integers) settings
    return .branchAndCut search (← orMisshapen search.run?)

end Problem

def ProblemFile.solveBy (f : ProblemFile α) (method : Method) (settings : SearchSettings α) :
    Except SolveError (Outcome α) := do
  let p ← f.toProblem.mapError .data
  p.solveBy method f.integers settings

end IntegerPrograms
