import IntegerPrograms.Json.Printer
import IntegerPrograms.Outcome
import IntegerPrograms.Report.Journal

set_option autoImplicit false

namespace IntegerPrograms

structure Report.Elapsed where
  millis : Nat
  text : String
  column : String

open Report

namespace Outcome

def lpDocument (r : LpResult Float) : JsonValue :=
  .record [("status", .text r.status.name), ("x", .floats r.x), ("s", .floats r.s),
    ("z", .floats r.z), ("obj_val", .float r.objective),
    ("info", .record [("iters", .nat r.pivots.total), ("primal_iters", .nat r.pivots.primal),
      ("dual_iters", .nat r.pivots.dual)])]

def solutionDocument (millis : Nat) (s : Solution Float) : JsonValue :=
  .record [("status", .text s.status.name), ("x", .floats s.incumbent.x),
    ("obj_val", .float s.incumbent.objective.toFloat), ("nodes_explored", .nat s.explored),
    ("cuts_added", .nat (counter s.cutsAdded)), ("incumbent_updates", .nat s.incumbent.updates),
    ("degraded_nodes", .nat s.degraded), ("solve_time_ms", .nat millis)]

def nodeDocument (r : NodeRecord) : JsonValue :=
  .record [("id", .nat r.id), ("parent_id", .ofOption .nat r.parent),
    ("constraints", .text r.constraints), ("objective", .ofOption .float r.objective),
    ("status", .text r.status.name), ("solution", .text r.solution)]

def cutNodeDocument (r : CutNodeRecord) : JsonValue :=
  .record [("id", .nat r.id), ("parent_id", .ofOption .nat r.parent), ("depth", .nat r.depth),
    ("status", .text r.status.name), ("objective", .ofOption .float r.objective),
    ("solution", .text r.solution), ("cuts_applied", .nat r.cutsApplied)]

def cutDocument (r : CutRecord) : JsonValue :=
  .record [("node_id", .nat r.node), ("iteration", .nat r.round), ("cut_type", .text cutFamily),
    ("status", .text r.status.name), ("constraint", .text r.constraint),
    ("improvement", .ofOption .float r.improvement)]

/-- The records of the nodes in the order of the visits; `nodes` has them by their ids. -/
def visitOrder (run : SearchRun Float (List (Bound Float))) : List NodeRecord :=
  run.visits.map NodeRecord.ofVisit

def nodes (run : SearchRun Float (List (Bound Float))) : List NodeRecord :=
  (byId run.visits).map NodeRecord.ofVisit

def cutVisitOrder (run : SearchRun Float (Problem Float)) : List CutNodeRecord :=
  run.visits.map CutNodeRecord.ofVisit

def cutNodes (run : SearchRun Float (Problem Float)) : List CutNodeRecord :=
  (byId run.visits).map CutNodeRecord.ofVisit

def cuts (run : SearchRun Float (Problem Float)) : List CutRecord := run.visits.flatMap cutRecords

def document (millis : Nat) : Outcome Float → JsonValue
  | .lp _ solved => .record [("method", .text "lp"), ("result", lpDocument solved.result)]
  | .branchAndBound _ run =>
    .record [("method", .text "branch_and_bound"),
      ("solution", solutionDocument millis run.solution),
      ("nodes", .array ((nodes run).map nodeDocument))]
  | .branchAndCut _ run =>
    .record [("method", .text "branch_and_cut"),
      ("solution", solutionDocument millis run.solution),
      ("history", .record [("nodes", .array ((cutNodes run).map cutNodeDocument)),
        ("cuts", .array ((cuts run).map cutDocument))])]

def entries : Outcome Float → List Entry
  | .lp settings solved => Journal.lpRun settings solved.run
  | .branchAndBound search run => Journal.boundRun search run
  | .branchAndCut search run => Journal.cutRun search run

def rule (c : Char) : String := String.ofList (List.replicate 80 c)

def heading (title : String) : List String := ["", rule '=', title, rule '=']

def nodeTrace (lines : List String) : List String :=
  heading "Node trace (minimization form)" ++ lines

def cutTrace (lines : List String) : List String :=
  heading "Cut trace" ++ if lines.isEmpty then ["No cuts were generated."] else lines

def details (elapsed : Elapsed) (trace : Bool) : Outcome Float → List String
  | .lp _ solved =>
    let count := solved.result.pivots
    [s!"Iterations:       {count.total} (primal {count.primal}, dual {count.dual})"]
  | .branchAndBound _ run =>
    [s!"Nodes explored:   {run.solution.explored}", s!"Solve time:       {elapsed.text} ms"] ++
      if trace then nodeTrace ((nodes run).map NodeRecord.line) else []
  | .branchAndCut _ run =>
    [s!"Nodes explored:   {run.solution.explored}",
      s!"Cuts added:       {counter run.solution.cutsAdded}",
      s!"Solve time:       {elapsed.text} ms"] ++
      if trace then
        nodeTrace ((cutNodes run).map CutNodeRecord.line) ++
          cutTrace ((cuts run).map CutRecord.line)
      else []

def reported? (o : Outcome Float) (file : ProblemFile Float) : Option Float :=
  o.objective?.map fun v => file.report v.toFloat

def summary (o : Outcome Float) (file : ProblemFile Float) (elapsed : Elapsed) (trace : Bool) :
    List String :=
  let objective := (o.reported? file).elim notAvailable (Decimal.fixed 6)
  [s!"Status:           {o.status}", s!"Objective:        {objective}",
    s!"Solution:         {point o.x}"] ++ o.details elapsed trace

end Outcome

end IntegerPrograms
