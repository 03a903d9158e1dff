import IntegerPrograms.Report.Trace

set_option autoImplicit false

namespace IntegerPrograms.Report

variable {β : Type} {n m : Nat}

inductive Level where
  | warn | info | debug | trace
  deriving DecidableEq

namespace Level

def name : Level → String
  | .warn => "WARN"
  | .info => "INFO"
  | .debug => "DEBUG"
  | .trace => "TRACE"

def rank : Level → Nat
  | .warn => 1
  | .info => 2
  | .debug => 3
  | .trace => 4

end Level

inductive Topic where
  | tableau | simplex | cuts | tree | branchAndBound | branchAndCut | program
  deriving DecidableEq

def Topic.path : Topic → String
  | .tableau => "lp_core::simplex::tableau"
  | .simplex => "lp_core::simplex::dual"
  | .cuts => "lp_core::simplex::gomory"
  | .tree => "lp_mip::search::tree"
  | .branchAndBound => "lp_mip::bnb"
  | .branchAndCut => "lp_mip::bnc"
  | .program => "lp_bench"

structure Entry where
  level : Level
  topic : Topic
  text : String

namespace Journal

def upTo (level : Level) (entries : List Entry) : List Entry :=
  entries.filter fun e => decide (e.level.rank ≤ level.rank)

def pivot (p : PivotRecord Float) : Entry :=
  ⟨.trace, .tableau,
    s!"pivot row={p.row} col={p.col} leaving={p.leaving} element={Decimal.scientific 3 p.element}"⟩

def primalEnd (settings : LpSettings) : PhaseEnd → List Entry
  | .goal => []
  | .blocked col =>
    [⟨.debug, .simplex, s!"Column {col} has negative reduced cost and no leaving row"⟩]
  | .capped =>
    [⟨.warn, .simplex, s!"Primal phase hit the iteration cap ({settings.maxPivots})"⟩]

def dualEnd (settings : LpSettings) : PhaseEnd → List Entry
  | .goal => []
  | .blocked row => [⟨.debug, .simplex, s!"Row {row} has negative rhs and no entering column"⟩]
  | .capped => [⟨.warn, .simplex, s!"Dual phase hit the iteration cap ({settings.maxPivots})"⟩]

def lpFinished (settings : LpSettings) (run : LpRun Float n m) : Entry :=
  let status := run.status.label
  let count := run.pivots
  if settings.verbose then
    let objective := Decimal.scientific 6 run.final.objective
    ⟨.info, .simplex, s!"Simplex finished: status={status}, obj={objective}, " ++
      s!"iters={count.total} (primal {count.primal}, dual {count.dual})"⟩
  else ⟨.debug, .simplex, s!"Simplex finished: status={status}, iters={count.total}"⟩

def lpRun (settings : LpSettings) (run : LpRun Float n m) : List Entry :=
  run.primal.pivots.map pivot ++ primalEnd settings run.primal.ending ++
    run.dual.pivots.map pivot ++ dualEnd settings run.dual.ending ++ [lpFinished settings run]

def cutAttempt (rows rhs : Nat) : Cut.Attempt Float → List Entry
  | .noSource => []
  | .missingRow k =>
    [⟨.warn, .cuts, s!"Gomory cut needs constraint row {k} " ++
      s!"but only {rows} rows / {rhs} rhs entries given"⟩]
  | .derived cut basic =>
    let f := Decimal.fixed 4 cut.fraction
    [⟨.debug, .cuts, s!"Gomory cut from row {cut.sourceRow} (basic x{basic}, f={f}): " ++
      s!"rhs={Decimal.fixed 4 cut.rhs}"⟩]

def newIncumbent (objective : Float) : Entry :=
  ⟨.info, .tree, s!"New incumbent: obj={Decimal.scientific 6 objective}"⟩

def verdict (verbose : Bool) (node : Nat) (objective : Float) : Verdict Float → List Entry
  | .unbounded => [⟨.debug, .tree, s!"Node {node}: relaxation unbounded"⟩]
  | .pivotLimit =>
    [⟨.warn, .tree, s!"Node {node}: relaxation hit the iteration cap, node discarded"⟩]
  | .integral improves => if improves && verbose then [newIncumbent objective] else []
  | _ => []

def nodeLimit (settings : SearchSettings Float) (t : SearchTree Float β) : Entry :=
  let size := t.frontier.size
  ⟨.warn, .tree, s!"Node limit reached ({settings.maxNodes}), {size} nodes left open"⟩

def stopCheck (settings : SearchSettings Float) (t : SearchTree Float β) : List Entry :=
  if !t.frontier.isEmpty && decide (settings.maxNodes ≤ t.explored) then [nodeLimit settings t]
  else []

def progress (settings : SearchSettings Float) (t : SearchTree Float β) : List Entry :=
  if settings.verbose && settings.logEvery != 0 && t.explored % settings.logEvery == 0 then
    let objective := Decimal.scientific 6 t.incumbent.objective.toFloat
    let size := t.frontier.size
    [⟨.info, .tree, s!"Nodes: {t.explored} ({size} open) | Incumbent: {objective} | " ++
      s!"Pruned: {t.pruned} | Cuts: {counter t.cutsAdded}"⟩]
  else []

def finished (settings : SearchSettings Float) (t : SearchTree Float β) (status : SearchStatus) :
    List Entry :=
  if settings.verbose then
    let objective := Decimal.scientific 6 t.incumbent.objective.toFloat
    [⟨.info, .tree, s!"Search finished: status={status.name}, obj={objective}, " ++
      s!"nodes={t.explored}/{t.frontier.added} created, " ++
      s!"pruned={t.pruned}, cuts={counter t.cutsAdded}"⟩]
  else []

def branchText (node : Node Float β) (f : Fractional Float) : String :=
  let value := Decimal.fixed 4 f.value
  let score := Decimal.fixed 4 f.score
  s!"Node {node.id} (depth {node.depth}): branching on x{f.var} = {value} (fractionality {score})"

def outcomeText (node : Node Float β) : Verdict Float → String
  | .fractional f => branchText node f
  | v => s!"Node {node.id} (depth {node.depth}): {v.status.label}"

def lastRound (settings : SearchSettings Float) (v : Visit Float β) : List Entry :=
  lpRun settings.lp v.last.run ++
    verdict settings.verbose v.node.id v.last.result.objective v.verdict

def boundVisit (settings : SearchSettings Float) (v : Visit Float β) : List Entry :=
  lastRound settings v ++ [⟨.debug, .branchAndBound, outcomeText v.node v.verdict⟩]

def cutRounds (settings : SearchSettings Float) (node : Nat) :
    Nat → List (CutRound Float) → List Entry
  | _, [] => []
  | round, c :: rest =>
    let system := c.solved.problem
    let text := cut c.cut.coefs c.cut.rhs
    lpRun settings.lp c.solved.run ++
      cutAttempt system.A.length system.b.length (.derived c.cut c.basic) ++
      [⟨.debug, .branchAndCut, s!"Node {node} round {round}: cut {text}"⟩] ++
      cutRounds settings node (round + 1) rest

def failedCut (node round : Nat) (system : Problem Float) (attempt : Cut.Attempt Float) :
    List Entry :=
  cutAttempt system.A.length system.b.length attempt ++
    match attempt with
    | .derived _ _ =>
      [⟨.warn, .branchAndCut, s!"Node {node} round {round}: non-finite cut discarded"⟩]
    | _ => []

def cutVisit (settings : SearchSettings Float) (v : Visit Float β) : List Entry :=
  let count := v.cuts.length
  cutRounds settings v.node.id 1 v.cuts ++ lastRound settings v ++
    v.failed.toList.flatMap (failedCut v.node.id (count + 1) v.last.problem) ++
    [⟨.debug, .branchAndCut, s!"{outcomeText v.node v.verdict} after {count} cuts"⟩]

/-- The visits of a search, each with the progress after it. -/
def visits (settings : SearchSettings Float) (entries : Visit Float β → List Entry)
    (t : SearchTree Float (Node Float β)) : List (Visit Float β) → List Entry
  | [] => []
  | v :: rest =>
    let t := (t.pop?.elim t Prod.snd).afterVisit v
    entries v ++ progress settings t ++ visits settings entries t rest

def searchRun (s : Search Float β) (opening : Entry) (entries : Visit Float β → List Entry)
    (run : SearchRun Float β) : List Entry :=
  (if s.settings.verbose then [opening] else []) ++
    visits s.settings entries s.start run.visits ++ stopCheck s.settings run.final ++
    finished s.settings run.final run.final.status

def sizes (p : MixedProblem Float) : String :=
  s!"{p.lp.numVars} vars ({p.integers.length} integer), {p.lp.numRows} constraints"

def boundRun (s : Search Float (List (Bound Float)))
    (run : SearchRun Float (List (Bound Float))) : List Entry :=
  searchRun s ⟨.info, .branchAndBound, s!"Branch-and-bound: {sizes s.problem}"⟩
    (boundVisit s.settings) run

def cutRun (s : Search Float (Problem Float)) (run : SearchRun Float (Problem Float)) :
    List Entry :=
  let limit := s.settings.maxCuts
  searchRun s
    ⟨.info, .branchAndCut, s!"Branch-and-cut: {sizes s.problem}, up to {limit} cuts per node"⟩
    (cutVisit s.settings) run

end Journal

end IntegerPrograms.Report
