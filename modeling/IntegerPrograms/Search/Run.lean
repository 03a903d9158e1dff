import IntegerPrograms.Search.Node
import IntegerPrograms.Search.Tree

/-!
Depth-first search over linear relaxations. One search serves both methods: branch-and-bound adds no
cuts and stores bounds; branch-and-cut first tightens each node by Gomory cuts, which its children
inherit. A run keeps every visit with all relaxations solved there, so reports can be read off it.
-/

set_option autoImplicit false

namespace IntegerPrograms

variable {α β : Type} [Scalar α]

structure CutRound (α : Type) where
  solved : Solved α
  cut : Cut α
  basic : Nat

/-- The rounds at a node: those that ended in a cut, then the last relaxation and its verdict. -/
structure Rounds (α β : Type) where
  cuts : List (CutRound α)
  last : Solved α
  verdict : Verdict α
  failed : Option (Cut.Attempt α)
  store : β

structure Visit (α β : Type) extends Rounds α β where
  node : Node α β
  children : List (Node α β)

structure Search (α β : Type) [Scalar α] where
  problem : MixedProblem α
  settings : SearchSettings α
  storage : Storage α β
  cutLimit : Nat

structure SearchRun (α β : Type) where
  visits : List (Visit α β)
  final : SearchTree α (Node α β)

def Cut.Attempt.usable? : Cut.Attempt α → Option (Cut α × Nat)
  | .derived cut basic => if cut.isFinite then some (cut, basic) else none
  | _ => none

namespace Search

def relax? (s : Search α β) (inc : Incumbent α) (store : β) :
    Option (Solved α × Verdict α) := do
  let system ← s.storage.system? store
  let solved ← system.solve? s.settings.lp
  let verdict ← s.problem.judge? s.settings inc solved.result
  return (solved, verdict)

/-- Solves and cuts a node until it is fathomed, no cut is left to add, or the limit is reached. -/
def rounds? (s : Search α β) (inc : Incumbent α) : Nat → β → Option (Rounds α β)
  | 0, store => do
    let (solved, verdict) ← s.relax? inc store
    return ⟨[], solved, verdict, none, store⟩
  | left + 1, store => do
    let (solved, verdict) ← s.relax? inc store
    match verdict with
    | .fractional _ =>
      let system := solved.problem
      let attempt := Cut.derive solved.run.final s.problem.integers system.A system.b
      match attempt.usable? with
      | some (cut, basic) =>
        let rest ← rounds? s inc left (s.storage.cut store cut)
        return { rest with cuts := ⟨solved, cut, basic⟩ :: rest.cuts }
      | none => return ⟨[], solved, verdict, some attempt, store⟩
    | _ => return ⟨[], solved, verdict, none, store⟩

def children? (s : Search α β) (node : Node α β) (r : Rounds α β) (ids : Nat × Nat) :
    Option (List (Node α β)) :=
  match r.verdict with
  | .fractional choice => do
    let down ← s.storage.bound? r.store choice.down
    let up ← s.storage.bound? r.store choice.up
    let objective := r.last.result.objective
    return [node.child ids.1 objective down, node.child ids.2 objective up]
  | _ => some []

def visit? (s : Search α β) (t : SearchTree α (Node α β)) (node : Node α β) :
    Option (Visit α β) := do
  let r ← s.rounds? t.incumbent s.cutLimit node.store
  let children ← s.children? node r t.childIds.1
  return { r with node, children }

end Search

namespace SearchTree

/-- The tree after a visit. The down child is put in last and so comes out first. -/
def afterVisit (t : SearchTree α (Node α β)) (v : Visit α β) : SearchTree α (Node α β) :=
  let t := (t.addCuts v.cuts.length).settle v.last.result v.verdict
  let t := if v.children.isEmpty then t else t.childIds.2
  v.children.reverse.foldl push t

end SearchTree

namespace Search

def start (s : Search α β) : SearchTree α (Node α β) :=
  SearchTree.push {} (.root s.storage.root)

def explore? (s : Search α β) : Nat → SearchTree α (Node α β) → Option (SearchRun α β)
  | 0, t => some ⟨[], t⟩
  | left + 1, t =>
    match t.pop? with
    | none => some ⟨[], t⟩
    | some (node, t) => do
      let v ← s.visit? t node
      let rest ← explore? s left (t.afterVisit v)
      return { rest with visits := v :: rest.visits }

/-- The whole search. It fails only if some relaxation is no valid linear program. -/
def run? (s : Search α β) : Option (SearchRun α β) := s.explore? s.settings.maxNodes s.start

end Search

def SearchRun.solution (r : SearchRun α β) : Solution α := r.final.solution r.final.status

def branchAndBound (problem : MixedProblem α) (settings : SearchSettings α) :
    Search α (List (Bound α)) :=
  ⟨problem, settings, .bounds problem.lp, 0⟩

def branchAndCut (problem : MixedProblem α) (settings : SearchSettings α) :
    Search α (Problem α) :=
  ⟨problem, settings, .systems problem.lp, settings.maxCuts⟩

end IntegerPrograms
