import Mathlib
import IntegerPrograms.Proofs.Search.NodeLimit

set_option autoImplicit false

namespace IntegerPrograms

variable {α β : Type}

def statuses (visits : List (Visit α β)) : List NodeStatus := visits.map (·.verdict.status)

theorem mem_statuses {visits : List (Visit α β)} {status : NodeStatus} :
    status ∈ statuses visits ↔ ∃ v ∈ visits, v.verdict.status = status :=
  List.mem_map

theorem statuses_snoc (past : List (Visit α β)) (v : Visit α β) :
    statuses (past ++ [v]) = statuses past ++ [v.verdict.status] :=
  List.map_append

theorem count_branched (visits : List (Visit α β)) :
    (statuses visits).count .branched = (branchings visits).length := by
  rw [statuses, List.count, List.countP_map, branchings, List.countP_eq_length_filter]
  rfl

def prunings (statuses : List NodeStatus) : Nat :=
  statuses.count .infeasible + statuses.count .unbounded + statuses.count .pivotLimit +
    statuses.count .dominated

theorem prunings_snoc (past : List NodeStatus) (status : NodeStatus) :
    prunings (past ++ [status]) = prunings past +
      if status = .integral ∨ status = .branched then 0 else 1 := by
  simp only [prunings, List.count_append]
  cases status <;> simp <;> omega

theorem length_eq_counts (statuses : List NodeStatus) :
    statuses.length = prunings statuses + statuses.count .branched + statuses.count .integral := by
  induction statuses using List.reverseRecOn with
  | nil => rfl
  | append_singleton past status ih =>
    rw [List.length_append, ih, prunings_snoc, List.count_append, List.count_append]
    cases status <;> simp <;> omega

/-- The status that the visited nodes call for, given the point that is returned. -/
def dueStatus (limit : Nat) (statuses : List NodeStatus) (x : List α) : SearchStatus :=
  if .unbounded ∈ statuses then .unbounded
  else if statuses.length = limit ∧ statuses.length < 2 * statuses.count .branched + 1 then
    .nodeLimit
  else if x = [] then .infeasible
  else .optimal

namespace SearchTree

variable {t t' : SearchTree α (Node α β)} {node : Node α β}

theorem pruned_of_pop? (h : t.pop? = some (node, t')) : t'.pruned = t.pruned := by
  obtain ⟨⟨node', frontier⟩, _, he⟩ := Option.map_eq_some_iff.1 h
  obtain ⟨_, rfl⟩ := Prod.mk.inj he
  rfl

theorem pruned_afterVisit [Scalar α] (t : SearchTree α (Node α β)) (v : Visit α β) :
    (t.afterVisit v).pruned = t.pruned +
      if v.verdict.status = .integral ∨ v.verdict.status = .branched then 0 else 1 := by
  rw [afterVisit, foldl_push]
  cases v.verdict <;> cases v.children <;> rfl

end SearchTree

theorem MixedProblem.numVars_pos [Scalar α] (p : MixedProblem α) : 0 < p.lp.numVars := by
  obtain ⟨i, hi⟩ := List.exists_mem_of_ne_nil _ p.integers_ne_nil
  exact Nat.zero_lt_of_lt (p.integers_lt i hi)

namespace Search

variable [Scalar α] {s : Search α β} {run : SearchRun α β}

theorem counters (hrun : s.run? = some run) :
    run.final.pruned = prunings (statuses run.visits) ∧
      run.final.degraded = (statuses run.visits).count .pivotLimit := by
  refine explore?_induction (I := fun past t => t.pruned = prunings (statuses past) ∧
    t.degraded = (statuses past).count .pivotLimit) ?_ [] hrun ⟨rfl, rfl⟩
  intro past t node t' v hpop _ ⟨hpruned, hdegraded⟩
  rw [statuses_snoc]
  constructor
  · rw [SearchTree.pruned_afterVisit, SearchTree.pruned_of_pop? hpop, hpruned, prunings_snoc]
  · rw [SearchTree.degraded_afterVisit, (SearchTree.pop?_eq_some hpop).2.2.1, hdegraded,
      List.count_append]
    cases v.verdict <;> rfl

theorem Traced.length_nodes (h : s.Traced run) :
    run.visits.length + run.final.frontier.size =
      2 * (statuses run.visits).count .branched + 1 := by
  have hids := h.ids_perm.length_eq
  simpa [SearchRun.nodes, count_branched, Frontier.size] using hids

theorem open_iff (hrun : s.run? = some run) :
    run.final.frontier.nodes ≠ [] ↔ run.visits.length = s.settings.maxNodes ∧
      run.visits.length < 2 * (statuses run.visits).count .branched + 1 := by
  have hnodes := (traced hrun).length_nodes
  constructor
  · intro hopen
    have hsize : 0 < run.final.frontier.size := List.length_pos_iff.2 hopen
    exact ⟨length_visits_of_open hrun hopen, by omega⟩
  · rintro ⟨_, hlt⟩ hnil
    rw [Frontier.size, hnil, List.length_nil] at hnodes
    omega

theorem length_best (hs : s.Lawful) (hrun : s.run? = some run) :
    ∀ c, run.final.incumbent.best = some c → c.x.length = s.problem.lp.numVars := by
  refine move_induction hs (I := fun _ t => ∀ c, t.incumbent.best = some c →
    c.x.length = s.problem.lp.numVars) ?_ hrun (fun c hc => by cases hc)
  intro past t node p t' v hmove ih c hc
  rw [SearchTree.incumbent_afterVisit, hmove.incumbent] at hc
  cases hv : v.verdict with
  | integral improves =>
    simp only [hv, Incumbent.best_update] at hc
    split at hc
    · obtain rfl := Option.some.inj hc
      exact (hmove.settled hs).length_x
    · exact ih c hc
  | _ =>
    rw [hv] at hc
    exact ih c hc

theorem x_eq_nil_iff (hs : s.Lawful) (hrun : s.run? = some run) :
    run.final.incumbent.x = [] ↔ run.final.incumbent.best = none := by
  have hlength := length_best hs hrun
  cases hbest : run.final.incumbent.best with
  | none => simp [Incumbent.x, hbest]
  | some c =>
    have hpos := s.problem.numVars_pos
    have hc := hlength c hbest
    simp only [Incumbent.x, hbest, Option.elim_some, reduceCtorEq, iff_false]
    exact List.ne_nil_of_length_pos (by omega)

/-- The status and all counters of a run, read off the statuses of its nodes. -/
structure Accounted (s : Search α β) (run : SearchRun α β) (statuses : List NodeStatus) :
    Prop where
  explored : run.solution.explored = statuses.length
  within : statuses.length ≤ s.settings.maxNodes
  nodes : statuses.length + run.final.frontier.size = 2 * statuses.count .branched + 1
  status : run.solution.status =
    dueStatus s.settings.maxNodes statuses run.solution.incumbent.x
  degraded : run.solution.degraded = statuses.count .pivotLimit
  pruned : run.final.pruned = statuses.count .infeasible + statuses.count .unbounded +
    statuses.count .pivotLimit + statuses.count .dominated
  others : statuses.length =
    run.final.pruned + statuses.count .branched + statuses.count .integral

theorem status_eq (hs : s.Lawful) (hrun : s.run? = some run) :
    run.solution.status =
      dueStatus s.settings.maxNodes (statuses run.visits) run.solution.incumbent.x := by
  have hsaw := sawUnbounded_iff hrun
  have hx := x_eq_nil_iff hs hrun
  have hlength : (statuses run.visits).length = run.visits.length := List.length_map ..
  simp only [dueStatus, mem_statuses, hlength, ← hsaw, ← open_iff hrun]
  change run.final.status = if _ then _ else if _ then _ else
    if run.final.incumbent.x = [] then _ else _
  rw [SearchTree.status, SearchTree.exhausted, SearchTree.interrupted, Frontier.isEmpty]
  cases run.final.sawUnbounded <;> cases run.final.frontier.nodes <;>
    cases hbest : run.final.incumbent.best <;> simp [hx, hbest]

theorem accounted (hs : s.Lawful) (hrun : s.run? = some run) :
    s.Accounted run (statuses run.visits) := by
  have htraced := traced hrun
  have hlength : (statuses run.visits).length = run.visits.length := List.length_map ..
  obtain ⟨hpruned, hdegraded⟩ := counters hrun
  refine ⟨hlength ▸ htraced.explored, hlength ▸ htraced.within, hlength ▸ htraced.length_nodes,
    status_eq hs hrun, hdegraded, hpruned, ?_⟩
  rw [hpruned]
  exact length_eq_counts (statuses run.visits)

theorem exists_accounted (hs : s.Lawful) :
    ∃ run, s.run? = some run ∧ s.Accounted run (statuses run.visits) := by
  obtain ⟨run, hrun⟩ := exists_run hs
  exact ⟨run, hrun, accounted hs hrun⟩

end Search

/-- The status and the counters that a search returns account for every node, in any arithmetic and
whatever the relaxations answer. In double precision they account for every record. -/
theorem searches_accounted :
    (∀ {α : Type} [Scalar α] (p : MixedProblem α) (settings : SearchSettings α),
      (∃ run, (branchAndBound p settings).run? = some run ∧
        (branchAndBound p settings).Accounted run (statuses run.visits)) ∧
      ∃ run, (branchAndCut p settings).run? = some run ∧
        (branchAndCut p settings).Accounted run (statuses run.visits)) ∧
    ∀ (p : MixedProblem Float) (settings : SearchSettings Float),
      (∃ run, (branchAndBound p settings).run? = some run ∧
        (branchAndBound p settings).Accounted run ((Outcome.visitOrder run).map (·.status))) ∧
      ∃ run, (branchAndCut p settings).run? = some run ∧
        (branchAndCut p settings).Accounted run
          ((Outcome.cutVisitOrder run).map (·.status)) := by
  constructor
  · intro α _ p settings
    exact ⟨Search.exists_accounted (Search.lawful_branchAndBound p settings),
      Search.exists_accounted (Search.lawful_branchAndCut p settings)⟩
  · intro p settings
    obtain ⟨run, hrun, hbooks⟩ :=
      Search.exists_accounted (Search.lawful_branchAndBound p settings)
    obtain ⟨run', hrun', hbooks'⟩ :=
      Search.exists_accounted (Search.lawful_branchAndCut p settings)
    have hstatuses : (Outcome.visitOrder run).map (·.status) = statuses run.visits :=
      List.map_map
    have hstatuses' : (Outcome.cutVisitOrder run').map (·.status) = statuses run'.visits :=
      List.map_map
    rw [← hstatuses] at hbooks
    rw [← hstatuses'] at hbooks'
    exact ⟨⟨run, hrun, hbooks⟩, run', hrun', hbooks'⟩

end IntegerPrograms
