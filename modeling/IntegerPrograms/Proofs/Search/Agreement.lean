import Mathlib
import IntegerPrograms.Proofs.Search.Exactness

/-!
Agreement of the two methods. A point is never in two open nodes, so a cut that loses it loses it for
the rest of the search, and no cut loses the point that is returned. Hence branch-and-cut answers as
branch-and-bound does exactly when its cuts leave an optimal point, which they do not always do. Only
a cut can lose a point.
-/

set_option autoImplicit false

namespace IntegerPrograms

variable {β : Type}

namespace MixedProblem

variable {p : MixedProblem ℚ} {sol sol' : Solution ℚ}

def Optimal (p : MixedProblem ℚ) (y : List ℚ) : Prop :=
  p.Feasible y ∧ ∀ y', p.Feasible y' → p.lp.objective y ≤ p.lp.objective y'

/-- A solution with the status and the objective value that the problem has. -/
def SolvedBy (p : MixedProblem ℚ) (sol : Solution ℚ) : Prop :=
  (sol.status = .infeasible ∧ sol.incumbent.objective = .infinity ∧ ∀ y, ¬ p.Feasible y) ∨
    ∃ y, p.Optimal y ∧ sol.status = .optimal ∧
      sol.incumbent.objective = .value (p.lp.objective y)

theorem SolvedBy.agree_iff (h : p.SolvedBy sol) :
    sol.status = sol'.status ∧ sol.incumbent.objective = sol'.incumbent.objective ↔
      p.SolvedBy sol' := by
  constructor
  · rintro ⟨hstatus, hobjective⟩
    unfold SolvedBy at h ⊢
    rwa [← hstatus, ← hobjective]
  · intro h'
    rcases h with ⟨hs, ho, hempty⟩ | ⟨y, hy, hs, ho⟩
    · rcases h' with ⟨hs', ho', _⟩ | ⟨y', hy', _⟩
      · exact ⟨hs.trans hs'.symm, ho.trans ho'.symm⟩
      · exact absurd hy'.1 (hempty y')
    · rcases h' with ⟨_, _, hempty⟩ | ⟨y', hy', hs', ho'⟩
      · exact absurd hy.1 (hempty y)
      · have heq : p.lp.objective y = p.lp.objective y' :=
          le_antisymm (hy.2 y' hy'.1) (hy'.2 y hy.1)
        exact ⟨hs.trans hs'.symm, by rw [ho, ho', heq]⟩

end MixedProblem

namespace Search

variable {s : Search ℚ β} {p : Problem ℚ} {y : List ℚ} {run : SearchRun ℚ β}

/-- At most one open node has the point, and none if it is the incumbent's. -/
structure Apart (s : Search ℚ β) (t : SearchTree ℚ (Node ℚ β)) (y : List ℚ) : Prop where
  nodes : t.frontier.nodes.Pairwise fun a b => s.Has a y → ¬ s.Has b y
  best : ∀ best, t.incumbent.best = some best → best.x = y →
    ∀ node ∈ t.frontier.nodes, ¬ s.Has node y

/-- The point is in no open node and is not the incumbent's. -/
structure Gone (s : Search ℚ β) (t : SearchTree ℚ (Node ℚ β)) (y : List ℚ) : Prop where
  nodes : ∀ node ∈ t.frontier.nodes, ¬ s.Has node y
  best : ∀ best, t.incumbent.best = some best → best.x ≠ y

theorem apart_start (s : Search ℚ β) (y : List ℚ) : s.Apart s.start y := by
  constructor
  · exact List.pairwise_singleton ..
  · intro best hbest
    cases hbest

namespace Step

variable {t t' : SearchTree ℚ (Node ℚ β)} {node : Node ℚ β} {v : Visit ℚ β}

theorem has_of_last (h : s.Step t node p t' v) (hy : v.last.problem.Feasible y) : s.Has node y :=
  (has_iff h.system y).2 (h.spec.refines.feasible y hy)

theorem last_of_child (h : s.Step t node p t' v) {child : Node ℚ β} (hchild : child ∈ v.children)
    (hy : s.Has child y) : v.last.problem.Feasible y := by
  cases hv : v.verdict with
  | fractional f =>
    obtain ⟨down, up, hchildren, hdown, hup⟩ := h.spec.branched f hv
    rw [hchildren] at hchild
    rcases List.mem_pair.1 hchild with rfl | rfl
    · exact ((hdown y).1 hy).1
    · exact ((hup y).1 hy).1
  | _ =>
    rw [h.spec.leaf (by simp [hv])] at hchild
    cases hchild

theorem children_apart (h : s.Step t node p t' v) (htol : 0 ≤ s.settings.tolerance) :
    v.children.Pairwise fun a b => s.Has a y → ¬ s.Has b y := by
  cases hv : v.verdict with
  | fractional f =>
    obtain ⟨down, up, hchildren, hdown, hup⟩ := h.spec.branched f hv
    have hpos := htol.trans_lt (h.spec.choice hv).2
    rw [hchildren, List.pairwise_pair]
    exact fun hd hu => f.not_down_and_up hpos ((hdown y).1 hd).2 ((hup y).1 hu).2
  | _ =>
    rw [h.spec.leaf (by simp [hv])]
    exact .nil

theorem best_cases (h : s.Step t node p t' v) (hc : v.last.Clean) {best : Candidate ℚ}
    (hbest : (t'.afterVisit v).incumbent.best = some best) :
    t.incumbent.best = some best ∨ v.children = [] ∧ v.last.problem.Feasible best.x := by
  rw [SearchTree.incumbent_afterVisit, h.incumbent] at hbest
  cases hv : v.verdict with
  | integral improves =>
    rw [hv] at hbest
    simp only [Incumbent.best_update] at hbest
    split at hbest
    · right
      obtain rfl : _ = best := Option.some.inj hbest
      exact ⟨h.spec.leaf (by simp [hv]), (h.spec.integral h.refines hc hv).1⟩
    · exact .inl hbest
  | _ =>
    rw [hv] at hbest
    exact .inl hbest

theorem apart (h : s.Step t node p t' v) (hc : v.last.Clean) (htol : 0 ≤ s.settings.tolerance)
    (ht : s.Apart t y) : s.Apart (t'.afterVisit v) y := by
  obtain ⟨hnodes, hbest⟩ := ht
  rw [h.nodes] at hnodes hbest
  obtain ⟨hnode, hrest⟩ := List.pairwise_cons.1 hnodes
  constructor
  · rw [SearchTree.nodes_afterVisit, List.pairwise_append]
    refine ⟨h.children_apart htol, hrest, fun a ha b hb hhas => ?_⟩
    exact hnode b hb (h.has_of_last (h.last_of_child ha hhas))
  · intro best hb hx other hother
    rw [SearchTree.nodes_afterVisit, List.mem_append] at hother
    rcases h.best_cases hc hb with hold | ⟨hnil, hnew⟩
    · have hnone := hbest best hold hx
      rcases hother with hchild | hother
      · intro hhas
        exact hnone node (by simp) (h.has_of_last (h.last_of_child hchild hhas))
      · exact hnone other (by simp [hother])
    · rw [hnil] at hother
      rcases hother with hchild | hother
      · cases hchild
      · exact hnode other hother (h.has_of_last (hx ▸ hnew))

theorem gone_of_last (h : s.Step t node p t' v) (hc : v.last.Clean)
    (hlast : ¬ v.last.problem.Feasible y) (hrest : ∀ other ∈ t'.frontier.nodes, ¬ s.Has other y)
    (hbest : ∀ best, t.incumbent.best = some best → best.x ≠ y) : s.Gone (t'.afterVisit v) y := by
  constructor
  · intro other hother
    rw [SearchTree.nodes_afterVisit, List.mem_append] at hother
    rcases hother with hchild | hother
    · exact fun hhas => hlast (h.last_of_child hchild hhas)
    · exact hrest other hother
  · intro best hb
    rcases h.best_cases hc hb with hold | ⟨_, hnew⟩
    · exact hbest best hold
    · rintro rfl
      exact hlast hnew

theorem gone (h : s.Step t node p t' v) (hc : v.last.Clean) (ht : s.Gone t y) :
    s.Gone (t'.afterVisit v) y := by
  obtain ⟨hnodes, hbest⟩ := ht
  rw [h.nodes, List.forall_mem_cons] at hnodes
  exact h.gone_of_last hc (fun hlast => hnodes.1 (h.has_of_last hlast)) hnodes.2 hbest

/-- A cut that loses a point loses it everywhere. -/
theorem gone_of_loses (h : s.Step t node p t' v) (hc : v.last.Clean) (ht : s.Apart t y)
    {c : CutRound ℚ} (hcut : c ∈ v.cuts) (hy : c.Loses y) : s.Gone (t'.afterVisit v) y := by
  obtain ⟨hin, hout⟩ := h.spec.lost c hcut y hy
  have hhas := (has_iff h.system y).2 hin
  obtain ⟨hnodes, hbest⟩ := ht
  rw [h.nodes] at hnodes hbest
  refine h.gone_of_last hc hout (fun other hother => ?_) (fun best hb hx => ?_)
  · exact (List.pairwise_cons.1 hnodes).1 other hother hhas
  · exact hbest best hb hx node (by simp) hhas

end Step

theorem gone_final (hs : s.Lawful) (htol : 0 ≤ s.settings.tolerance)
    (hrun : s.run? = some run) (hclean : ∀ v ∈ run.visits, v.Clean) :
    (∃ v ∈ run.visits, ∃ c ∈ v.cuts, c.Loses y) → s.Gone run.final y := by
  -- A loss at one node is a loss everywhere only while the open nodes are apart, so both go along.
  have hfinal := run_induction hs (I := fun past t => (∀ v ∈ past, v.Clean) →
    s.Apart t y ∧ ((∃ v ∈ past, ∃ c ∈ v.cuts, c.Loses y) → s.Gone t y)) ?_ hrun
    (fun _ => ⟨apart_start s y, by simp⟩)
  · exact (hfinal hclean).2
  intro past t node p t' v h ih hc
  simp only [List.forall_mem_append, List.forall_mem_singleton] at hc
  obtain ⟨hapart, hgone⟩ := ih hc.1
  refine ⟨h.apart hc.2.2 htol hapart, ?_⟩
  rintro ⟨w, hw, c, hcut, hy⟩
  rcases List.mem_append.1 hw with hw | hw
  · exact h.gone hc.2.2 (hgone ⟨w, hw, c, hcut, hy⟩)
  · obtain rfl : w = v := List.mem_singleton.1 hw
    exact h.gone_of_loses hc.2.2 hapart hcut hy

/-- No cut loses the point that the search returns. -/
theorem keeps_best (hs : s.Lawful) (htol : 0 ≤ s.settings.tolerance)
    (hrun : s.run? = some run) (hclean : ∀ v ∈ run.visits, v.Clean) {best : Candidate ℚ}
    (hbest : run.final.incumbent.best = some best) : run.Keeps best.x := by
  intro v hv c hc hy
  exact (gone_final hs htol hrun hclean ⟨v, hv, c, hc, hy⟩).best best hbest rfl

/-- Without tolerance a complete run has the right answer if and only if its cuts leave an optimal
point, should there be one. -/
theorem solvedBy_iff (hs : s.Lawful) (htol : s.settings.tolerance = 0) (hrun : s.run? = some run)
    (h : run.Complete) :
    s.problem.SolvedBy run.solution ↔
      ((∃ y, s.problem.Feasible y) → ∃ y, s.problem.Optimal y ∧ run.Keeps y) := by
  have hattained := attained_final hs hrun h.clean
  rw [htol] at hattained
  unfold MixedProblem.SolvedBy
  rw [h.status]
  cases hbest : run.solution.incumbent.best with
  | none =>
    simp only [Incumbent.objective, hbest, Option.isSome_none, Option.elim_none]
    constructor
    · rintro (⟨_, _, hempty⟩ | ⟨_, _, hstatus, _⟩) ⟨y, hy⟩
      · exact absurd hy (hempty y)
      · cases hstatus
    · intro hkept
      refine .inl ⟨rfl, trivial, fun y hy => ?_⟩
      obtain ⟨z, hz, hkeeps⟩ := hkept ⟨y, hy⟩
      obtain ⟨best, hb, _⟩ := atMost_of_complete hs hrun h hz.1 hkeeps
      cases hbest.symm.trans hb
  | some best =>
    obtain ⟨hx, hw, hobj⟩ := hattained best hbest
    have hwhole := hw.feasible hx
    simp only [Incumbent.objective, hbest, Option.isSome_some, if_true, Option.elim_some]
    constructor
    · rintro (⟨hstatus, _⟩ | ⟨y, hy, _, hvalue⟩) _
      · cases hstatus
      · refine ⟨best.x, ⟨hwhole, fun y' hy' => ?_⟩, keeps_best hs htol.ge hrun h.clean hbest⟩
        rw [← hobj, Extended.value.inj hvalue]
        exact hy.2 y' hy'
    · intro hkept
      obtain ⟨z, hz, hkeeps⟩ := hkept ⟨best.x, hwhole⟩
      obtain ⟨best', hb, hle⟩ := atMost_of_complete hs hrun h hz.1 hkeeps
      obtain rfl : best = best' := Option.some.inj (hbest.symm.trans hb)
      have hge := hz.2 _ hwhole
      rw [← hobj] at hge
      exact .inr ⟨z, hz, trivial, by rw [le_antisymm hle hge]⟩

theorem solvedBy_of_keeps (hs : s.Lawful) (htol : s.settings.tolerance = 0)
    (hrun : s.run? = some run) (h : run.Complete) (hkeeps : ∀ y, run.Keeps y) :
    s.problem.SolvedBy run.solution := by
  rw [solvedBy_iff hs htol hrun h]
  rintro ⟨y, hy⟩
  obtain ⟨best, hbest, _⟩ := atMost_of_complete hs hrun h hy (hkeeps y)
  obtain ⟨hx, hw, hobj⟩ := attained_final hs hrun h.clean best hbest
  rw [htol] at hw
  refine ⟨best.x, ⟨hw.feasible hx, fun y' hy' => ?_⟩, hkeeps best.x⟩
  obtain ⟨best', hb, hle⟩ := atMost_of_complete hs hrun h hy' (hkeeps y')
  obtain rfl : best = best' := Option.some.inj (hbest.symm.trans hb)
  rwa [← hobj]

end Search

/-- Two complete runs without tolerance agree on status and objective value if and only if the
problem has no whole point or the cuts leave an optimal one. -/
theorem branchAndCut_agrees_iff (p : MixedProblem ℚ) (settings settings' : SearchSettings ℚ)
    (htol : settings.tolerance = 0) (htol' : settings'.tolerance = 0) :
    ∃ run run', (branchAndBound p settings).run? = some run ∧
      (branchAndCut p settings').run? = some run' ∧ (run.Complete → run'.Complete →
        (run.solution.status = run'.solution.status ∧
            run.solution.incumbent.objective = run'.solution.incumbent.objective ↔
          ((∃ y, p.Feasible y) → ∃ y, p.Optimal y ∧ run'.Keeps y))) := by
  have hs := Search.lawful_branchAndBound p settings
  have hs' := Search.lawful_branchAndCut p settings'
  obtain ⟨run, hrun⟩ := Search.exists_run hs
  obtain ⟨run', hrun'⟩ := Search.exists_run hs'
  refine ⟨run, run', hrun, hrun', fun h h' => ?_⟩
  have hsolved := Search.solvedBy_of_keeps hs htol hrun h (Search.keeps_of_cutLimit rfl hrun)
  rw [hsolved.agree_iff]
  exact Search.solvedBy_iff hs' htol' hrun' h'

theorem branchAndCut_agrees_iff_workshop :
    ∃ run', (branchAndCut workshop { tolerance := 0 }).run? = some run' ∧ run'.Complete ∧
      0 < run'.solution.cutsAdded ∧ ∃ y, workshop.Optimal y ∧ run'.Keeps y := by
  obtain ⟨run, run', hrun, hrun', hiff⟩ :=
    branchAndCut_agrees_iff workshop { tolerance := 0 } { tolerance := 0 } rfl rfl
  have heval : ((branchAndBound workshop { tolerance := 0 }).run?).any (fun run =>
      decide (run.Complete ∧ run.solution.status = .optimal ∧
        run.solution.incumbent.objective = .value (-20))) = true := by decide +kernel
  have heval' : ((branchAndCut workshop { tolerance := 0 }).run?).any (fun run =>
      decide (run.Complete ∧ 0 < run.solution.cutsAdded ∧ run.solution.status = .optimal ∧
        run.solution.incumbent.objective = .value (-20))) = true := by decide +kernel
  rw [hrun, Option.any_some, decide_eq_true_eq] at heval
  rw [hrun', Option.any_some, decide_eq_true_eq] at heval'
  obtain ⟨h, hstatus, hobj⟩ := heval
  obtain ⟨h', hcuts, hstatus', hobj'⟩ := heval'
  refine ⟨run', hrun', h', hcuts, ?_⟩
  refine (hiff h h').1 ⟨hstatus.trans hstatus'.symm, hobj.trans hobj'.symm⟩ ⟨[4, 0], ?_⟩
  refine ⟨by decide +kernel, fun j hj => ?_⟩
  rcases List.mem_pair.1 hj with rfl | rfl
  · exact ⟨4, rfl⟩
  · exact ⟨0, rfl⟩

def blend : MixedProblem ℚ :=
  ⟨⟨[-2, -2], [[2, 4]], [3]⟩, [0], by decide +kernel, by decide, by decide, by decide⟩

/-- A cut treats the slack as whole, so it may lose the best point of a mixed problem. -/
theorem branchAndCut_misses_blend :
    ∃ run run', (branchAndBound blend { tolerance := 0 }).run? = some run ∧
      (branchAndCut blend { tolerance := 0 }).run? = some run' ∧ run.Complete ∧ run'.Complete ∧
      run.solution.incumbent.x = [1, 1 / 4] ∧
      run.solution.incumbent.objective = .value (-5 / 2) ∧
      (∃ v ∈ run'.visits, ∃ c ∈ v.cuts, c.Loses [1, 1 / 4]) ∧
      run'.solution.status = .optimal ∧ run'.solution.incumbent.objective = .value (-2) := by
  obtain ⟨run, hrun⟩ := Search.exists_run (Search.lawful_branchAndBound blend { tolerance := 0 })
  obtain ⟨run', hrun'⟩ := Search.exists_run (Search.lawful_branchAndCut blend { tolerance := 0 })
  have heval : ((branchAndBound blend { tolerance := 0 }).run?).any (fun run =>
      decide (run.Complete ∧ run.solution.incumbent.x = [1, 1 / 4] ∧
        run.solution.incumbent.objective = .value (-5 / 2))) = true := by decide +kernel
  have heval' : ((branchAndCut blend { tolerance := 0 }).run?).any (fun run =>
      decide (run.Complete ∧ (∃ v ∈ run.visits, ∃ c ∈ v.cuts, c.Loses [1, 1 / 4]) ∧
        run.solution.status = .optimal ∧
        run.solution.incumbent.objective = .value (-2))) = true := by decide +kernel
  rw [hrun, Option.any_some, decide_eq_true_eq] at heval
  rw [hrun', Option.any_some, decide_eq_true_eq] at heval'
  obtain ⟨h, hx, hobj⟩ := heval
  obtain ⟨h', hanswer'⟩ := heval'
  exact ⟨run, run', hrun, hrun', h, h', hx, hobj, hanswer'⟩

/-- Branch-and-cut loses a whole point only by a cut: once every node is closed, the answer costs no
more than the point, or a cut violates it at a node whose system it satisfied until then. -/
theorem branchAndCut_optimal_or_loses (p : MixedProblem ℚ) (settings : SearchSettings ℚ) :
    ∃ run, (branchAndCut p settings).run? = some run ∧
      (run.final.frontier.nodes = [] → run.solution.degraded = 0 →
        (∀ v ∈ run.visits, v.verdict.status ≠ .unbounded) → (∀ v ∈ run.visits, v.Clean) →
        ∀ y, p.Feasible y →
          (run.solution.status = .optimal ∧
            ∃ value, run.solution.incumbent.objective = .value value ∧ value ≤ p.lp.objective y) ∨
          ∃ v ∈ run.visits, ∃ c ∈ v.cuts, c.Loses y) := by
  have hs := Search.lawful_branchAndCut p settings
  obtain ⟨run, hrun⟩ := Search.exists_run hs
  refine ⟨run, hrun, fun hclosed hdegraded hbounded hclean y hy => ?_⟩
  have hstatus : run.solution.status ≠ .unbounded := by
    intro hunbounded
    rw [SearchRun.solution, SearchTree.solution, SearchTree.status_eq_unbounded_iff,
      Search.sawUnbounded_iff hrun] at hunbounded
    obtain ⟨v, hv, hrecord⟩ := hunbounded
    exact hbounded v hv hrecord
  have hcomplete : run.Complete := ⟨hclosed, hdegraded, hstatus, hclean⟩
  by_cases hkept : run.Keeps y
  · obtain ⟨best, hbest, hle⟩ := Search.atMost_of_complete hs hrun hcomplete hy hkept
    refine .inl ⟨?_, best.objective, ?_, hle⟩
    · rw [hcomplete.status, hbest]
      rfl
    · rw [Incumbent.objective, hbest]
      rfl
  · right
    simpa [SearchRun.Keeps] using hkept

theorem branchAndCut_optimal_or_loses_blend :
    ∃ run, (branchAndCut blend { tolerance := 0 }).run? = some run ∧ run.Complete ∧
      run.solution.incumbent.objective = .value (-2) ∧
      blend.lp.objective [1, 1 / 4] = -5 / 2 ∧
      ∃ v ∈ run.visits, ∃ c ∈ v.cuts, c.Loses [1, 1 / 4] := by
  obtain ⟨run, hrun, hloses⟩ := branchAndCut_optimal_or_loses blend { tolerance := 0 }
  have heval : ((branchAndCut blend { tolerance := 0 }).run?).any (fun run =>
      decide (run.Complete ∧ (∀ v ∈ run.visits, v.verdict.status ≠ .unbounded) ∧
        run.solution.incumbent.objective = .value (-2))) = true := by decide +kernel
  rw [hrun, Option.any_some, decide_eq_true_eq] at heval
  obtain ⟨h, hbounded, hobj⟩ := heval
  have hcost : blend.lp.objective [1, 1 / 4] = -5 / 2 := by decide +kernel
  have hy : blend.Feasible [1, 1 / 4] := by
    refine ⟨by decide +kernel, fun j hj => ?_⟩
    obtain rfl : j = 0 := List.mem_singleton.1 hj
    exact ⟨1, rfl⟩
  refine ⟨run, hrun, h, hobj, hcost, ?_⟩
  rcases hloses h.closed h.degraded hbounded h.clean _ hy with ⟨_, value, hvalue, hle⟩ | hlost
  · obtain rfl : -2 = value := Extended.value.inj (hobj.symm.trans hvalue)
    rw [hcost] at hle
    norm_num at hle
  · exact hlost

end IntegerPrograms
