import Mathlib
import IntegerPrograms.Proofs.Search.Nodes

/-!
Exact search. On clean runs every whole point of the problem stays covered: it is in an open node,
or the incumbent is as good, unless a cut lost it. An incumbent is a point of the problem.
-/

set_option autoImplicit false

namespace IntegerPrograms

variable {β : Type}

namespace MixedProblem

def Feasible (p : MixedProblem ℚ) (y : List ℚ) : Prop :=
  p.lp.Feasible y ∧ ∀ j ∈ p.integers, ∃ k : ℤ, y[j]? = some (k : ℚ)

def Within (p : MixedProblem ℚ) (tol : ℚ) (x : List ℚ) : Prop :=
  ∀ j ∈ p.integers, ∃ v, x[j]? = some v ∧ ∃ k : ℤ, |v - k| ≤ tol

theorem within_of_select? (p : MixedProblem ℚ) {rule : BranchingRule} {x : List ℚ} {tol : ℚ}
    (hx : x.length = p.lp.numVars) (h : p.select? rule x tol = some none) : p.Within tol x := by
  rcases p.select?_spec rule hx tol with ⟨_, hwhole⟩ | ⟨f, hsel, _⟩
  · intro j hj
    have hlt : j < x.length := by
      rw [hx]
      exact p.integers_lt j hj
    have hv : x[j]? = some x[j] := List.getElem?_eq_getElem hlt
    obtain ⟨k, hk⟩ := fractionality_rat x[j]
    have hle := not_lt.1 (hwhole j hj _ hv)
    exact ⟨x[j], hv, k, hk ▸ hle⟩
  · cases h.symm.trans hsel

theorem Within.feasible {p : MixedProblem ℚ} {x : List ℚ} (h : p.Within 0 x)
    (hx : p.lp.Feasible x) : p.Feasible x := by
  refine ⟨hx, fun j hj => ?_⟩
  obtain ⟨v, hv, k, hk⟩ := h j hj
  have hzero : v - k = 0 := abs_eq_zero.1 (le_antisymm hk (abs_nonneg _))
  exact ⟨k, by rw [hv, sub_eq_zero.1 hzero]⟩

end MixedProblem

namespace Incumbent

def AtMost (inc : Incumbent ℚ) (bound : ℚ) : Prop :=
  ∃ best, inc.best = some best ∧ best.objective ≤ bound

variable {inc : Incumbent ℚ} {v bound : ℚ}

theorem atMost_of_dominates (h : inc.dominates v = true) : inc.AtMost v := by
  cases hb : inc.best with
  | none =>
    simp only [dominates, hb] at h
    rw [Scalar.reachesInfinity_rat] at h
    cases h
  | some best => exact ⟨best, hb, by simpa [dominates, hb] using h⟩

theorem atMost_update (inc : Incumbent ℚ) (x : List ℚ) (v : ℚ) : (inc.update x v).AtMost v := by
  unfold AtMost
  rw [best_update]
  cases himp : inc.improvedBy v with
  | true => exact ⟨⟨x, v⟩, rfl, le_rfl⟩
  | false =>
    cases hb : inc.best with
    | none => simp [improvedBy, hb, Scalar.belowInfinity_rat] at himp
    | some best => exact ⟨best, rfl, by simpa [improvedBy, hb] using himp⟩

theorem AtMost.update (h : inc.AtMost bound) (x : List ℚ) (v : ℚ) :
    (inc.update x v).AtMost bound := by
  obtain ⟨best, hb, hle⟩ := h
  unfold AtMost
  rw [best_update]
  cases himp : inc.improvedBy v with
  | true =>
    have hlt : v < best.objective := by simpa [improvedBy, hb] using himp
    exact ⟨⟨x, v⟩, rfl, hlt.le.trans hle⟩
  | false => exact ⟨best, hb, hle⟩

theorem AtMost.mono {bound' : ℚ} (h : inc.AtMost bound) (hle : bound ≤ bound') :
    inc.AtMost bound' := by
  obtain ⟨best, hb, hbest⟩ := h
  exact ⟨best, hb, hbest.trans hle⟩

def Attained (p : MixedProblem ℚ) (tol : ℚ) (inc : Incumbent ℚ) : Prop :=
  ∀ best, inc.best = some best →
    p.lp.Feasible best.x ∧ p.Within tol best.x ∧ best.objective = p.lp.objective best.x

theorem Attained.update {p : MixedProblem ℚ} {tol : ℚ} {x : List ℚ} (h : inc.Attained p tol)
    (hx : p.lp.Feasible x) (hw : p.Within tol x) (hv : v = p.lp.objective x) :
    (inc.update x v).Attained p tol := by
  intro best hbest
  rw [best_update] at hbest
  split at hbest
  · obtain rfl : (⟨x, v⟩ : Candidate ℚ) = best := Option.some.inj hbest
    exact ⟨hx, hw, hv⟩
  · exact h best hbest

end Incumbent

/-- Every tableau of every relaxation solved at the node is clean. -/
def Visit.Clean (v : Visit ℚ β) : Prop := (∀ c ∈ v.cuts, c.solved.Clean) ∧ v.last.Clean

instance (v : Visit ℚ β) : Decidable v.Clean := inferInstanceAs (Decidable (_ ∧ _))

/-- The search closed every node without giving one up, met nothing unbounded and was clean. -/
structure SearchRun.Complete (run : SearchRun ℚ β) : Prop where
  closed : run.final.frontier.nodes = []
  degraded : run.solution.degraded = 0
  bounded : run.solution.status ≠ .unbounded
  clean : ∀ v ∈ run.visits, v.Clean

instance (run : SearchRun ℚ β) : Decidable run.Complete :=
  decidable_of_iff (run.final.frontier.nodes.isEmpty = true ∧ run.solution.degraded = 0 ∧
      run.solution.status ≠ .unbounded ∧ ∀ v ∈ run.visits, v.Clean)
    ⟨fun ⟨hclosed, hdegraded, hbounded, hclean⟩ =>
      ⟨List.isEmpty_iff.1 hclosed, hdegraded, hbounded, hclean⟩,
     fun h => ⟨List.isEmpty_iff.2 h.closed, h.degraded, h.bounded, h.clean⟩⟩

def SearchRun.Keeps (run : SearchRun ℚ β) (y : List ℚ) : Prop :=
  ∀ v ∈ run.visits, ∀ c ∈ v.cuts, ¬ c.Loses y

namespace SearchRun

variable {run : SearchRun ℚ β}

theorem Complete.sawUnbounded (h : run.Complete) : run.final.sawUnbounded = false := by
  rw [← Bool.not_eq_true, ← SearchTree.status_eq_unbounded_iff]
  exact h.bounded

theorem Complete.status (h : run.Complete) :
    run.solution.status =
      if run.solution.incumbent.best.isSome then .optimal else .infeasible := by
  have hsaw := h.sawUnbounded
  have hclosed := h.closed
  simp [solution, SearchTree.solution, SearchTree.status, SearchTree.exhausted, hsaw,
    Frontier.isEmpty, hclosed]

end SearchRun

namespace Search

variable {s : Search ℚ β} {inc : Incumbent ℚ} {p : Problem ℚ} {y : List ℚ}
  {run : SearchRun ℚ β}

namespace RoundsSpec

variable {r : Rounds ℚ β}

/-- An optimal relaxation solved cleanly is optimal for what the node has left. -/
theorem optimum (h : s.RoundsSpec inc p r) (href : p.Refines s.problem.lp) (hc : r.last.Clean)
    (ho : r.last.result.status = .optimal) :
    r.last.problem.Feasible r.last.result.x ∧
      r.last.result.objective = s.problem.lp.objective r.last.result.x ∧
      ∀ y, r.last.problem.Feasible y → r.last.result.objective ≤ s.problem.lp.objective y := by
  have hlast := h.refines.trans href
  have hv := h.refines.valid
  simp only [← hlast.objective]
  rw [h.solved] at hc ho ⊢
  exact ⟨Problem.optimal_feasible hv hc ho, Problem.optimal_objective hv hc ho,
    fun y hy => Problem.optimal_le hv hc ho hy⟩

theorem integral (h : s.RoundsSpec inc p r) (href : p.Refines s.problem.lp) (hc : r.last.Clean)
    {improves : Bool} (hv : r.verdict = .integral improves) :
    r.last.problem.Feasible r.last.result.x ∧
      s.problem.Within s.settings.tolerance r.last.result.x ∧
      r.last.result.objective = s.problem.lp.objective r.last.result.x ∧
      ∀ y, r.last.problem.Feasible y → r.last.result.objective ≤ s.problem.lp.objective y := by
  have hj := h.judged
  rw [hv] at hj
  cases hj with
  | integral ho _ hsel =>
    obtain ⟨hx, hrest⟩ := h.optimum href hc ho
    have hlen := ((h.refines.trans href).feasible _ hx).1
    exact ⟨hx, s.problem.within_of_select? hlen hsel, hrest⟩

theorem empty (h : s.RoundsSpec inc p r) (hc : r.last.Clean)
    (hi : r.last.result.status = .infeasible ∨ r.last.result.status = .notDualFeasible)
    (y : List ℚ) : ¬ r.last.problem.Feasible y := by
  have hv := h.refines.valid
  rw [h.solved] at hc hi ⊢
  rcases hi with hi | hi
  · exact Problem.infeasible_empty hv hc hi y
  · exact absurd hi (LpRun.status_ne_notDualFeasible _ _)

end RoundsSpec

/-- A point is in an open node, or the incumbent costs no more, or the search gave something up. -/
def Covers (s : Search ℚ β) (t : SearchTree ℚ (Node ℚ β)) (y : List ℚ) : Prop :=
  (∃ node ∈ t.frontier.nodes, s.Has node y) ∨ t.incumbent.AtMost (s.problem.lp.objective y) ∨
    t.sawUnbounded = true ∨ 0 < t.degraded

theorem covers_start (hs : s.Lawful) (hy : s.problem.lp.Feasible y) : s.Covers s.start y := by
  refine .inl ⟨.root s.storage.root, ?_, s.problem.lp, hs.root, hy⟩
  simp [start, SearchTree.push, Frontier.push]

namespace Step

variable {t t' : SearchTree ℚ (Node ℚ β)} {node : Node ℚ β} {v : Visit ℚ β}

theorem covers_visited (h : s.Step t node p t' v) (hc : v.last.Clean) (hy : s.problem.Feasible y)
    (hp : p.Feasible y) (hkept : ∀ c ∈ v.cuts, ¬ c.Loses y) : s.Covers (t'.afterVisit v) y := by
  -- The cuts keep the point, so it is in the last system, and each verdict accounts for those.
  have hlast : v.last.problem.Feasible y := h.spec.kept y hp hkept
  have hj := h.spec.judged
  cases hv : v.verdict with
  | infeasible =>
    rw [hv] at hj
    cases hj with
    | infeasible hi => exact absurd hlast (h.spec.empty hc hi y)
  | unbounded =>
    refine .inr (.inr (.inl ?_))
    rw [SearchTree.sawUnbounded_afterVisit, hv]
  | pivotLimit =>
    refine .inr (.inr (.inr ?_))
    rw [SearchTree.degraded_afterVisit, hv]
    exact Nat.succ_pos _
  | dominated =>
    rw [hv] at hj
    cases hj with
    | dominated ho hd =>
      refine .inr (.inl ?_)
      rw [SearchTree.incumbent_afterVisit, hv, h.incumbent]
      exact (Incumbent.atMost_of_dominates hd).mono ((h.spec.optimum h.refines hc ho).2.2 y hlast)
  | integral improves =>
    refine .inr (.inl ?_)
    rw [SearchTree.incumbent_afterVisit, hv]
    obtain ⟨_, _, _, hle⟩ := h.spec.integral h.refines hc hv
    exact (Incumbent.atMost_update ..).mono (hle y hlast)
  | fractional f =>
    obtain ⟨down, up, hchildren, hdown, hup⟩ := h.spec.branched f hv
    obtain ⟨k, hk⟩ := hy.2 f.var (h.spec.choice hv).1
    refine .inl ?_
    rw [SearchTree.nodes_afterVisit, hchildren]
    rcases f.down_or_up hk with hside | hside
    · exact ⟨down, by simp, (hdown y).2 ⟨hlast, hside⟩⟩
    · exact ⟨up, by simp, (hup y).2 ⟨hlast, hside⟩⟩

theorem covers (h : s.Step t node p t' v) (hc : v.last.Clean) (hy : s.problem.Feasible y)
    (hkept : ∀ c ∈ v.cuts, ¬ c.Loses y) (ht : s.Covers t y) : s.Covers (t'.afterVisit v) y := by
  obtain ⟨hnodes, hinc, hdegraded, hunbounded, _⟩ := SearchTree.pop?_eq_some h.pop
  rcases ht with ⟨other, hother, hhas⟩ | hbest | hsaw | hpos
  · rw [hnodes, List.mem_cons] at hother
    rcases hother with rfl | hother
    · exact h.covers_visited hc hy ((has_iff h.system y).1 hhas) hkept
    · refine .inl ⟨other, ?_, hhas⟩
      rw [SearchTree.nodes_afterVisit]
      exact List.mem_append_right _ hother
  · refine .inr (.inl ?_)
    rw [SearchTree.incumbent_afterVisit, hinc]
    cases v.verdict with
    | integral improves => exact hbest.update ..
    | _ => exact hbest
  · refine .inr (.inr (.inl ?_))
    rw [SearchTree.sawUnbounded_afterVisit, hunbounded, hsaw]
    cases v.verdict <;> rfl
  · refine .inr (.inr (.inr ?_))
    rw [SearchTree.degraded_afterVisit, hdegraded]
    cases v.verdict with
    | pivotLimit => exact Nat.succ_pos _
    | _ => exact hpos

theorem attained (h : s.Step t node p t' v) (hc : v.last.Clean)
    (ht : t.incumbent.Attained s.problem s.settings.tolerance) :
    (t'.afterVisit v).incumbent.Attained s.problem s.settings.tolerance := by
  rw [SearchTree.incumbent_afterVisit, h.incumbent]
  cases hv : v.verdict with
  | integral improves =>
    obtain ⟨hx, hwithin, hobj, _⟩ := h.spec.integral h.refines hc hv
    exact ht.update ((h.spec.refines.trans h.refines).feasible _ hx) hwithin hobj
  | _ => exact ht

end Step

theorem covers_final (hs : s.Lawful) (hrun : s.run? = some run)
    (hclean : ∀ v ∈ run.visits, v.Clean) (hy : s.problem.Feasible y) (hkept : run.Keeps y) :
    s.Covers run.final y := by
  refine run_induction hs (I := fun past t => (∀ v ∈ past, v.Clean) →
    (∀ v ∈ past, ∀ c ∈ v.cuts, ¬ c.Loses y) → s.Covers t y) ?_ hrun
    (fun _ _ => covers_start hs hy.1) hclean hkept
  intro past t node p t' v h ih hc hk
  simp only [List.forall_mem_append, List.forall_mem_singleton] at hc hk
  exact h.covers hc.2.2 hy hk.2 (ih hc.1 hk.1)

theorem attained_final (hs : s.Lawful) (hrun : s.run? = some run)
    (hclean : ∀ v ∈ run.visits, v.Clean) :
    run.final.incumbent.Attained s.problem s.settings.tolerance := by
  refine run_induction hs (I := fun past t => (∀ v ∈ past, v.Clean) →
    t.incumbent.Attained s.problem s.settings.tolerance) ?_ hrun ?_ hclean
  · intro past t node p t' v h ih hc
    simp only [List.forall_mem_append, List.forall_mem_singleton] at hc
    exact h.attained hc.2.2 (ih hc.1)
  · intro _ best hbest
    cases hbest

theorem keeps_of_cutLimit (hlimit : s.cutLimit = 0) (hrun : s.run? = some run) (y : List ℚ) :
    run.Keeps y := by
  intro v hv c hc
  rw [((uncut hlimit hrun).1 v hv).1] at hc
  cases hc

theorem atMost_of_complete (hs : s.Lawful) (hrun : s.run? = some run) (h : run.Complete)
    (hy : s.problem.Feasible y) (hkept : run.Keeps y) :
    run.solution.incumbent.AtMost (s.problem.lp.objective y) := by
  have hdegraded : run.final.degraded = 0 := h.degraded
  rcases covers_final hs hrun h.clean hy hkept with ⟨node, hnode, _⟩ | hbest | hsaw | hpos
  · rw [h.closed] at hnode
    cases hnode
  · exact hbest
  · rw [h.sawUnbounded] at hsaw
    cases hsaw
  · omega

end Search

/-- Branch-and-bound is exact: a complete run that says optimal has found a point of the problem,
whole up to the tolerance, that costs no more than any whole point; one that says infeasible has
searched a problem without whole points. -/
theorem branchAndBound_exact (p : MixedProblem ℚ) (settings : SearchSettings ℚ) :
    ∃ run, (branchAndBound p settings).run? = some run ∧ (run.Complete →
      (run.solution.status = .optimal →
        p.lp.Feasible run.solution.incumbent.x ∧
        p.Within settings.tolerance run.solution.incumbent.x ∧
        run.solution.incumbent.objective = .value (p.lp.objective run.solution.incumbent.x) ∧
        ∀ y, p.Feasible y → p.lp.objective run.solution.incumbent.x ≤ p.lp.objective y) ∧
      (run.solution.status = .infeasible → ∀ y, ¬ p.Feasible y)) := by
  have hs := Search.lawful_branchAndBound p settings
  obtain ⟨run, hrun⟩ := Search.exists_run hs
  refine ⟨run, hrun, fun h => ?_⟩
  have hle (y : List ℚ) (hy : p.Feasible y) :=
    Search.atMost_of_complete hs hrun h hy (Search.keeps_of_cutLimit rfl hrun y)
  rw [h.status]
  cases hbest : run.solution.incumbent.best with
  | none =>
    refine ⟨by simp, fun _ y hy => ?_⟩
    obtain ⟨best, hb, _⟩ := hle y hy
    rw [hbest] at hb
    cases hb
  | some best =>
    obtain ⟨hx, hw, hobj⟩ := Search.attained_final hs hrun h.clean best hbest
    refine ⟨fun _ => ?_, by simp⟩
    simp only [Incumbent.x, Incumbent.objective, hbest, Option.elim_some]
    refine ⟨hx, hw, by rw [hobj]; rfl, fun y hy => ?_⟩
    obtain ⟨best', hb, hle'⟩ := hle y hy
    obtain rfl : best = best' := Option.some.inj (hbest.symm.trans hb)
    exact hobj ▸ hle'

/-- Minimize `-5x - 4y` over whole `x`, `y` with `6x + 4y ≤ 24` and `x + 2y ≤ 6`. -/
def workshop : MixedProblem ℚ :=
  ⟨⟨[-5, -4], [[6, 4], [1, 2]], [24, 6]⟩, [0, 1], by decide +kernel, by decide, by decide,
    by decide⟩

theorem branchAndBound_exact_workshop :
    ∃ run, (branchAndBound workshop {}).run? = some run ∧ run.Complete ∧
      run.solution.status = .optimal ∧ 1 < run.visits.length ∧
      run.solution.incumbent.x = [4, 0] ∧
      ∀ y, workshop.Feasible y → -20 ≤ workshop.lp.objective y := by
  obtain ⟨run, hrun, hexact⟩ := branchAndBound_exact workshop {}
  have heval : ((branchAndBound workshop {}).run?).any (fun run => decide (run.Complete ∧
      run.solution.status = .optimal ∧ 1 < run.visits.length ∧
      run.solution.incumbent.x = [4, 0])) = true := by decide +kernel
  rw [hrun, Option.any_some, decide_eq_true_eq] at heval
  obtain ⟨hcomplete, hstatus, hvisits, hx⟩ := heval
  have hle := ((hexact hcomplete).1 hstatus).2.2.2
  have hobj : workshop.lp.objective [4, 0] = -20 := by decide +kernel
  rw [hx, hobj] at hle
  exact ⟨run, hrun, hcomplete, hstatus, hvisits, hx, hle⟩

end IntegerPrograms
