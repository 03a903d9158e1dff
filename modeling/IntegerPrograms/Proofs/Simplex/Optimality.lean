import Mathlib
import IntegerPrograms.Proofs.Simplex.Run
import IntegerPrograms.Proofs.Tableau.Rules

/-!
Answers of the simplex method in exact arithmetic. On a clean run the primal phase ends without
negative reduced costs, the dual ratio test keeps it so, and the last tableau is a certificate: of
optimality by its reduced costs, of infeasibility by one of its rows.
-/

set_option autoImplicit false

namespace IntegerPrograms

/-- Zero, or larger than every tolerance of the simplex method. -/
def Sharp (v : ℚ) : Prop := v = 0 ∨ Tolerance.ratio < |v|

instance (v : ℚ) : Decidable (Sharp v) := inferInstanceAs (Decidable (_ ∨ _))

theorem Tolerance.pivot_pos : (0 : ℚ) < Tolerance.pivot := by
  rw [Tolerance.pivot_rat]
  norm_num

theorem Tolerance.pivot_lt_ratio : (Tolerance.pivot : ℚ) < Tolerance.ratio := by
  rw [Tolerance.pivot_rat, Tolerance.ratio_rat]
  norm_num

theorem Tolerance.ratio_pos : (0 : ℚ) < Tolerance.ratio := pivot_pos.trans pivot_lt_ratio

theorem Sharp.nonneg {v : ℚ} (h : Sharp v) (hv : -Tolerance.ratio ≤ v) : 0 ≤ v := by
  rcases h with rfl | h
  · exact le_rfl
  · by_contra hneg
    rw [abs_of_neg (not_le.1 hneg)] at h
    linarith

theorem Sharp.lt_neg_pivot {v : ℚ} (h : Sharp v) (hv : v < 0) : v < -Tolerance.pivot := by
  by_contra hle
  have := h.nonneg (by linarith [Tolerance.pivot_lt_ratio])
  linarith

namespace Tableau

variable {n m : Nat} {t : Tableau ℚ n m}

/-- Every entry of a constraint row and every reduced cost is sharp. -/
def Clean (t : Tableau ℚ n m) : Prop :=
  (∀ (i : Fin m) (j : Fin (n + m + 1)), Sharp (t.get i.castSucc j)) ∧
    ∀ j : Fin (n + m), Sharp (t.reducedCost j.castSucc)

instance (t : Tableau ℚ n m) : Decidable t.Clean := inferInstanceAs (Decidable (_ ∧ _))

theorem Clean.eliminates (h : t.Clean) (k : Fin (n + m)) : t.Eliminates k.castSucc := by
  have hsharp (v : ℚ) (hv : Sharp v) : (if Tolerance.pivot < |v| then v else 0) = v := by
    rcases hv with rfl | hv
    · simp
    · rw [if_pos (Tolerance.pivot_lt_ratio.trans hv)]
  intro l
  refine Fin.lastCases ?_ (fun i => ?_) l
  · exact hsharp _ (h.2 k)
  · exact hsharp _ (h.1 i k.castSucc)

/-- What holds of the tableaux of a clean run. -/
def Sound (p : Problem ℚ) (t : Tableau ℚ p.numVars p.numRows) : Prop :=
  Reachable p t ∧ t.Canonical

theorem Sound.pivot {p : Problem ℚ} {t : Tableau ℚ p.numVars p.numRows} (h : Sound p t)
    (hc : t.Clean) (r : Fin p.numRows) (k : Fin (p.numVars + p.numRows))
    (hk : t.get r.castSucc k.castSucc ≠ 0) : Sound p (t.pivot r k.castSucc) :=
  ⟨.pivot r k h.1 hk, h.2.pivot r k hk ((hc.eliminates k).sweeps r)⟩

theorem primalStep_pivot {r : Fin m} {k : Fin (n + m)} (h : t.primalStep = .pivot r k) :
    t.reducedCost k.castSucc < -Tolerance.ratio ∧ Tolerance.ratio < t.get r.castSucc k.castSucc ∧
      ∀ i : Fin m, Tolerance.ratio < t.get i.castSucc k.castSucc →
        t.rhs r.castSucc / t.get r.castSucc k.castSucc ≤
          t.rhs i.castSucc / t.get i.castSucc k.castSucc := by
  rcases t.primalStep_cases with ⟨h', _⟩ | ⟨_, h', _⟩ | ⟨r', k', h', hrest⟩
  · simp [h] at h'
  · simp [h] at h'
  · obtain ⟨rfl, rfl⟩ : r = r' ∧ k = k' := by simpa [h] using h'
    exact hrest

theorem primalStep_ne_zero {r : Fin m} {k : Fin (n + m)} (h : t.primalStep = .pivot r k) :
    t.get r.castSucc k.castSucc ≠ 0 := by
  exact (Tolerance.ratio_pos.trans (primalStep_pivot h).2.1).ne'

theorem dualStep_pivot {r : Fin m} {k : Fin (n + m)} (h : t.dualStep = .pivot r k) :
    t.rhs r.castSucc < -Tolerance.pivot ∧ t.get r.castSucc k.castSucc < -Tolerance.pivot ∧
      ∀ j : Fin (n + m), t.get r.castSucc j.castSucc < -Tolerance.pivot →
        |t.reducedCost k.castSucc / t.get r.castSucc k.castSucc| ≤
          |t.reducedCost j.castSucc / t.get r.castSucc j.castSucc| := by
  rcases t.dualStep_cases with ⟨h', _⟩ | ⟨_, h', _⟩ | ⟨r', k', h', hrest⟩
  · simp [h] at h'
  · simp [h] at h'
  · obtain ⟨rfl, rfl⟩ : r = r' ∧ k = k' := by simpa [h] using h'
    exact hrest

theorem dualStep_ne_zero {r : Fin m} {k : Fin (n + m)} (h : t.dualStep = .pivot r k) :
    t.get r.castSucc k.castSucc ≠ 0 :=
  ((dualStep_pivot h).2.1.trans (neg_lt_zero.2 Tolerance.pivot_pos)).ne

theorem Sound.primal {p : Problem ℚ} {t : Tableau ℚ p.numVars p.numRows} (h : Sound p t)
    (hc : t.Clean) {r : Fin p.numRows} {k : Fin (p.numVars + p.numRows)}
    (hstep : t.primalStep = .pivot r k) : Sound p (t.pivot r k.castSucc) :=
  h.pivot hc r k (primalStep_ne_zero hstep)

theorem Sound.dual {p : Problem ℚ} {t : Tableau ℚ p.numVars p.numRows} (h : Sound p t)
    (hc : t.Clean) {r : Fin p.numRows} {k : Fin (p.numVars + p.numRows)}
    (hstep : t.dualStep = .pivot r k) : Sound p (t.pivot r k.castSucc) :=
  h.pivot hc r k (dualStep_ne_zero hstep)

/-- The dual ratio test keeps every reduced cost nonnegative. -/
theorem Clean.reducedCost_dual (hc : t.Clean) (hcost : ∀ j : Fin (n + m), 0 ≤ t.reducedCost j.castSucc)
    {r : Fin m} {k : Fin (n + m)} (h : t.dualStep = .pivot r k) (j : Fin (n + m)) :
    0 ≤ (t.pivot r k.castSucc).reducedCost j.castSucc := by
  obtain ⟨_, hneg, hmin⟩ := dualStep_pivot h
  have hk : t.get r.castSucc k.castSucc < 0 := by linarith [Tolerance.pivot_pos]
  rw [reducedCost, get_pivot_ne t r _ _ (Fin.castSucc_ne_last r).symm, hc.eliminates k]
  change 0 ≤ t.reducedCost j.castSucc - t.reducedCost k.castSucc * _
  have hck := hcost k
  have hcj := hcost j
  by_cases hj : t.get r.castSucc j.castSucc < 0
  · have hratio := hmin j ((hc.1 r j.castSucc).lt_neg_pivot hj)
    rw [abs_div, abs_div, abs_of_nonneg hck, abs_of_nonneg hcj, abs_of_neg hk, abs_of_neg hj,
      div_le_div_iff₀ (by linarith) (by linarith)] at hratio
    rw [sub_nonneg, ← mul_div_assoc, div_le_iff_of_neg hk]
    linarith
  · have hquot : t.get r.castSucc j.castSucc / t.get r.castSucc k.castSucc ≤ 0 :=
      div_nonpos_of_nonneg_of_nonpos (not_lt.1 hj) hk.le
    have := mul_nonpos_of_nonneg_of_nonpos hck hquot
    linarith

end Tableau

def Solved.tableaux {α : Type} [Scalar α] (s : Solved α) :
    List (Tableau α s.problem.numVars s.problem.numRows) :=
  (Tableau.slackBasis s.problem).trail (s.run.primal.pivots ++ s.run.dual.pivots)

def Solved.Clean (s : Solved ℚ) : Prop := ∀ t ∈ s.tableaux, t.Clean

instance (s : Solved ℚ) : Decidable s.Clean := inferInstanceAs (Decidable (∀ _ ∈ _, _))

namespace LpRun

variable {n m cap : Nat} {t : Tableau ℚ n m}

/-- The primal phase stops at the threshold of its own test, which clean costs pass by sign. -/
theorem reducedCost_firstPhase (h : (firstPhase cap t).ending = .goal)
    (hc : (firstPhase cap t).final.Clean) (j : Fin (n + m)) :
    0 ≤ (firstPhase cap t).final.reducedCost j.castSucc :=
  (hc.2 j).nonneg (Tableau.primalEntering_none (firstPhase_goal h) j)

theorem firstPhase_of_status (h : (ofTableau cap t).status ≠ .unbounded)
    (h' : (ofTableau cap t).status ≠ .pivotLimit) : (firstPhase cap t).ending = .goal := by
  cases he : (firstPhase cap t).ending with
  | goal => rfl
  | blocked line => simp [ofTableau_eq, he] at h
  | capped => simp [ofTableau_eq, he] at h'

theorem final_optimal (h : (ofTableau cap t).status = .optimal) :
    (firstPhase cap t).ending = .goal ∧ (ofTableau cap t).final.dualLeaving = none := by
  have hgoal : (firstPhase cap t).ending = .goal :=
    firstPhase_of_status (by rw [h]; simp) (by rw [h]; simp)
  rw [ofTableau_goal hgoal] at h ⊢
  exact ⟨hgoal, Tableau.dualStep_goal (Phase.run_goal (ending_of_optimal h))⟩

theorem final_infeasible (h : (ofTableau cap t).status = .infeasible) :
    (firstPhase cap t).ending = .goal ∧
      ∃ r : Fin m, (ofTableau cap t).final.rhs r.castSucc < -Tolerance.pivot ∧
        ∀ j : Fin (n + m), -Tolerance.pivot ≤ (ofTableau cap t).final.get r.castSucc j.castSucc := by
  have hgoal : (firstPhase cap t).ending = .goal :=
    firstPhase_of_status (by rw [h]; simp) (by rw [h]; simp)
  rw [ofTableau_goal hgoal] at h ⊢
  obtain ⟨line, hend⟩ := ending_of_infeasible h
  refine ⟨hgoal, ?_⟩
  rcases Tableau.dualStep_cases (Phase.run Tableau.dualStep cap (firstPhase cap t).final).final with
    ⟨hstep, _⟩ | ⟨r, _, hrow⟩ | ⟨_, _, hstep, _⟩
  · simp [Phase.run_blocked hend] at hstep
  · exact ⟨r, hrow⟩
  · simp [Phase.run_blocked hend] at hstep

end LpRun

namespace Tableau

variable {p : Problem ℚ} {t : Tableau ℚ p.numVars p.numRows}

theorem Reachable.exists_slacks (hp : p.Valid) (ht : Reachable p t) {v : Fin p.numVars → ℚ}
    (hv : p.Feasible (List.ofFn v)) :
    ∃ s : Fin p.numRows → ℚ, t.Solves v s ∧ (∀ j, 0 ≤ v j) ∧ ∀ k, 0 ≤ s k := by
  obtain ⟨hrow, hnonneg⟩ := (Problem.feasible_ofFn hp v).1 hv
  refine ⟨fun k => p.limit k - ∑ j, p.coef k j * v j, ?_, hnonneg, fun k => ?_⟩
  · exact (ht.solves_iff hp v _).2 fun _ => rfl
  · linarith [hrow k]

theorem Reachable.objective_le (hp : p.Valid) (ht : Reachable p t)
    (hcost : ∀ j : Fin (p.numVars + p.numRows), 0 ≤ t.reducedCost j.castSucc) {y : List ℚ}
    (hy : p.Feasible y) : t.objective ≤ p.objective y := by
  obtain ⟨v, rfl⟩ := Problem.exists_ofFn hy.1
  obtain ⟨s, hs, hv, hslack⟩ := ht.exists_slacks hp hy
  have hdecision : 0 ≤ ∑ j, t.reducedCost (decisionCol j) * v j :=
    Finset.sum_nonneg fun j _ => mul_nonneg (hcost (Fin.castAdd p.numRows j)) (hv j)
  have hslacks : 0 ≤ ∑ k, t.reducedCost (slackCol k) * s k :=
    Finset.sum_nonneg fun k _ => mul_nonneg (hcost (Fin.natAdd p.numVars k)) (hslack k)
  rw [Problem.objective_ofFn, ht.cost_eq hs]
  linarith

theorem Reachable.prices (hp : p.Valid) (ht : Reachable p t)
    (hcost : ∀ j : Fin (p.numVars + p.numRows), 0 ≤ t.reducedCost j.castSucc) :
    (∀ k, 0 ≤ t.reducedCost (slackCol k)) ∧
      (∀ j, 0 ≤ p.cost j + ∑ k, t.reducedCost (slackCol k) * p.coef k j) ∧
      t.objective = -∑ k, p.limit k * t.reducedCost (slackCol k) := by
  refine ⟨fun k => hcost (Fin.natAdd p.numVars k), fun j => ?_, ?_⟩
  · rw [← ht.reducedCost_eq hp]
    exact hcost (Fin.castAdd p.numRows j)
  · rw [ht.objective_eq hp]
    simp only [mul_comm]

/-- A row without negative entries but with a negative right-hand side has no solution. -/
theorem Reachable.infeasible (hp : p.Valid) (ht : Reachable p t) {r : Fin p.numRows}
    (hrhs : t.rhs r.castSucc < 0)
    (hrow : ∀ j : Fin (p.numVars + p.numRows), 0 ≤ t.get r.castSucc j.castSucc) (y : List ℚ) :
    ¬ p.Feasible y := by
  intro hy
  obtain ⟨v, rfl⟩ := Problem.exists_ofFn hy.1
  obtain ⟨s, hs, hv, hslack⟩ := ht.exists_slacks hp hy
  have hdecision : 0 ≤ ∑ j, t.get r.castSucc (decisionCol j) * v j :=
    Finset.sum_nonneg fun j _ => mul_nonneg (hrow (Fin.castAdd p.numRows j)) (hv j)
  have hslacks : 0 ≤ ∑ k, t.get r.castSucc (slackCol k) * s k :=
    Finset.sum_nonneg fun k _ => mul_nonneg (hrow (Fin.natAdd p.numVars k)) (hslack k)
  linarith [hs r]

theorem Sound.slack_value (hp : p.Valid) (h : Sound p t) (k : Fin p.numRows) :
    t.value (slackCol k) = p.limit k - ∑ j, p.coef k j * t.value (decisionCol j) :=
  (h.1.solves_iff hp _ _).1 h.2.unitBasis.solves_value k

theorem Sound.feasible_value (hp : p.Valid) (h : Sound p t)
    (hrhs : ∀ i : Fin p.numRows, 0 ≤ t.rhs i.castSucc) :
    p.Feasible (List.ofFn fun j => t.value (decisionCol j)) := by
  refine (Problem.feasible_ofFn hp _).2 ⟨fun k => ?_, fun j => h.2.unitBasis.value_nonneg hrhs _⟩
  linarith [h.slack_value hp k, h.2.unitBasis.value_nonneg hrhs (slackCol k)]

theorem Sound.objective_value (h : Sound p t) :
    t.objective = p.objective (List.ofFn fun j => t.value (decisionCol j)) := by
  rw [Problem.objective_ofFn, h.1.cost_eq h.2.unitBasis.solves_value, h.2.reducedCost_value, add_zero]

end Tableau

namespace Problem

variable {p : Problem ℚ} {settings : LpSettings}

open Tableau in
theorem reachable_final (p : Problem ℚ) (settings : LpSettings) :
    Reachable p (p.solved settings).run.final := by
  refine LpRun.final_induction (C := fun _ => True) (I := Reachable p) ?_ ?_ settings.maxPivots _
    (fun _ _ => trivial) .start
  · intro u r k _ hu hstep
    exact .pivot r k hu (primalStep_ne_zero hstep)
  · intro u r k _ hu hstep
    exact .pivot r k hu (dualStep_ne_zero hstep)

open Tableau in
theorem firstPhase_sound (hp : p.Valid) {cap : Nat} {later : List (PivotRecord ℚ)}
    (hclean : ∀ t ∈ (slackBasis p).trail ((LpRun.firstPhase cap (slackBasis p)).pivots ++ later),
      t.Clean) :
    Sound p (LpRun.firstPhase cap (slackBasis p)).final ∧
      ∀ t ∈ (LpRun.firstPhase cap (slackBasis p)).final.trail later, t.Clean :=
  LpRun.firstPhase_induction (fun _ _ _ hcu hu hstep => Sound.primal hu hcu hstep) _ _ _ hclean
    ⟨.start, canonical_slackBasis hp⟩

open Tableau in
theorem solved_dual (hp : p.Valid) (hc : (p.solved settings).Clean)
    (hgoal : (LpRun.firstPhase settings.maxPivots (slackBasis p)).ending = .goal) :
    Sound p (p.solved settings).run.final ∧ (p.solved settings).run.final.Clean ∧
      ∀ j : Fin (p.numVars + p.numRows),
        0 ≤ (p.solved settings).run.final.reducedCost j.castSucc := by
  have hrun : (p.solved settings).run = _ := LpRun.ofTableau_goal hgoal
  have hclean := hc
  rw [Solved.Clean, Solved.tableaux, hrun] at hclean
  rw [hrun]
  obtain ⟨hmid, hlater⟩ := firstPhase_sound hp hclean
  have hcost := LpRun.reducedCost_firstPhase hgoal (hlater _ (mem_trail_self _ _))
  rw [← List.append_nil (Phase.pivots _)] at hlater
  obtain ⟨⟨hsound, hnonneg⟩, hlast⟩ := Phase.run_induction
    (I := fun u => Sound p u ∧ ∀ j : Fin (p.numVars + p.numRows), 0 ≤ u.reducedCost j.castSucc)
    (fun u r k hcu hu hstep => ⟨hu.1.dual hcu hstep, hcu.reducedCost_dual hu.2 hstep⟩) _ _ _
    hlater ⟨hmid, hcost⟩
  exact ⟨hsound, hlast _ (mem_trail_self _ _), hnonneg⟩

open Tableau in
theorem solved_optimal (hp : p.Valid) (hc : (p.solved settings).Clean)
    (h : (p.solved settings).result.status = .optimal) :
    Sound p (p.solved settings).run.final ∧
      (∀ j : Fin (p.numVars + p.numRows),
        0 ≤ (p.solved settings).run.final.reducedCost j.castSucc) ∧
      ∀ i : Fin p.numRows, 0 ≤ (p.solved settings).run.final.rhs i.castSucc := by
  obtain ⟨hgoal, hnone⟩ := LpRun.final_optimal h
  obtain ⟨hsound, hclean, hcost⟩ := solved_dual hp hc hgoal
  refine ⟨hsound, hcost, fun i => (hclean.1 i _).nonneg ?_⟩
  exact (neg_le_neg Tolerance.pivot_lt_ratio.le).trans (dualLeaving_none hnone i)

theorem solved_x (h : (p.solved settings).result.status = .optimal) :
    (p.solved settings).result.x =
      List.ofFn fun j => (p.solved settings).run.final.value (Tableau.decisionCol j) := by
  have hstatus : (p.solved settings).run.status = .optimal := h
  change List.ofFn (fun j => if (p.solved settings).run.status.hasSolution then _ else _) = _
  rw [hstatus]
  rfl

theorem optimal_feasible (hp : p.Valid) (hc : (p.solved settings).Clean)
    (h : (p.solved settings).result.status = .optimal) :
    p.Feasible (p.solved settings).result.x := by
  obtain ⟨hsound, -, hrhs⟩ := solved_optimal hp hc h
  rw [solved_x h]
  exact hsound.feasible_value hp hrhs

theorem optimal_objective (hp : p.Valid) (hc : (p.solved settings).Clean)
    (h : (p.solved settings).result.status = .optimal) :
    (p.solved settings).result.objective = p.objective (p.solved settings).result.x := by
  rw [solved_x h]
  exact (solved_optimal hp hc h).1.objective_value

theorem optimal_le (hp : p.Valid) (hc : (p.solved settings).Clean)
    (h : (p.solved settings).result.status = .optimal) {y : List ℚ} (hy : p.Feasible y) :
    (p.solved settings).result.objective ≤ p.objective y := by
  obtain ⟨hsound, hcost, -⟩ := solved_optimal hp hc h
  exact hsound.1.objective_le hp hcost hy

theorem infeasible_empty (hp : p.Valid) (hc : (p.solved settings).Clean)
    (h : (p.solved settings).result.status = .infeasible) (y : List ℚ) : ¬ p.Feasible y := by
  obtain ⟨hgoal, r, hrhs, hrow⟩ := LpRun.final_infeasible h
  obtain ⟨hsound, hclean, -⟩ := solved_dual hp hc hgoal
  refine hsound.1.infeasible hp (r := r) ?_ (fun j => (hclean.1 r j.castSucc).nonneg ?_) y
  · exact hrhs.trans (neg_lt_zero.2 Tolerance.pivot_pos)
  · exact (neg_le_neg Tolerance.pivot_lt_ratio.le).trans (hrow j)

/-- A valid problem has an answer. If it is optimal and the run clean, the point is feasible and
the slack prices `z` certify that no feasible point costs less. -/
theorem solve?_optimal_certified (hp : p.Valid) (settings : LpSettings) :
    ∃ s, p.solve? settings = some s ∧ (s.Clean → s.result.status = .optimal →
      p.Feasible s.result.x ∧ s.result.objective = p.objective s.result.x ∧
      (∃ z : Fin p.numRows → ℚ, s.result.z = List.ofFn z ∧ (∀ k, 0 ≤ z k) ∧
        (∀ j, 0 ≤ p.cost j + ∑ k, z k * p.coef k j) ∧
        s.result.objective = -∑ k, p.limit k * z k) ∧
      ∀ y, p.Feasible y → s.result.objective ≤ p.objective y) := by
  refine ⟨p.solved settings, solve?_valid hp settings, fun hc h => ?_⟩
  refine ⟨optimal_feasible hp hc h, optimal_objective hp hc h, ?_, fun y => optimal_le hp hc h⟩
  obtain ⟨hsound, hcost, -⟩ := solved_optimal hp hc h
  exact ⟨_, rfl, hsound.1.prices hp hcost⟩

def covering : Problem ℚ := ⟨[-1, 2], [[1, 1], [0, -1]], [4, -1]⟩

theorem solve?_optimal_certified_covering :
    ∃ s, covering.solve? {} = some s ∧ s.Clean ∧ s.result.status = .optimal ∧
      s.result.pivots = ⟨2, 1, 1⟩ ∧ s.result.x = [3, 1] ∧
      ∀ y, covering.Feasible y → s.result.objective ≤ covering.objective y := by
  obtain ⟨s, hs, hcert⟩ := solve?_optimal_certified (p := covering) (by decide +kernel) {}
  have hrun : (covering.solve? {}).any (fun s => decide (s.Clean ∧ s.result.status = .optimal ∧
      s.result.pivots = ⟨2, 1, 1⟩ ∧ s.result.x = [3, 1])) = true := by decide +kernel
  rw [hs, Option.any_some, decide_eq_true_eq] at hrun
  obtain ⟨hc, ho, hpivots, hx⟩ := hrun
  exact ⟨s, hs, hc, ho, hpivots, hx, (hcert hc ho).2.2.2⟩

end Problem

end IntegerPrograms
