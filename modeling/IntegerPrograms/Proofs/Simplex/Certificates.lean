import Mathlib
import IntegerPrograms.Proofs.Simplex.Optimality
import IntegerPrograms.Proofs.Tableau.Directions

set_option autoImplicit false

namespace IntegerPrograms

theorem Sharp.nonpos {v : ℚ} (h : Sharp v) (hv : v ≤ Tolerance.ratio) : v ≤ 0 := by
  rcases h with rfl | h
  · exact le_rfl
  · by_contra hpos
    rw [abs_of_pos (not_le.1 hpos)] at h
    linarith

namespace Problem

variable {p : Problem ℚ}

theorem sum_limits (w : Fin p.numRows → ℚ) (v : Fin p.numVars → ℚ) :
    ∑ k, w k * p.limit k = ∑ j, (∑ k, w k * p.coef k j) * v j +
      ∑ k, w k * (p.limit k - ∑ j, p.coef k j * v j) := by
  have hswap : ∑ j, (∑ k, w k * p.coef k j) * v j = ∑ k, w k * ∑ j, p.coef k j * v j := by
    simp only [Finset.sum_mul, Finset.mul_sum]
    rw [Finset.sum_comm]
    exact Finset.sum_congr rfl fun k _ => Finset.sum_congr rfl fun j _ => by ring
  rw [hswap, ← Finset.sum_add_distrib]
  exact Finset.sum_congr rfl fun k _ => by ring

theorem le_objective_of_prices (hp : p.Valid) {z : Fin p.numRows → ℚ} (hz : ∀ k, 0 ≤ z k)
    (hcost : ∀ j, 0 ≤ p.cost j + ∑ k, z k * p.coef k j) {y : List ℚ} (hy : p.Feasible y) :
    -∑ k, z k * p.limit k ≤ p.objective y := by
  obtain ⟨v, rfl⟩ := exists_ofFn hy.1
  obtain ⟨hrow, hnonneg⟩ := (feasible_ofFn hp v).1 hy
  have hslack : 0 ≤ ∑ k, z k * (p.limit k - ∑ j, p.coef k j * v j) :=
    Finset.sum_nonneg fun k _ => mul_nonneg (hz k) (sub_nonneg.2 (hrow k))
  have hreduced : 0 ≤ ∑ j, (p.cost j + ∑ k, z k * p.coef k j) * v j :=
    Finset.sum_nonneg fun j _ => mul_nonneg (hcost j) (hnonneg j)
  simp only [add_mul, Finset.sum_add_distrib] at hreduced
  rw [objective_ofFn, sum_limits z v]
  linarith

end Problem

/-- Multipliers of the constraints whose combination, up to a tolerance, has no negative entry but
a negative limit. -/
structure Problem.FarkasRow (p : Problem ℚ) (tol : ℚ) (w : Fin p.numRows → ℚ) : Prop where
  multipliers : ∀ k, -tol ≤ w k
  columns : ∀ j, -tol ≤ ∑ k, w k * p.coef k j
  limits : ∑ k, w k * p.limit k < -tol

namespace Problem.FarkasRow

variable {p : Problem ℚ} {tol : ℚ} {w : Fin p.numRows → ℚ}

theorem one_lt_sum (h : p.FarkasRow tol w) (htol : 0 < tol) (hp : p.Valid)
    {v : Fin p.numVars → ℚ} (hv : p.Feasible (List.ofFn v)) :
    1 < ∑ j, v j + ∑ k, (p.limit k - ∑ j, p.coef k j * v j) := by
  obtain ⟨hrow, hnonneg⟩ := (feasible_ofFn hp v).1 hv
  have hdecision : -tol * ∑ j, v j ≤ ∑ j, (∑ k, w k * p.coef k j) * v j := by
    rw [Finset.mul_sum]
    exact Finset.sum_le_sum fun j _ => mul_le_mul_of_nonneg_right (h.columns j) (hnonneg j)
  have hslack : -tol * ∑ k, (p.limit k - ∑ j, p.coef k j * v j) ≤
      ∑ k, w k * (p.limit k - ∑ j, p.coef k j * v j) := by
    rw [Finset.mul_sum]
    exact Finset.sum_le_sum fun k _ =>
      mul_le_mul_of_nonneg_right (h.multipliers k) (sub_nonneg.2 (hrow k))
  have hlimits := h.limits
  rw [sum_limits w v] at hlimits
  have hsum : tol * 1 < tol * (∑ j, v j + ∑ k, (p.limit k - ∑ j, p.coef k j * v j)) := by linarith
  exact lt_of_mul_lt_mul_left hsum htol.le

theorem infeasible (h : p.FarkasRow tol w) (htol : 0 ≤ tol) (hp : p.Valid) (hw : ∀ k, 0 ≤ w k)
    (hcolumns : ∀ j, 0 ≤ ∑ k, w k * p.coef k j) (y : List ℚ) : ¬ p.Feasible y := by
  intro hy
  obtain ⟨v, rfl⟩ := exists_ofFn hy.1
  obtain ⟨hrow, hnonneg⟩ := (feasible_ofFn hp v).1 hy
  have hdecision : 0 ≤ ∑ j, (∑ k, w k * p.coef k j) * v j :=
    Finset.sum_nonneg fun j _ => mul_nonneg (hcolumns j) (hnonneg j)
  have hslack : 0 ≤ ∑ k, w k * (p.limit k - ∑ j, p.coef k j * v j) :=
    Finset.sum_nonneg fun k _ => mul_nonneg (hw k) (sub_nonneg.2 (hrow k))
  have hlimits := h.limits
  rw [sum_limits w v] at hlimits
  linarith

end Problem.FarkasRow

theorem Tableau.Reachable.farkasRow {p : Problem ℚ} {t : Tableau ℚ p.numVars p.numRows}
    (hp : p.Valid) (ht : Reachable p t) {r : Fin p.numRows} {tol : ℚ}
    (hrhs : t.rhs r.castSucc < -tol)
    (hrow : ∀ j : Fin (p.numVars + p.numRows), -tol ≤ t.get r.castSucc j.castSucc) :
    p.FarkasRow tol fun k => t.get r.castSucc (slackCol k) where
  multipliers k := hrow (Fin.natAdd p.numVars k)
  columns j := (hrow (Fin.castAdd p.numRows j)).trans_eq (ht.get_eq hp r j)
  limits := (ht.rhs_eq hp r).symm.trans_lt hrhs

namespace LpRun

variable {n m cap : Nat} {t : Tableau ℚ n m}

theorem final_unbounded (h : (ofTableau cap t).status = .unbounded) :
    ofTableau cap t = ⟨firstPhase cap t, .idle (firstPhase cap t).final, .unbounded⟩ ∧
      ∃ k : Fin (n + m), (firstPhase cap t).final.primalStep = .blocked k ∧
        (firstPhase cap t).final.reducedCost k.castSucc < -Tolerance.ratio ∧
        ∀ i : Fin m, (firstPhase cap t).final.get i.castSucc k.castSucc ≤ Tolerance.ratio := by
  cases he : (firstPhase cap t).ending with
  | goal =>
    rw [ofTableau_goal he] at h
    cases hd : (Phase.run Tableau.dualStep cap (firstPhase cap t).final).ending <;>
      simp [dualStatus, hd] at h
  | capped => simp [ofTableau_eq, he] at h
  | blocked line =>
    refine ⟨by simp [ofTableau_eq, he], ?_⟩
    by_cases hd : t.isDualFeasible = true
    · simp [firstPhase, hd, Phase.idle] at he
    · rw [firstPhase, if_neg hd] at he ⊢
      rcases Tableau.primalStep_cases (Phase.run Tableau.primalStep cap t).final with
        ⟨hstep, _⟩ | hblocked | ⟨_, _, hstep, _⟩
      · simp [Phase.run_blocked he] at hstep
      · exact hblocked
      · simp [Phase.run_blocked he] at hstep

end LpRun

namespace Problem

variable {p : Problem ℚ} {settings : LpSettings}

theorem clean_solved (p : Problem ℚ) (settings : LpSettings) :
    (p.solved settings).Clean ↔ ∀ t ∈ (Tableau.slackBasis p).trail
      ((LpRun.ofTableau settings.maxPivots (Tableau.slackBasis p)).primal.pivots ++
        (LpRun.ofTableau settings.maxPivots (Tableau.slackBasis p)).dual.pivots), t.Clean :=
  Iff.rfl

/-- The column that stopped the primal phase is a ray of the problem. -/
theorem blocked_ray (hp : p.Valid) (hc : (p.solved settings).Clean)
    (h : (p.solved settings).result.status = .unbounded) :
    ∃ k : Fin (p.numVars + p.numRows), (p.solved settings).run.final.primalStep = .blocked k ∧
      p.ImprovingRay fun j =>
        (p.solved settings).run.final.direction k.castSucc (Tableau.decisionCol j) := by
  obtain ⟨hrun, k, hblocked, hcost, hcol⟩ := LpRun.final_unbounded h
  rw [clean_solved, hrun] at hc
  obtain ⟨hsound, hlast⟩ := firstPhase_sound hp hc
  have hsharp := hlast _ (Tableau.mem_trail_self _ _)
  have hfinal : (p.solved settings).run.final =
      (LpRun.firstPhase settings.maxPivots (Tableau.slackBasis p)).final :=
    congrArg LpRun.final hrun
  rw [hfinal]
  exact ⟨k, hblocked, hsound.1.improvingRay hp hsound.2
    (hcost.trans (neg_lt_zero.2 Tolerance.ratio_pos)) fun i => (hsharp.1 i _).nonpos (hcol i)⟩

theorem unbounded_ray (hp : p.Valid) (hc : (p.solved settings).Clean)
    (h : (p.solved settings).result.status = .unbounded) : ∃ d, p.ImprovingRay d := by
  obtain ⟨_, _, hray⟩ := blocked_ray hp hc h
  exact ⟨_, hray⟩

theorem unbounded_iff (hp : p.Valid) (hc : (p.solved settings).Clean) :
    (p.solved settings).result.status = .unbounded ↔
      (p.solved settings).result.status ≠ .pivotLimit ∧ ∃ d, p.ImprovingRay d := by
  constructor
  · intro h
    exact ⟨by simp [h], unbounded_ray hp hc h⟩
  · rintro ⟨hcap, d, hd⟩
    by_contra h
    obtain ⟨hsound, _, hcost⟩ := solved_dual hp hc (LpRun.firstPhase_of_status h hcap)
    exact hd.not_dualFeasible hp hsound.1 hcost

/-- A valid problem has an answer. If it is unbounded and the run clean, the column that stopped the
primal phase is a ray of the problem. From any feasible point it leads through feasible points only
and below every bound, so none is optimal. -/
theorem solve?_unbounded_ray (hp : p.Valid) (settings : LpSettings) :
    p.solve? settings = some (p.solved settings) ∧
    ((p.solved settings).Clean → (p.solved settings).result.status = .unbounded →
      ∃ (k : Fin (p.numVars + p.numRows)) (d : Fin p.numVars → ℚ),
        (p.solved settings).run.final.primalStep = .blocked k ∧
        (∀ j, d j =
          (p.solved settings).run.final.direction k.castSucc (Tableau.decisionCol j)) ∧
        p.ImprovingRay d ∧
        (∀ v, p.Feasible (List.ofFn v) →
          (∀ a, 0 ≤ a → p.Feasible (List.ofFn fun j => v j + a * d j)) ∧
          ∀ bound, ∃ a₀, 0 ≤ a₀ ∧
            ∀ a, a₀ ≤ a → p.objective (List.ofFn fun j => v j + a * d j) < bound) ∧
        ∀ y, p.Feasible y → ∃ z, p.Feasible z ∧ p.objective z < p.objective y) := by
  refine ⟨solve?_valid hp settings, fun hc h => ?_⟩
  obtain ⟨k, hblocked, hray⟩ := blocked_ray hp hc h
  refine ⟨k, _, hblocked, fun j => rfl, hray, fun v hv => ⟨fun a => hray.feasible_add hp hv, ?_⟩,
    fun y hy => hray.exists_lt hp hy _⟩
  exact hray.eventually_lt v

/-- Minimize `-x` subject to `x + y ≥ 2` and `x - y ≤ 1`. The basis that shows the ray is not
feasible. -/
def wedge : Problem ℚ := ⟨[-1, 0], [[-1, -1], [1, -1]], [-2, 1]⟩

theorem solve?_unbounded_ray_wedge :
    (wedge.solved {}).Clean ∧ (wedge.solved {}).result.status = .unbounded ∧
      (wedge.solved {}).result.pivots = ⟨1, 1, 0⟩ ∧ wedge.Feasible [2, 1] ∧
      ∀ y, wedge.Feasible y → ∃ z, wedge.Feasible z ∧ wedge.objective z < wedge.objective y := by
  have hrun : (wedge.solved {}).Clean ∧ (wedge.solved {}).result.status = .unbounded ∧
      (wedge.solved {}).result.pivots = ⟨1, 1, 0⟩ := by decide +kernel
  obtain ⟨_, _, _, _, _, _, hbetter⟩ :=
    (solve?_unbounded_ray (p := wedge) (by decide +kernel) {}).2 hrun.1 hrun.2.1
  exact ⟨hrun.1, hrun.2.1, hrun.2.2, by decide +kernel, hbetter⟩

/-- A valid problem has an answer. If it is infeasible, the slack entries of one row of the last
tableau combine the constraints into one that no point satisfies, up to the tolerance of the dual
phase: every point is then far out, and if the combination has no negative entry there is none. -/
theorem solve?_infeasible_farkas (hp : p.Valid) (settings : LpSettings) :
    p.solve? settings = some (p.solved settings) ∧
    ((p.solved settings).result.status = .infeasible →
      ∃ (r : Fin p.numRows) (w : Fin p.numRows → ℚ),
        (∀ k, w k = (p.solved settings).run.final.get r.castSucc (Tableau.slackCol k)) ∧
        p.FarkasRow (1 / 10 ^ 10) w ∧
        (∀ v, p.Feasible (List.ofFn v) →
          1 < ∑ j, v j + ∑ k, (p.limit k - ∑ j, p.coef k j * v j)) ∧
        ((∀ k, 0 ≤ w k) → (∀ j, 0 ≤ ∑ k, w k * p.coef k j) → ∀ y, ¬ p.Feasible y)) := by
  refine ⟨solve?_valid hp settings, fun h => ?_⟩
  obtain ⟨_, r, hrhs, hrow⟩ := LpRun.final_infeasible h
  rw [Tolerance.pivot_rat] at hrhs hrow
  have hfarkas := (reachable_final p settings).farkasRow hp hrhs hrow
  exact ⟨r, _, fun k => rfl, hfarkas, fun v => hfarkas.one_lt_sum (by norm_num) hp,
    hfarkas.infeasible (by norm_num) hp⟩

def overdrawn : Problem ℚ := ⟨[1, 1], [[1, 0], [0, 1], [-1, -1]], [1, 3, -5]⟩

theorem solve?_infeasible_farkas_overdrawn :
    (overdrawn.solved {}).result.status = .infeasible ∧
      (overdrawn.solved {}).result.pivots = ⟨2, 0, 2⟩ ∧
      ∃ w, overdrawn.FarkasRow (1 / 10 ^ 10) w := by
  have hrun : (overdrawn.solved {}).result.status = .infeasible ∧
      (overdrawn.solved {}).result.pivots = ⟨2, 0, 2⟩ := by decide +kernel
  obtain ⟨_, w, _, hw, _⟩ :=
    (solve?_infeasible_farkas (p := overdrawn) (by decide +kernel) {}).2 hrun.1
  exact ⟨hrun.1, hrun.2, w, hw⟩

end Problem

end IntegerPrograms
