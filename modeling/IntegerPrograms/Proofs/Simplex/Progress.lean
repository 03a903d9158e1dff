import Mathlib
import IntegerPrograms.Proofs.Simplex.Cycling

set_option autoImplicit false

namespace IntegerPrograms

namespace Tableau

variable {n m : Nat} {t : Tableau ℚ n m} {r : Fin m} {k : Fin (n + m)}

theorem Clean.objective_pivot (hc : t.Clean) (r : Fin m) (k : Fin (n + m)) :
    (t.pivot r k.castSucc).objective = t.objective +
      t.reducedCost k.castSucc * (t.rhs r.castSucc / t.get r.castSucc k.castSucc) := by
  rw [objective, rhs, get_pivot_ne t r _ _ (Fin.castSucc_ne_last r).symm, hc.eliminates k]
  simp only [objective, rhs, reducedCost]
  ring

theorem ratio_nonneg_primal (hrhs : ∀ i : Fin m, 0 ≤ t.rhs i.castSucc)
    (h : t.primalStep = .pivot r k) : 0 ≤ t.rhs r.castSucc / t.get r.castSucc k.castSucc :=
  div_nonneg (hrhs r) (Tolerance.ratio_pos.trans (primalStep_pivot h).2.1).le

theorem Clean.rhs_primal (hc : t.Clean) (hrhs : ∀ i : Fin m, 0 ≤ t.rhs i.castSucc)
    (h : t.primalStep = .pivot r k) (i : Fin m) : 0 ≤ (t.pivot r k.castSucc).rhs i.castSucc := by
  have hquot := ratio_nonneg_primal hrhs h
  by_cases hi : i = r
  · rw [hi, rhs, get_pivot_self]
    exact hquot
  · rw [rhs, get_pivot_ne t r _ _ (fun he => hi (Fin.castSucc_injective m he)), hc.eliminates k]
    change 0 ≤ t.rhs i.castSucc - t.get i.castSucc k.castSucc *
      (t.rhs r.castSucc / t.get r.castSucc k.castSucc)
    by_cases hlarge : Tolerance.ratio < t.get i.castSucc k.castSucc
    · have hle := (primalStep_pivot h).2.2 i hlarge
      rw [le_div_iff₀ (Tolerance.ratio_pos.trans hlarge)] at hle
      linarith
    · -- Where the entry is not positive, entering the column takes nothing from the row.
      have hentry := (hc.1 i k.castSucc).nonpos (not_lt.1 hlarge)
      linarith [hrhs i, mul_nonpos_of_nonpos_of_nonneg hentry hquot]

theorem Clean.objective_primal (hc : t.Clean) (hrhs : ∀ i : Fin m, 0 ≤ t.rhs i.castSucc)
    (h : t.primalStep = .pivot r k) : (t.pivot r k.castSucc).objective ≤ t.objective := by
  have hcost : t.reducedCost k.castSucc ≤ 0 :=
    ((primalStep_pivot h).1.trans (neg_lt_zero.2 Tolerance.ratio_pos)).le
  rw [hc.objective_pivot]
  linarith [mul_nonpos_of_nonpos_of_nonneg hcost (ratio_nonneg_primal hrhs h)]

theorem Clean.objective_dual (hc : t.Clean)
    (hcost : ∀ j : Fin (n + m), 0 ≤ t.reducedCost j.castSucc) (h : t.dualStep = .pivot r k) :
    t.objective ≤ (t.pivot r k.castSucc).objective := by
  obtain ⟨hrhs, hneg, _⟩ := dualStep_pivot h
  have hquot : 0 ≤ t.rhs r.castSucc / t.get r.castSucc k.castSucc :=
    div_nonneg_of_nonpos (by linarith [Tolerance.pivot_pos]) (by linarith [Tolerance.pivot_pos])
  rw [hc.objective_pivot]
  linarith [mul_nonneg (hcost k) hquot]

theorem dualStep_of_rhs (hrhs : ∀ i : Fin m, 0 ≤ t.rhs i.castSucc) : t.dualStep = .goal := by
  rcases t.dualStep_cases with ⟨hgoal, _⟩ | ⟨r, _, hr, _⟩ | ⟨r, _, _, hr, _⟩
  · exact hgoal
  · linarith [hrhs r, Tolerance.pivot_pos]
  · linarith [hrhs r, Tolerance.pivot_pos]

end Tableau

namespace Phase

variable {α : Type} [Scalar α] {n m : Nat} {rule : Tableau α n m → Tableau.Step n m}

/-- If each pivot of a phase keeps an invariant and moves a quantity by a transitive relation, then
the quantity moves so between any two tableaux of the phase. The pivots may count on a condition `C`
on the tableaux. -/
theorem trail_monotone {β : Type} {C I : Tableau α n m → Prop} {R : β → β → Prop} [IsTrans β R]
    (f : Tableau α n m → β)
    (hstep : ∀ u r k, C u → I u → rule u = .pivot r k →
      I (u.pivot r k.castSucc) ∧ R (f u) (f (u.pivot r k.castSucc)))
    (cap : Nat) (t : Tableau α n m) (hC : ∀ u ∈ t.trail (run rule cap t).pivots, C u) (hI : I t) :
    (∀ u ∈ t.trail (run rule cap t).pivots, I u) ∧
      ((t.trail (run rule cap t).pivots).map f).Pairwise R := by
  have hall := trail_induction (fun u r k hc hi h => (hstep u r k hc hi h).1) cap t hC hI
  refine ⟨hall, ?_⟩
  rw [← List.isChain_iff_pairwise, List.isChain_map]
  refine (isChain_trail_run rule cap t).imp_of_mem_imp ?_
  rintro u _ hu _ ⟨r, k, hpivot, rfl⟩
  exact (hstep u r k (hC u hu) (hall u hu) hpivot).2

end Phase

namespace Problem

variable {p : Problem ℚ} {settings : LpSettings}

open LpRun

theorem clean_tableaux (hc : (p.solved settings).Clean) :
    (∀ t ∈ (p.solved settings).primalTableaux, t.Clean) ∧
      ∀ t ∈ (p.solved settings).dualTableaux, t.Clean :=
  (forall_trail_iff settings.maxPivots (Tableau.slackBasis p) _).1 hc

theorem dualTableaux_rise (hc : (p.solved settings).Clean)
    (hgoal : (p.solved settings).run.primal.ending = .goal) :
    (∀ t ∈ (p.solved settings).dualTableaux, ∀ j : Fin (p.numVars + p.numRows),
        0 ≤ t.reducedCost j.castSucc) ∧
      ((p.solved settings).dualTableaux.map Tableau.objective).Pairwise (· ≤ ·) := by
  have hclean := (clean_tableaux hc).2
  change (ofTableau settings.maxPivots (Tableau.slackBasis p)).primal.ending = _ at hgoal
  rw [primal_ofTableau] at hgoal
  have hrun : (p.solved settings).run = _ := ofTableau_goal hgoal
  rw [Solved.dualTableaux, hrun] at hclean ⊢
  have hfirst := reducedCost_firstPhase hgoal (hclean _ (Tableau.mem_trail_self _ _))
  exact Phase.trail_monotone Tableau.objective
    (fun u r k hcu hu h => ⟨hcu.reducedCost_dual hu h, hcu.objective_dual hu h⟩) _ _ hclean hfirst

theorem primalTableaux_fall (hp : p.Valid) (hc : (p.solved settings).Clean)
    (hlimit : ∀ k, 0 ≤ p.limit k) :
    (∀ t ∈ (p.solved settings).primalTableaux, ∀ i : Fin p.numRows, 0 ≤ t.rhs i.castSucc) ∧
      ((p.solved settings).primalTableaux.map Tableau.objective).Pairwise (· ≥ ·) := by
  have hclean := (clean_tableaux hc).1
  have hfirst (i : Fin p.numRows) : 0 ≤ (Tableau.slackBasis p).rhs i.castSucc :=
    (hlimit i).trans_eq (Tableau.rhs_slackBasis hp i).symm
  have htableaux : (p.solved settings).primalTableaux = (Tableau.slackBasis p).trail
      (firstPhase settings.maxPivots (Tableau.slackBasis p)).pivots :=
    congrArg _ (congrArg _ (primal_ofTableau _ _))
  rw [htableaux, firstPhase] at hclean ⊢
  by_cases hd : (Tableau.slackBasis p).isDualFeasible = true
  · rw [if_pos hd]
    exact ⟨List.forall_mem_singleton.2 hfirst, List.pairwise_singleton _ _⟩
  · rw [if_neg hd] at hclean ⊢
    exact Phase.trail_monotone Tableau.objective
      (fun u r k hcu hu h => ⟨hcu.rhs_primal hu h, hcu.objective_primal hu h⟩) _ _ hclean hfirst

theorem dual_idle (hp : p.Valid) (hc : (p.solved settings).Clean) (hlimit : ∀ k, 0 ≤ p.limit k) :
    (p.solved settings).result.pivots.dual = 0 ∧
      (p.solved settings).result.status ≠ .infeasible := by
  have hfinal : ∀ i : Fin p.numRows,
      0 ≤ (firstPhase settings.maxPivots (Tableau.slackBasis p)).final.rhs i.castSucc := by
    have hall := (primalTableaux_fall hp hc hlimit).1
    change ∀ t ∈ (Tableau.slackBasis p).trail (ofTableau _ _).primal.pivots, _ at hall
    rw [← List.append_nil (Phase.pivots _), forall_trail_iff, primal_ofTableau] at hall
    exact hall.2 _ (Tableau.mem_trail_self _ _)
  change (ofTableau _ _).dual.pivots.length = 0 ∧ (ofTableau _ _).status ≠ _
  cases he : (firstPhase settings.maxPivots (Tableau.slackBasis p)).ending with
  | goal =>
    rw [ofTableau_goal he, Phase.run_of_goal (Tableau.dualStep_of_rhs hfinal)]
    simp [Phase.idle, dualStatus]
  | _ => simp [ofTableau_eq, he, Phase.idle]

theorem le_of_dual_pivot (hp : p.Valid) (hc : (p.solved settings).Clean)
    (hdual : 0 < (p.solved settings).result.pivots.dual) {y : List ℚ} (hy : p.Feasible y) :
    (p.solved settings).result.objective ≤ p.objective y := by
  rcases dual_ofTableau settings.maxPivots (Tableau.slackBasis p) with hidle | ⟨hgoal, _, _⟩
  · have hlen : (p.solved settings).result.pivots.dual = 0 :=
      congrArg (fun phase => phase.pivots.length) hidle
    omega
  · obtain ⟨hsound, _, hcost⟩ := solved_dual hp hc hgoal
    exact hsound.1.objective_le hp hcost hy

/-- On a clean run each phase keeps its own feasibility. The dual phase keeps every reduced cost
nonnegative and only raises the objective value, which after a pivot is a bound however the phase
ends, also when it is cut short. If no limit is negative, the primal phase keeps every right-hand
side nonnegative and only lowers the objective value, and it leaves the dual phase nothing to do. -/
theorem solve?_phases_monotone (hp : p.Valid) (settings : LpSettings) :
    ∃ s, p.solve? settings = some s ∧ (s.Clean →
      (s.run.primal.ending = .goal →
        (∀ t ∈ s.dualTableaux, ∀ j : Fin (s.problem.numVars + s.problem.numRows),
          0 ≤ t.reducedCost j.castSucc) ∧
        (s.dualTableaux.map Tableau.objective).Pairwise (· ≤ ·)) ∧
      (0 < s.result.pivots.dual → ∀ y, p.Feasible y → s.result.objective ≤ p.objective y) ∧
      ((∀ v ∈ p.b, 0 ≤ v) →
        (∀ t ∈ s.primalTableaux, ∀ i : Fin s.problem.numRows, 0 ≤ t.rhs i.castSucc) ∧
        (s.primalTableaux.map Tableau.objective).Pairwise (· ≥ ·) ∧
        s.result.pivots.dual = 0 ∧ s.result.status ≠ .infeasible)) := by
  refine ⟨p.solved settings, solve?_valid hp settings, fun hc => ⟨dualTableaux_rise hc, ?_, ?_⟩⟩
  · exact fun hdual y => le_of_dual_pivot hp hc hdual
  · intro hb
    have hlimit (k : Fin p.numRows) : 0 ≤ p.limit k := hb _ (List.get_mem p.b k)
    obtain ⟨hrhs, hfall⟩ := primalTableaux_fall hp hc hlimit
    exact ⟨hrhs, hfall, dual_idle hp hc hlimit⟩

def corner : Problem ℚ := ⟨[1, 1], [[-1, 0], [0, -1]], [-1, -2]⟩

theorem solve?_phases_monotone_corner :
    (∃ s, corner.solve? ⟨1, false⟩ = some s ∧ s.Clean ∧ s.result.status = .pivotLimit ∧
      s.result.pivots = ⟨1, 0, 1⟩ ∧ s.result.objective = 2 ∧ corner.Feasible [1, 2] ∧
      ∀ y, corner.Feasible y → 2 ≤ corner.objective y) ∧
    ∃ s, circling.solve? ⟨5, false⟩ = some s ∧ s.Clean ∧ s.result.pivots = ⟨5, 5, 0⟩ ∧
      (s.primalTableaux.map Tableau.objective).Pairwise (· ≥ ·) := by
  obtain ⟨s, hs, hs'⟩ := solve?_phases_monotone (p := corner) (by decide +kernel) ⟨1, false⟩
  obtain ⟨u, hu, hu'⟩ := solve?_phases_monotone (p := circling) (by decide +kernel) ⟨5, false⟩
  have hcut : (corner.solve? ⟨1, false⟩).any (fun s => decide (s.Clean ∧
      s.result.status = .pivotLimit ∧ s.result.pivots = ⟨1, 0, 1⟩ ∧ s.result.objective = 2)) =
      true := by decide +kernel
  have hround : (circling.solve? ⟨5, false⟩).any (fun s => decide (s.Clean ∧
      s.result.pivots = ⟨5, 5, 0⟩)) = true := by decide +kernel
  rw [hs, Option.any_some, decide_eq_true_eq] at hcut
  rw [hu, Option.any_some, decide_eq_true_eq] at hround
  obtain ⟨hc, hlimit, hpivots, hobjective⟩ := hcut
  have hbound := (hs' hc).2.1 (by simp [hpivots])
  rw [hobjective] at hbound
  exact ⟨⟨s, hs, hc, hlimit, hpivots, hobjective, by decide +kernel, hbound⟩,
    u, hu, hround.1, hround.2, ((hu' hround.1).2.2 (by decide +kernel)).2.1⟩

end Problem

end IntegerPrograms
