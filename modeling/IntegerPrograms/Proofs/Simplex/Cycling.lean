import Mathlib
import IntegerPrograms.Proofs.Simplex.Certificates
import IntegerPrograms.Proofs.Simplex.Pivoting

/-!
When the simplex method finishes. The tableaux of a clean run are determined by their bases, so a
phase that never comes back to a tableau ends within as many pivots as there are bases. A bounded
problem with a point is then solved, and it is left unsolved only by a phase that goes in circles:
the rules do nothing against that.
-/

set_option autoImplicit false

namespace IntegerPrograms

namespace Solved

variable {α : Type} [Scalar α]

def primalTableaux (s : Solved α) : List (Tableau α s.problem.numVars s.problem.numRows) :=
  (Tableau.slackBasis s.problem).trail s.run.primal.pivots

def dualTableaux (s : Solved α) : List (Tableau α s.problem.numVars s.problem.numRows) :=
  s.run.primal.final.trail s.run.dual.pivots

def Revisits (s : Solved α) : Prop := ¬ s.primalTableaux.Nodup ∨ ¬ s.dualTableaux.Nodup

end Solved

namespace LpRun

variable {α : Type} [Scalar α] {n m cap cap' : Nat} {t : Tableau α n m}

theorem pivotLimit_of_primal_repeat (h : ¬ (t.trail (ofTableau cap t).primal.pivots).Nodup)
    (cap' : Nat) : (ofTableau cap' t).status = .pivotLimit := by
  obtain ⟨rule, hrun⟩ := firstPhase_eq_run t
  rw [primal_ofTableau, hrun] at h
  have hend : (firstPhase cap' t).ending = .capped := by
    rw [hrun]
    exact Phase.capped_of_repeat h cap'
  simp [ofTableau_eq, hend]

theorem pivotLimit_of_dual_repeat
    (h : ¬ ((ofTableau cap t).primal.final.trail (ofTableau cap t).dual.pivots).Nodup)
    (hle : cap ≤ cap') : (ofTableau cap' t).status = .pivotLimit := by
  rw [primal_ofTableau] at h
  rcases dual_ofTableau cap t with hdual | ⟨hgoal, hnone, hdual⟩
  · rw [hdual] at h
    simp [Phase.idle, Tableau.trail] at h
  · rw [hdual] at h
    have hfirst : firstPhase cap' t = firstPhase cap t :=
      firstPhase_eq_of_le (by simp [hgoal]) hle
    simp [ofTableau_eq, hfirst, hgoal, afterPrimal, hnone, Phase.capped_of_repeat h cap',
      dualStatus]

theorem length_primal_trail (cap : Nat) (t : Tableau α n m) :
    (t.trail (ofTableau cap t).primal.pivots).length =
      (ofTableau cap t).primal.pivots.length + 1 := by
  obtain ⟨rule, hrun⟩ := firstPhase_eq_run t
  rw [primal_ofTableau, hrun]
  exact Phase.length_trail_run rule cap t

theorem length_dual_trail (cap : Nat) (t : Tableau α n m) :
    ((ofTableau cap t).primal.final.trail (ofTableau cap t).dual.pivots).length =
      (ofTableau cap t).dual.pivots.length + 1 := by
  rw [primal_ofTableau]
  rcases dual_ofTableau cap t with hdual | ⟨_, _, hdual⟩
  · rw [hdual]
    simp [Phase.idle, Tableau.trail]
  · rw [hdual]
    exact Phase.length_trail_run Tableau.dualStep cap _

end LpRun

namespace Tableau

instance {n m : Nat} : DecidableEq (Tableau ℚ n m) := fun t u =>
  decidable_of_iff (t.cells = u.cells ∧ t.basis = u.basis) (by
    cases t
    cases u
    simp)

variable {p : Problem ℚ} {t : Tableau ℚ p.numVars p.numRows}

def Sound.columns (h : Sound p t) : Fin p.numRows ↪ Fin (p.numVars + p.numRows) where
  toFun i := ⟨t.basic i, h.2.basic_lt i⟩
  inj' _ _ he := h.2.basic_injective (Fin.ext (Fin.mk.inj he))

theorem Sound.eq_of_columns {u : Tableau ℚ p.numVars p.numRows} (ht : Sound p t) (hu : Sound p u)
    (h : ht.columns = hu.columns) : t = u := by
  refine ht.2.eq_of_basic hu.2 (ht.1.equivalent.trans hu.1.equivalent.symm) ?_
  funext i
  exact Fin.ext (Fin.mk.inj (DFunLike.congr_fun h i))

theorem Sound.length_le {l : List (Tableau ℚ p.numVars p.numRows)} (hl : ∀ t ∈ l, Sound p t)
    (hnodup : l.Nodup) : l.length ≤ (p.numVars + p.numRows).descFactorial p.numRows := by
  have hinj : Function.Injective fun t : { t // t ∈ l } => (hl t.1 t.2).columns := by
    intro t u he
    exact Subtype.ext ((hl t.1 t.2).eq_of_columns (hl u.1 u.2) he)
  have hcard := ((List.nodup_attach.2 hnodup).map hinj).length_le_card
  rwa [List.length_map, List.length_attach, Fintype.card_embedding_eq, Fintype.card_fin,
    Fintype.card_fin] at hcard

end Tableau

namespace Problem

variable {p : Problem ℚ} {settings : LpSettings}

open Tableau in
theorem sound_tableaux (hp : p.Valid) (hc : (p.solved settings).Clean) :
    (∀ t ∈ (p.solved settings).primalTableaux, Sound p t) ∧
      ∀ t ∈ (p.solved settings).dualTableaux, Sound p t := by
  refine (LpRun.forall_trail_iff settings.maxPivots (slackBasis p) _).1 ?_
  exact LpRun.trail_induction (C := Clean) (fun _ _ _ hcu hu hstep => Sound.primal hu hcu hstep)
    (fun _ _ _ hcu hu hstep => Sound.dual hu hcu hstep) _ _ hc ⟨.start, canonical_slackBasis hp⟩

/-- With pivots enough for every basis, a clean solve is cut short only by going in circles. -/
theorem revisits_of_pivotLimit (hp : p.Valid) (hc : (p.solved settings).Clean)
    (hcap : (p.numVars + p.numRows).descFactorial p.numRows ≤ settings.maxPivots)
    (h : (p.solved settings).result.status = .pivotLimit) : (p.solved settings).Revisits := by
  obtain ⟨hprimal, hdual⟩ := sound_tableaux hp hc
  rcases LpRun.pivots_of_pivotLimit h with ⟨hlen, _⟩ | hlen
  · refine .inl fun hnodup => ?_
    have hall := LpRun.length_primal_trail settings.maxPivots (Tableau.slackBasis p)
    have hle := hall.symm.trans_le (Tableau.Sound.length_le (p := p) hprimal hnodup)
    omega
  · refine .inr fun hnodup => ?_
    have hall := LpRun.length_dual_trail settings.maxPivots (Tableau.slackBasis p)
    have hle := hall.symm.trans_le (Tableau.Sound.length_le (p := p) hdual hnodup)
    omega

theorem pivotLimit_of_revisits (h : (p.solved settings).Revisits) {settings' : LpSettings}
    (hle : settings.maxPivots ≤ settings'.maxPivots) :
    (p.solved settings').result.status = .pivotLimit := by
  rcases h with h | h
  · exact LpRun.pivotLimit_of_primal_repeat h _
  · exact LpRun.pivotLimit_of_dual_repeat h hle

def BoundedBelow (p : Problem ℚ) : Prop := ∃ bound, ∀ y, p.Feasible y → bound ≤ p.objective y

theorem optimal_or_pivotLimit (hp : p.Valid) (hfeasible : ∃ y, p.Feasible y)
    (hbounded : p.BoundedBelow) (hc : (p.solved settings).Clean) :
    (p.solved settings).result.status = .optimal ∨
      (p.solved settings).result.status = .pivotLimit := by
  obtain ⟨y, hy⟩ := hfeasible
  obtain ⟨bound, hbound⟩ := hbounded
  cases h : (p.solved settings).result.status with
  | optimal => exact .inl rfl
  | pivotLimit => exact .inr rfl
  | infeasible => exact absurd hy (infeasible_empty hp hc h y)
  | unbounded =>
    obtain ⟨d, hd⟩ := unbounded_ray hp hc h
    obtain ⟨z, hz, hlt⟩ := hd.exists_lt hp hy bound
    exact absurd (hbound z hz) (not_le.2 hlt)
  | notDualFeasible => exact absurd h (LpRun.status_ne_notDualFeasible _ _)

/-- A bounded problem with a point and clean tableaux is solved under every limit from some one on
if and only if no phase ever comes back to a tableau. As many pivots as there are ways to put columns
into the rows are then enough. -/
theorem solve?_optimal_iff_acyclic (hp : p.Valid) (hfeasible : ∃ y, p.Feasible y)
    (hbounded : p.BoundedBelow) (hclean : ∀ settings, (p.solved settings).Clean) :
    ((∃ K, ∀ settings : LpSettings, K ≤ settings.maxPivots →
        ∃ s, p.solve? settings = some s ∧ s.result.status = .optimal) ↔
      ∀ settings, ¬ (p.solved settings).Revisits) ∧
    ∀ settings : LpSettings,
      (p.numVars + p.numRows).descFactorial p.numRows ≤ settings.maxPivots →
      ¬ (p.solved settings).Revisits →
      ∃ s, p.solve? settings = some s ∧ s.result.status = .optimal := by
  have henough (settings : LpSettings)
      (hcap : (p.numVars + p.numRows).descFactorial p.numRows ≤ settings.maxPivots)
      (h : ¬ (p.solved settings).Revisits) :
      ∃ s, p.solve? settings = some s ∧ s.result.status = .optimal := by
    refine ⟨_, solve?_valid hp settings, ?_⟩
    refine (optimal_or_pivotLimit hp hfeasible hbounded (hclean settings)).resolve_right ?_
    exact fun hlimit => h (revisits_of_pivotLimit hp (hclean settings) hcap hlimit)
  refine ⟨⟨?_, fun h => ⟨_, fun settings hcap => henough settings hcap (h settings)⟩⟩, henough⟩
  rintro ⟨K, hK⟩ settings hrevisits
  obtain ⟨s, hs, hoptimal⟩ := hK ⟨max K settings.maxPivots, false⟩ (le_max_left ..)
  obtain rfl := Option.some.inj ((solve?_valid hp _).symm.trans hs)
  have hlimit : (p.solved ⟨max K settings.maxPivots, false⟩).result.status = .pivotLimit :=
    pivotLimit_of_revisits hrevisits (le_max_right ..)
  rw [hoptimal] at hlimit
  cases hlimit

theorem solve?_optimal_iff_acyclic_covering :
    covering.BoundedBelow ∧ (∀ settings, (covering.solved settings).Clean) ∧
      (∀ settings : LpSettings, 1 ≤ settings.maxPivots →
        ∃ s, covering.solve? settings = some s ∧ s.result.status = .optimal) ∧
      ∀ settings, ¬ (covering.solved settings).Revisits := by
  have hvalid : covering.Valid := by decide +kernel
  have hfeasible : covering.Feasible [3, 1] := by decide +kernel
  have hnone : (covering.solved ⟨0, false⟩).Clean := by decide +kernel
  have hone : (covering.solved ⟨1, false⟩).Clean ∧
      (covering.solved ⟨1, false⟩).result.status = .optimal := by decide +kernel
  have hmore (settings : LpSettings) (h : 1 ≤ settings.maxPivots) :
      covering.solved settings = covering.solved ⟨1, false⟩ :=
    solved_eq_of_le (by simp [hone.2]) h
  have hbounded : covering.BoundedBelow := ⟨_, fun _ => optimal_le hvalid hone.1 hone.2⟩
  have hclean (settings : LpSettings) : (covering.solved settings).Clean := by
    rcases Nat.eq_zero_or_pos settings.maxPivots with hzero | hpos
    · obtain ⟨cap, verbose⟩ := settings
      obtain rfl : cap = 0 := hzero
      exact hnone
    · rw [hmore settings hpos]
      exact hone.1
  have hsolved (settings : LpSettings) (h : 1 ≤ settings.maxPivots) :
      ∃ s, covering.solve? settings = some s ∧ s.result.status = .optimal :=
    ⟨_, solve?_valid hvalid settings, by rw [hmore settings h, hone.2]⟩
  exact ⟨hbounded, hclean, hsolved,
    (solve?_optimal_iff_acyclic hvalid ⟨_, hfeasible⟩ hbounded hclean).1.1 ⟨1, hsolved⟩⟩

/-- Minimize `-10 x₁ + 57 x₂ + 9 x₃ + 24 x₄` subject to `x₁ ≤ 1` and two constraints that meet in
the origin. The primal phase goes round six bases of the origin. -/
def circling : Problem ℚ :=
  ⟨[-10, 57, 9, 24], [[1 / 2, -11 / 2, -5 / 2, 9], [1 / 2, -3 / 2, -1 / 2, 1], [1, 0, 0, 0]],
    [0, 0, 1]⟩

def circle : List (Tableau ℚ circling.numVars circling.numRows) :=
  (circling.solved ⟨5, false⟩).primalTableaux

theorem circle_closed (u : Tableau ℚ circling.numVars circling.numRows) (hu : u ∈ circle) :
    u.Clean ∧ ∃ v, Phase.Follows Tableau.primalStep u v ∧ v ∈ circle := by
  have hall : circle.all (fun u => decide u.Clean && match u.primalStep with
      | .pivot r k => decide (u.pivot r k.castSucc ∈ circle)
      | _ => false) = true := by decide +kernel
  obtain ⟨hclean, hnext⟩ := Bool.and_eq_true_iff.1 (List.all_eq_true.1 hall u hu)
  refine ⟨of_decide_eq_true hclean, ?_⟩
  cases hstep : u.primalStep with
  | pivot r k =>
    rw [hstep] at hnext
    exact ⟨_, ⟨r, k, hstep, rfl⟩, of_decide_eq_true hnext⟩
  | _ => simp [hstep] at hnext

theorem circling_run (settings : LpSettings) :
    (circling.solved settings).Clean ∧
      (circling.solved settings).result.status = .pivotLimit := by
  have hstart : Tableau.slackBasis circling ∈ circle := Tableau.mem_trail_self _ _
  obtain ⟨hcapped, hcircle⟩ := Phase.capped_of_closed (S := (· ∈ circle))
    (fun u hu => (circle_closed u hu).2) hstart settings.maxPivots
  have hfirst : LpRun.firstPhase settings.maxPivots (Tableau.slackBasis circling) =
      Phase.run Tableau.primalStep settings.maxPivots (Tableau.slackBasis circling) :=
    if_neg (by decide +kernel)
  have hrun := LpRun.ofTableau_eq settings.maxPivots (Tableau.slackBasis circling)
  rw [hfirst, hcapped] at hrun
  refine ⟨?_, congrArg LpRun.status hrun⟩
  rw [clean_solved, hrun]
  intro u hu
  refine (circle_closed u (hcircle u ?_)).1
  rwa [← List.append_nil (Phase.pivots _)]

/-- The rules can go in circles: a bounded problem with a point and clean tableaux that no limit is
large enough for. -/
theorem circling_never_optimal :
    circling.Valid ∧ (∃ y, circling.Feasible y) ∧ circling.BoundedBelow ∧
      (∀ settings, (circling.solved settings).Clean) ∧
      ¬ ∃ K, ∀ settings : LpSettings, K ≤ settings.maxPivots →
        ∃ s, circling.solve? settings = some s ∧ s.result.status = .optimal := by
  have hvalid : circling.Valid := by decide +kernel
  have hbounded : circling.BoundedBelow :=
    ⟨_, fun _ => le_objective_of_prices hvalid (z := fun k => [0, 18, 1].getD k 0)
      (by decide +kernel) (by decide +kernel)⟩
  refine ⟨hvalid, ⟨[1, 0, 1, 0], by decide +kernel⟩, hbounded,
    fun settings => (circling_run settings).1, ?_⟩
  rintro ⟨K, hK⟩
  obtain ⟨s, hs, hoptimal⟩ := hK ⟨K, false⟩ le_rfl
  obtain rfl := Option.some.inj ((solve?_valid hvalid _).symm.trans hs)
  simp [(circling_run _).2] at hoptimal

end Problem

end IntegerPrograms
