import Mathlib
import IntegerPrograms.Proofs.Comparison
import IntegerPrograms.Proofs.Simplex.Optimality
import IntegerPrograms.Proofs.Simplex.Pivoting

set_option autoImplicit false

namespace IntegerPrograms

namespace Tableau

variable {p : Problem ℚ} {t : Tableau ℚ p.numVars p.numRows}

theorem Swept.sound (hp : p.Valid) (ht : Swept p t) : Sound p t :=
  ⟨ht.reachable, ht.canonical hp⟩

theorem Sound.extract? (h : Sound p t) {status : LpStatus} (hs : status.hasSolution = true)
    (pivots : PivotCount) :
    t.extract? status pivots = some ⟨status, List.ofFn fun j => t.value (decisionCol j),
      List.ofFn fun k => t.value (slackCol k), List.ofFn fun k => t.reducedCost (slackCol k),
      t.objective, pivots⟩ := by
  have hproper : t.basisProper = true :=
    List.all_eq_true.2 fun i _ => decide_eq_true (h.2.basic_lt i)
  rw [extract?_proper hproper, answer, hs]
  rfl

/-- The answer that a tableau stands for is consistent if no pivot that led to it skipped a nonzero
entry: the slacks are what the point leaves of the limits, the objective is the cost of the point,
and a constraint with a slack has no price. -/
theorem extract?_consistent (hp : p.Valid) (ht : Swept p t) {status : LpStatus}
    (hs : status = .optimal ∨ status = .pivotLimit) (pivots : PivotCount) :
    ∃ (x : Fin p.numVars → ℚ) (s z : Fin p.numRows → ℚ),
      t.extract? status pivots = some ⟨status, List.ofFn x, List.ofFn s, List.ofFn z,
        p.objective (List.ofFn x), pivots⟩ ∧
      (∀ k, s k = p.limit k - ∑ j, p.coef k j * x j) ∧ ∀ k, s k * z k = 0 := by
  have hsound := ht.sound hp
  have hsolution : status.hasSolution = true := by rcases hs with rfl | rfl <;> rfl
  refine ⟨_, _, _, ?_, hsound.slack_value hp, fun k => hsound.2.value_mul_reducedCost (slackCol k)⟩
  rw [← hsound.objective_value]
  exact hsound.extract? hsolution pivots

def ledge : Problem ℚ := ⟨[-1, -2], [[1, 1], [0, 1]], [4, 3]⟩

theorem extract?_consistent_ledge :
    ∃ t : Tableau ℚ ledge.numVars ledge.numRows, Swept ledge t ∧ t.isDualFeasible = false ∧
      ∃ (x : Fin ledge.numVars → ℚ) (s z : Fin ledge.numRows → ℚ),
        t.extract? .pivotLimit ⟨1, 1, 0⟩ = some ⟨.pivotLimit, List.ofFn x, List.ofFn s,
          List.ofFn z, ledge.objective (List.ofFn x), ⟨1, 1, 0⟩⟩ ∧
        List.ofFn x = [0, 3] ∧ List.ofFn s = [1, 0] ∧ List.ofFn z = [0, 2] ∧
        (∀ k, s k = ledge.limit k - ∑ j, ledge.coef k j * x j) ∧ ∀ k, s k * z k = 0 := by
  have ht : Swept ledge ((slackBasis ledge).pivot ⟨1, by decide⟩ ⟨1, by decide⟩) :=
    .pivot ⟨1, by decide⟩ ⟨1, by decide⟩ .start (by decide +kernel) (by decide +kernel)
  obtain ⟨x, s, z, hread, hslack, hprice⟩ :=
    extract?_consistent (by decide +kernel) ht (.inr rfl) ⟨1, 1, 0⟩
  have heval : (((slackBasis ledge).pivot ⟨1, by decide⟩ ⟨1, by decide⟩).extract? .pivotLimit
      ⟨1, 1, 0⟩).any (fun r => decide (r.x = [0, 3] ∧ r.s = [1, 0] ∧ r.z = [0, 2])) = true := by
    decide +kernel
  rw [hread, Option.any_some, decide_eq_true_eq] at heval
  obtain ⟨hx, hs, hz⟩ := heval
  exact ⟨_, ht, by decide +kernel, x, s, z, hread, hx, hs, hz, hslack, hprice⟩

end Tableau

section Limits

variable {α : Type} [Scalar α] {p : Problem α} {settings settings' : LpSettings}

namespace Problem

/-- A solve that ended of itself is the same under every larger limit, and an optimal one also under
every smaller limit that allows its pivots in each phase, be it to the last. -/
theorem solve?_eq_of_limits (hp : p.Valid) (hle : settings.maxPivots ≤ settings'.maxPivots) :
    ∃ s s', p.solve? settings = some s ∧ p.solve? settings' = some s' ∧
      (s.result.status ≠ .pivotLimit → s' = s) ∧
      (s'.result.status = .optimal → s'.result.pivots.primal ≤ settings.maxPivots →
        s'.result.pivots.dual ≤ settings.maxPivots → s = s') :=
  ⟨_, _, solve?_valid hp settings, solve?_valid hp settings', fun h => solved_eq_of_le h hle,
    solved_eq_of_optimal⟩

def shore : Problem Float := ⟨[-1, 2], [[1, 1], [0, -1]], [4, -1]⟩

theorem solve?_eq_of_limits_shore :
    ∃ s s', shore.solve? ⟨1, false⟩ = some s ∧ shore.solve? {} = some s' ∧
      s.result.status ≠ .pivotLimit ∧ s'.result.status = .optimal ∧
      s'.result.pivots = ⟨2, 1, 1⟩ ∧ s = s' := by
  have hle : (⟨1, false⟩ : LpSettings).maxPivots ≤ ({} : LpSettings).maxPivots := by decide
  obtain ⟨s, s', hs, hs', _, hsmaller⟩ :=
    solve?_eq_of_limits (p := shore) (by decide +kernel) hle
  have heval : (shore.solve? ⟨1, false⟩).any
      (fun s => decide (s.result.status ≠ .pivotLimit)) = true := by decide +kernel
  have heval' : (shore.solve? {}).any (fun s => decide (s.result.status = .optimal ∧
      s.result.pivots = ⟨2, 1, 1⟩)) = true := by decide +kernel
  rw [hs, Option.any_some, decide_eq_true_eq] at heval
  rw [hs', Option.any_some, decide_eq_true_eq] at heval'
  obtain ⟨hoptimal, hpivots⟩ := heval'
  exact ⟨s, s', hs, hs', heval, hoptimal, hpivots,
    hsmaller hoptimal (by simp [hpivots]) (by simp [hpivots])⟩

end Problem

end Limits

section Counters

/-- An answer to a problem of `n` variables and `m` constraints whose status and counters agree with
each other and with the limit. -/
structure LpResult.Coherent {α : Type} [Scalar α] (n m limit : Nat) (r : LpResult α) : Prop where
  status : r.status ≠ .notDualFeasible
  lengths : r.x.length = n ∧ r.s.length = m ∧ r.z.length = m
  total : r.pivots.total = r.pivots.primal + r.pivots.dual
  primal_le : r.pivots.primal ≤ limit
  dual_le : r.pivots.dual ≤ limit
  unbounded : r.status = .unbounded → r.pivots.dual = 0 ∧ r.pivots.primal < limit
  infeasible : r.status = .infeasible → r.pivots.dual < limit
  pivotLimit : r.status = .pivotLimit →
    r.pivots.primal = limit ∧ r.pivots.dual = 0 ∨ r.pivots.dual = limit
  zero : r.status = .infeasible ∨ r.status = .unbounded →
    (∀ v ∈ r.x, v = 0) ∧ ∀ v ∈ r.s, v = 0

variable {α : Type} [Scalar α] {n m : Nat}

theorem Tableau.answer_zero (t : Tableau α n m) {status : LpStatus}
    (h : status.hasSolution = false) (pivots : PivotCount) :
    (∀ v ∈ (t.answer status pivots).x, v = 0) ∧ ∀ v ∈ (t.answer status pivots).s, v = 0 := by
  simp [answer, h]

theorem Problem.coherent_solved [Tolerance.Graded α] (p : Problem α) (settings : LpSettings) :
    (p.solved settings).result.Coherent p.numVars p.numRows settings.maxPivots where
  status := LpRun.status_ne_notDualFeasible _ _
  lengths := ⟨List.length_ofFn, List.length_ofFn, List.length_ofFn⟩
  total := rfl
  primal_le := LpRun.length_primal_le _ _
  dual_le := LpRun.length_dual_le _ _
  unbounded := LpRun.pivots_of_unbounded
  infeasible := LpRun.pivots_of_infeasible
  pivotLimit := LpRun.pivots_of_pivotLimit
  zero := by
    intro h
    refine Tableau.answer_zero _ ?_ _
    change (p.solved settings).result.status.hasSolution = false
    rcases h with h | h <;> rw [h] <;> rfl

instance : Tolerance.Graded Float where
  not_lt := by
    intro v hlow hlt
    obtain ⟨hpivot, hv, hle⟩ := le_iff_rank.1 hlow
    have hratio : (-Tolerance.ratio : Float).isNaN = false := by decide +kernel
    have hranks := hle.trans_lt ((lt_iff_rank hv hratio).1 hlt)
    exact absurd ((lt_iff_rank hpivot hratio).2 hranks) (by decide +kernel)

namespace Problem

/-- In doubles, whatever overflows on the way, every solve of a valid problem ends with a coherent
answer. -/
theorem solve?_coherent {p : Problem Float} (hp : p.Valid) (settings : LpSettings) :
    ∃ s, p.solve? settings = some s ∧
      s.result.Coherent p.numVars p.numRows settings.maxPivots :=
  ⟨_, solve?_valid hp settings, p.coherent_solved settings⟩

/-- Entries so far apart that reduced costs overflow. -/
def overflowing : Problem Float := ⟨[1, -1e308], [[-1e308, 1], [1e-8, 1]], [-1, -1]⟩

theorem solve?_coherent_overflowing :
    ∃ s, overflowing.solve? {} = some s ∧ s.result.status = .unbounded ∧
      s.result.pivots = ⟨2, 2, 0⟩ ∧ s.result.objective.isNaN = true ∧
      s.result.Coherent 2 2 1000 := by
  obtain ⟨s, hs, hcoherent⟩ := solve?_coherent (p := overflowing) (by decide +kernel) {}
  have heval : (overflowing.solve? {}).any (fun s => decide (s.result.status = .unbounded ∧
      s.result.pivots = ⟨2, 2, 0⟩ ∧ s.result.objective.isNaN = true)) = true := by decide +kernel
  rw [hs, Option.any_some, decide_eq_true_eq] at heval
  obtain ⟨hstatus, hpivots, hnan⟩ := heval
  exact ⟨s, hs, hstatus, hpivots, hnan, hcoherent⟩

end Problem

end Counters

end IntegerPrograms
