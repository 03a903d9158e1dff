import Mathlib
import IntegerPrograms.Outcome
import IntegerPrograms.Proofs.Search.Accounts
import IntegerPrograms.Proofs.Search.Exactness

set_option autoImplicit false

namespace IntegerPrograms

variable {α β : Type}

namespace SearchRun

def MetUnbounded (run : SearchRun α β) : Prop := ∃ v ∈ run.visits, v.verdict.status = .unbounded

/-- The run was cut short with nodes open, and has met neither a whole point nor anything
unbounded. -/
structure Hollow (run : SearchRun α β) : Prop where
  bounded : ¬ run.MetUnbounded
  stopped : run.final.frontier.nodes ≠ []
  pointless : run.solution.incumbent.x = []

/-- The run has met something unbounded beside a whole point. -/
structure Withheld (run : SearchRun α β) : Prop where
  unbounded : run.MetUnbounded
  point : run.solution.incumbent.x ≠ []

end SearchRun

structure Promises (run : SearchRun α β) (reported : Option (Extended α)) : Prop where
  stored : run.solution.incumbent.x ≠ [] ↔ run.solution.incumbent.best.isSome = true
  promised : run.solution.status.hasSolution = true ↔ ¬ run.MetUnbounded ∧
    (run.final.frontier.nodes ≠ [] ∨ run.solution.incumbent.x ≠ [])
  kept_iff : (run.solution.status.hasSolution = true ↔ run.solution.incumbent.x ≠ []) ↔
    ¬ run.Hollow ∧ ¬ run.Withheld
  reported_iff : reported.isSome = true ↔ run.solution.status.hasSolution = true
  infinite_iff : reported = some .infinity ↔ run.Hollow

theorem Outcome.isSome_searchObjective? (s : Solution α) :
    (searchObjective? s).isSome = s.status.hasSolution := by
  unfold searchObjective?
  split <;> simp [*]

theorem Incumbent.objective_eq_infinity_iff (inc : Incumbent α) :
    inc.objective = .infinity ↔ inc.best = none := by
  unfold objective
  cases inc.best <;> simp

namespace SearchTree

theorem hasSolution_status_iff {ν : Type} (t : SearchTree α ν) :
    t.status.hasSolution = true ↔
      t.sawUnbounded = false ∧ (t.frontier.nodes ≠ [] ∨ t.incumbent.best ≠ none) := by
  rw [status, exhausted, interrupted, Frontier.isEmpty]
  cases t.sawUnbounded <;> cases t.frontier.nodes <;> cases t.incumbent.best <;>
    simp [SearchStatus.hasSolution]

end SearchTree

namespace Search

variable [Scalar α] {s : Search α β} {run : SearchRun α β}

theorem promised_iff (hs : s.Lawful) (hrun : s.run? = some run) :
    run.solution.status.hasSolution = true ↔ ¬ run.MetUnbounded ∧
      (run.final.frontier.nodes ≠ [] ∨ run.solution.incumbent.x ≠ []) := by
  have hx : run.solution.incumbent.x = [] ↔ run.final.incumbent.best = none := x_eq_nil_iff hs hrun
  have hsaw : run.final.sawUnbounded = true ↔ run.MetUnbounded := sawUnbounded_iff hrun
  refine run.final.hasSolution_status_iff.trans ?_
  rw [← hsaw, Bool.not_eq_true]
  exact and_congr_right fun _ => or_congr_right hx.not.symm

theorem hollow_iff (hs : s.Lawful) (hrun : s.run? = some run) :
    run.Hollow ↔ run.solution.status.hasSolution = true ∧ run.solution.incumbent.x = [] := by
  rw [promised_iff hs hrun]
  constructor
  · rintro ⟨hbounded, hopen, hnil⟩
    exact ⟨⟨hbounded, .inl hopen⟩, hnil⟩
  · rintro ⟨⟨hbounded, hopen | hpoint⟩, hnil⟩
    · exact ⟨hbounded, hopen, hnil⟩
    · exact absurd hnil hpoint

theorem withheld_iff (hs : s.Lawful) (hrun : s.run? = some run) :
    run.Withheld ↔ ¬ run.solution.status.hasSolution = true ∧ run.solution.incumbent.x ≠ [] := by
  rw [promised_iff hs hrun]
  constructor
  · rintro ⟨hunbounded, hpoint⟩
    exact ⟨fun h => h.1 hunbounded, hpoint⟩
  · rintro ⟨hno, hpoint⟩
    exact ⟨by_contra fun hbounded => hno ⟨hbounded, .inr hpoint⟩, hpoint⟩

theorem promises (hs : s.Lawful) (hrun : s.run? = some run) :
    Promises run (Outcome.searchObjective? run.solution) := by
  have hx : run.solution.incumbent.x = [] ↔ run.solution.incumbent.best = none :=
    x_eq_nil_iff hs hrun
  refine ⟨?_, promised_iff hs hrun, ?_, by rw [Outcome.isSome_searchObjective?], ?_⟩
  · rw [Ne, hx, ← Ne, Option.ne_none_iff_isSome]
  · rw [hollow_iff hs hrun, withheld_iff hs hrun]
    tauto
  · rw [hollow_iff hs hrun, hx, ← Incumbent.objective_eq_infinity_iff, Outcome.searchObjective?]
    split <;> simp [*]

end Search

/-- A status keeps its promise of a point in all runs but two kinds: those that were cut short
before they met a point, which report infinity for it, and those that met a point and something
unbounded. -/
theorem searches_promise [Scalar α] (p : MixedProblem α) (settings : SearchSettings α) :
    (∃ run, (branchAndBound p settings).run? = some run ∧
      Promises run (Outcome.branchAndBound (branchAndBound p settings) run).objective?) ∧
    ∃ run, (branchAndCut p settings).run? = some run ∧
      Promises run (Outcome.branchAndCut (branchAndCut p settings) run).objective? := by
  have hbound := Search.lawful_branchAndBound p settings
  have hcut := Search.lawful_branchAndCut p settings
  obtain ⟨run, hrun⟩ := Search.exists_run hbound
  obtain ⟨run', hrun'⟩ := Search.exists_run hcut
  exact ⟨⟨run, hrun, Search.promises hbound hrun⟩, run', hrun', Search.promises hcut hrun'⟩

/-- Minimize `-x - y` over whole `x`, `y`, where one child of the root looks unbounded to the
tolerance of the ratio test. -/
def slanted : MixedProblem ℚ :=
  { workshop with
    lp := ⟨[-1, -1], [[1, 1 / 2000000000], [-2, 1 / 1000000000]], [7, 0]⟩
    valid := by decide +kernel
    integers_lt := workshop.integers_lt }

theorem promises_broken :
    (∃ run, (branchAndBound workshop { maxNodes := 1 }).run? = some run ∧
      run.solution.status.hasSolution = true ∧ run.solution.incumbent.x = [] ∧
      (Outcome.branchAndBound (branchAndBound workshop { maxNodes := 1 }) run).objective? =
        some .infinity) ∧
    (∃ run, (branchAndCut workshop { maxNodes := 1, maxCuts := 0 }).run? = some run ∧
      run.solution.status.hasSolution = true ∧ run.solution.incumbent.x = []) ∧
    ∃ run, (branchAndBound slanted {}).run? = some run ∧
      run.solution.status.hasSolution = false ∧ run.solution.incumbent.x ≠ [] := by
  have hshort : (branchAndBound workshop { maxNodes := 1 }).run?.any (fun run =>
      decide (run.solution.status.hasSolution = true ∧ run.solution.incumbent.x = [] ∧
        Outcome.searchObjective? run.solution = some .infinity)) = true := by decide +kernel
  have hshort' : (branchAndCut workshop { maxNodes := 1, maxCuts := 0 }).run?.any (fun run =>
      decide (run.solution.status.hasSolution = true ∧ run.solution.incumbent.x = [])) = true := by
    decide +kernel
  have hbeside : (branchAndBound slanted {}).run?.any (fun run =>
      decide (run.solution.status.hasSolution = false ∧ run.solution.incumbent.x ≠ [])) = true := by
    decide +kernel
  simp only [Option.any_eq_true, decide_eq_true_eq] at hshort hshort' hbeside
  exact ⟨hshort, hshort', hbeside⟩

end IntegerPrograms
