import Mathlib
import IntegerPrograms.Outcome
import IntegerPrograms.Proofs.Simplex.Optimality

set_option autoImplicit false

namespace IntegerPrograms

theorem Scalar.dot_map_neg (l r : List ℚ) : Scalar.dot (l.map (-·)) r = -Scalar.dot l r := by
  induction l generalizing r with
  | nil => rw [List.map_nil, dot_nil_left, neg_zero]
  | cons a l ih =>
    cases r with
    | nil => rw [dot_nil_right, dot_nil_right, neg_zero]
    | cons b r =>
      rw [List.map_cons, dot_cons, dot_cons, ih]
      ring

namespace ProblemFile

def stated {α : Type} (f : ProblemFile α) : Problem α := ⟨f.c, f.A, f.b⟩

theorem eq_of_toProblem {α : Type} [Scalar α] {f : ProblemFile α} {p : Problem α}
    (hf : f.toProblem = .ok p) : p = ⟨f.costs, f.A, f.b⟩ ∧ p.Valid := by
  rw [toProblem, Problem.ofData] at hf
  split at hf
  · cases hf
  next hnone =>
    cases hf
    exact ⟨rfl, hnone⟩

variable {f : ProblemFile ℚ} {p : Problem ℚ}

theorem feasible_iff_stated (hf : f.toProblem = .ok p) (y : List ℚ) :
    p.Feasible y ↔ f.stated.Feasible y := by
  have hvars : f.costs.length = f.c.length := by
    rw [costs]
    split
    · exact List.length_map _
    · rfl
  obtain ⟨rfl, _⟩ := eq_of_toProblem hf
  simp only [Problem.Feasible, Problem.numVars, Problem.excesses, stated, hvars]

theorem report_objective (hf : f.toProblem = .ok p) (y : List ℚ) :
    f.report (p.objective y) = f.stated.objective y := by
  obtain ⟨rfl, _⟩ := eq_of_toProblem hf
  simp only [Problem.objective, stated, report, costs]
  split
  · rw [Scalar.dot_map_neg, neg_neg]
  · rfl

/-- The report turns a bound around exactly if the file maximizes. -/
theorem report_le_report (f : ProblemFile ℚ) {v w : ℚ} (h : v ≤ w) :
    (f.maximize = true → f.report w ≤ f.report v) ∧
      (f.maximize = false → f.report v ≤ f.report w) := by
  refine ⟨fun hmax => ?_, fun hmin => ?_⟩
  · rw [report, report, if_pos hmax, if_pos hmax]
    exact neg_le_neg h
  · rw [report, report, if_neg (by simp [hmin]), if_neg (by simp [hmin])]
    exact h

theorem solveBy_lp (hf : f.toProblem = .ok p) (settings : SearchSettings ℚ) :
    f.solveBy .lp settings = .ok (.lp settings.lp (p.solved settings.lp)) := by
  rw [solveBy, hf]
  change (Problem.orMisshapen (p.solve? settings.lp) >>= fun solved =>
    Except.ok (Outcome.lp settings.lp solved)) = _
  rw [Problem.solve?_valid (eq_of_toProblem hf).2]
  rfl

/-- The linear relaxation of a file that holds a problem is always answered, with an objective value
only if it is optimal. On a clean run the value that is then reported is the file's own objective
value of the point, and no point of the file has a better one. -/
theorem solveBy_lp_reports_best (hf : f.toProblem = .ok p) (settings : SearchSettings ℚ) :
    ∃ solved, f.solveBy .lp settings = .ok (.lp settings.lp solved) ∧
      (solved.result.status ≠ .optimal →
        (Outcome.lp settings.lp solved).objective? = none) ∧
      (solved.Clean → solved.result.status = .optimal →
        f.stated.Feasible (Outcome.lp settings.lp solved).x ∧
        ∃ v, (Outcome.lp settings.lp solved).objective? = some (.value v) ∧
          f.report v = f.stated.objective (Outcome.lp settings.lp solved).x ∧
          ∀ y, f.stated.Feasible y →
            (f.maximize = true → f.stated.objective y ≤ f.report v) ∧
            (f.maximize = false → f.report v ≤ f.stated.objective y)) := by
  have hp := (eq_of_toProblem hf).2
  refine ⟨p.solved settings.lp, solveBy_lp hf settings, fun h => if_neg h, fun hc h => ?_⟩
  have hx := Problem.optimal_feasible hp hc h
  refine ⟨(feasible_iff_stated hf _).1 hx, _, if_pos h, ?_, fun y hy => ?_⟩
  · rw [Problem.optimal_objective hp hc h]
    exact report_objective hf _
  · have hle := Problem.optimal_le hp hc h ((feasible_iff_stated hf y).2 hy)
    rw [← report_objective hf y]
    exact f.report_le_report hle

def paints : ProblemFile ℚ :=
  { c := [5, 4], A := [[6, 4], [1, 2]], b := [24, 6], integers := [0, 1], maximize := true }

theorem solveBy_lp_reports_best_paints :
    ∃ solved, paints.solveBy .lp {} = .ok (.lp {} solved) ∧ solved.Clean ∧
      solved.result.objective = -21 ∧ paints.stated.objective solved.result.x = 21 ∧
      ∀ y, paints.stated.Feasible y → paints.stated.objective y ≤ 21 := by
  have hf : paints.toProblem = .ok ⟨[-5, -4], [[6, 4], [1, 2]], [24, 6]⟩ := by decide +kernel
  obtain ⟨solved, hsolved, _, hbest⟩ := solveBy_lp_reports_best hf {}
  have hrun : (paints.solveBy .lp {}).toOption.any (fun
      | .lp _ s => decide (s.Clean ∧ s.result.status = .optimal ∧ s.result.objective = -21)
      | _ => false) = true := by decide +kernel
  rw [hsolved, Except.toOption, Option.any_some, decide_eq_true_eq] at hrun
  obtain ⟨hc, ho, hobjective⟩ := hrun
  obtain ⟨_, v, hv, hreport, hall⟩ := hbest hc ho
  obtain rfl : solved.result.objective = v := by simpa [Outcome.objective?, ho] using hv
  have hvalue : paints.report solved.result.objective = 21 := by
    rw [hobjective]
    decide +kernel
  rw [hvalue] at hreport hall
  exact ⟨solved, hsolved, hc, hobjective, hreport.symm, fun y hy => (hall y hy).1 rfl⟩

end ProblemFile

end IntegerPrograms
