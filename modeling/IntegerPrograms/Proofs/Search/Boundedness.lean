import Mathlib
import IntegerPrograms.Proofs.Search.Accounts
import IntegerPrograms.Proofs.Search.Descent

set_option autoImplicit false

namespace IntegerPrograms

variable {α β : Type}

namespace Search

section AnyArithmetic

variable [Scalar α] {s : Search α β} {run : SearchRun α β}

theorem best_eq_none (hrun : s.run? = some run)
    (hnone : ∀ v ∈ run.visits, v.verdict.status ≠ .integral) :
    run.final.incumbent.best = none := by
  refine explore?_induction (I := fun past t => (∀ v ∈ past, v.verdict.status ≠ .integral) →
    t.incumbent.best = none) ?_ [] hrun (fun _ => rfl) hnone
  intro past t node t' v hpop _ ih hpast
  simp only [List.forall_mem_append, List.forall_mem_singleton] at hpast
  rw [SearchTree.incumbent_afterVisit, (SearchTree.pop?_eq_some hpop).2.1]
  cases hv : v.verdict with
  | integral improves => exact absurd (by rw [hv]; rfl) hpast.2
  | _ => exact ih hpast.1

theorem unbounded_last (hs : s.Lawful) (hrun : s.run? = some run) :
    ∀ v ∈ run.visits, v.verdict.status = .unbounded → v.last.result.status = .unbounded :=
  forall_visits hs (fun _ _ _ _ _ hmove => (hmove.settled hs).judged.unbounded_iff.1) hrun

end AnyArithmetic

/-- What a search makes of unbounded relaxations. -/
structure DecidesAtRoot (s : Search ℚ β) (run : SearchRun ℚ β) : Prop where
  root : ∀ v ∈ run.visits, v.verdict.status = .unbounded → s.AtRoot v
  status_iff : run.solution.status = .unbounded ↔
    0 < s.settings.maxNodes ∧ (s.problem.lp.solved s.settings.lp).result.status = .unbounded
  alone : run.solution.status = .unbounded → run.solution.explored = 1 ∧
    run.solution.cutsAdded = 0 ∧ run.solution.incumbent.x = [] ∧
    run.solution.incumbent.objective = .infinity

variable {s : Search ℚ β} {run : SearchRun ℚ β}

theorem exists_unbounded (hrun : s.run? = some run) (h : run.solution.status = .unbounded) :
    ∃ v ∈ run.visits, v.verdict.status = .unbounded :=
  (sawUnbounded_iff hrun).1 ((SearchTree.status_eq_unbounded_iff run.final).1 h)

theorem AtRoot.alone (hrun : s.run? = some run) {v : Visit ℚ β} (hv : v ∈ run.visits)
    (h : s.AtRoot v) (hstatus : v.verdict.status = .unbounded) :
    run.solution.explored = 1 ∧ run.solution.cutsAdded = 0 ∧ run.solution.incumbent.x = [] ∧
      run.solution.incumbent.objective = .infinity := by
  have htraced := traced hrun
  have hchildren : v.children = [] := by
    obtain ⟨id, hoffspring⟩ := htraced.offspring v hv
    exact hoffspring.eq_nil fun f hf => by simp [hf, Verdict.status] at hstatus
  have hvisits : run.visits = [v] := htraced.eq_singleton hv h.node hchildren
  have hbest : run.final.incumbent.best = none :=
    best_eq_none hrun (by simp [hvisits, hstatus])
  refine ⟨?_, ?_, ?_, ?_⟩
  · exact htraced.explored.trans (by rw [hvisits, List.length_singleton])
  · exact (cutsAdded_eq hrun).trans (by simp [hvisits, h.cuts])
  · change run.final.incumbent.x = []
    rw [Incumbent.x, hbest, Option.elim_none]
  · change run.final.incumbent.objective = .infinity
    rw [Incumbent.objective, hbest, Option.elim_none]

theorem decidesAtRoot (hs : s.Lawful) (hrun : s.run? = some run)
    (hclean : ∀ v ∈ run.visits, v.Clean) : s.DecidesAtRoot run := by
  have hroot : ∀ v ∈ run.visits, v.verdict.status = .unbounded → s.AtRoot v :=
    fun v hv => (descent_final hs hrun hclean v hv).2
  refine ⟨hroot, ⟨fun h => ?_, fun h => ?_⟩, fun h => ?_⟩
  · obtain ⟨v, hv, hstatus⟩ := exists_unbounded hrun h
    have hlast := unbounded_last hs hrun v hv hstatus
    rw [(hroot v hv hstatus).last] at hlast
    exact ⟨(visits_ne_nil_iff hrun).1 (List.ne_nil_of_mem hv), hlast⟩
  · exact (unbounded_of_not_optimal hs (by simp [h.2]) hrun).2 h
  · obtain ⟨v, hv, hstatus⟩ := exists_unbounded hrun h
    exact (hroot v hv hstatus).alone hrun hv hstatus

end Search

/-- On clean runs unboundedness is decided at the root: no other relaxation is unbounded, and a
search is unbounded exactly if it visits the root and finds it so, and then that is all it does. -/
theorem searches_decide_at_root (p : MixedProblem ℚ) (settings : SearchSettings ℚ) :
    (∃ run, (branchAndBound p settings).run? = some run ∧
      ((∀ v ∈ run.visits, v.Clean) → (branchAndBound p settings).DecidesAtRoot run)) ∧
    ∃ run, (branchAndCut p settings).run? = some run ∧
      ((∀ v ∈ run.visits, v.Clean) → (branchAndCut p settings).DecidesAtRoot run) := by
  have hbound := Search.lawful_branchAndBound p settings
  have hcut := Search.lawful_branchAndCut p settings
  obtain ⟨run, hrun⟩ := Search.exists_run hbound
  obtain ⟨run', hrun'⟩ := Search.exists_run hcut
  exact ⟨⟨run, hrun, Search.decidesAtRoot hbound hrun⟩,
    run', hrun', Search.decidesAtRoot hcut hrun'⟩

def climbing : MixedProblem ℚ :=
  { workshop with
    lp := ⟨[1, -2], [[1, 0], [1, -1]], [3, 1]⟩
    valid := by decide +kernel
    integers_lt := workshop.integers_lt }

theorem searches_decide_at_root_climbing :
    (∃ run, (branchAndBound climbing {}).run? = some run ∧ (∀ v ∈ run.visits, v.Clean) ∧
      run.solution.status = .unbounded ∧ run.solution.explored = 1 ∧
      run.solution.incumbent.x = []) ∧
    ∃ run, (branchAndCut workshop { maxCuts := 1 }).run? = some run ∧ (∀ v ∈ run.visits, v.Clean) ∧
      run.solution.status ≠ .unbounded ∧ 1 < run.solution.explored := by
  obtain ⟨run, hrun, hroot⟩ := (searches_decide_at_root climbing {}).1
  obtain ⟨run', hrun', hroot'⟩ := (searches_decide_at_root workshop { maxCuts := 1 }).2
  have heval : (branchAndBound climbing {}).run?.any (fun run =>
      decide (∀ v ∈ run.visits, v.Clean)) = true := by decide +kernel
  have heval' : (branchAndCut workshop { maxCuts := 1 }).run?.any (fun run =>
      decide ((∀ v ∈ run.visits, v.Clean) ∧ 1 < run.solution.explored)) = true := by decide +kernel
  have hclimbing : (climbing.lp.solved {}).result.status = .unbounded := by decide +kernel
  rw [hrun, Option.any_some, decide_eq_true_eq] at heval
  rw [hrun', Option.any_some, decide_eq_true_eq] at heval'
  have hdecides := hroot heval
  have hstatus : run.solution.status = .unbounded := hdecides.status_iff.2 ⟨by decide, hclimbing⟩
  obtain ⟨hexplored, _, hx, _⟩ := hdecides.alone hstatus
  refine ⟨⟨run, hrun, heval, hstatus, hexplored, hx⟩, run', hrun', heval'.1, fun h => ?_, heval'.2⟩
  have hexplored' := ((hroot' heval'.1).alone h).1
  omega

end IntegerPrograms
