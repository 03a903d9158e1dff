import Mathlib
import IntegerPrograms.Proofs.Search.Exactness
import IntegerPrograms.Proofs.Simplex.Certificates

set_option autoImplicit false

namespace IntegerPrograms

variable {β : Type}

theorem Judged.unbounded_iff {α : Type} [Scalar α] {p : MixedProblem α}
    {settings : SearchSettings α} {inc : Incumbent α} {r : LpResult α} {verdict : Verdict α}
    (h : Judged p settings inc r verdict) :
    verdict.status = .unbounded ↔ r.status = .unbounded := by
  cases h with
  | infeasible h => rcases h with h | h <;> simp [Verdict.status, h]
  | _ => simp [Verdict.status, *]

namespace Search

section AnyArithmetic

variable {α : Type} [Scalar α] {s : Search α β} {inc : Incumbent α} {left : Nat} {store : β}
  {r : Rounds α β} {run : SearchRun α β}

theorem Rounding.last_of_not_optimal
    (hoptimal : (s.problem.lp.solved s.settings.lp).result.status ≠ .optimal)
    (h : s.Rounding inc left store r) (hp : s.storage.system? store = some s.problem.lp) :
    Judged s.problem s.settings inc (s.problem.lp.solved s.settings.lp).result r.verdict ∧
      ∀ f, r.verdict ≠ .fractional f := by
  have hshape := Problem.Shaped.of_valid s.problem.valid
  have hnot {solved : Solved α} {f : Fractional α}
      (hrelax : s.relax? inc store = some (solved, .fractional f)) : False := by
    obtain ⟨rfl, hj⟩ := solved_of_relax? hp hshape hrelax
    exact hoptimal (hj.optimal rfl)
  cases h with
  | fathomed hrelax hv =>
    obtain ⟨rfl, hj⟩ := solved_of_relax? hp hshape hrelax
    exact ⟨hj, hv⟩
  | capped hrelax => exact (hnot hrelax).elim
  | uncut hrelax => exact (hnot hrelax).elim
  | another hrelax => exact (hnot hrelax).elim

theorem Offspring.eq_nil {node : Node α β} {id : Nat} {children : List (Node α β)}
    (h : s.Offspring node r id children) (hv : ∀ f, r.verdict ≠ .fractional f) :
    children = [] := by
  cases h with
  | split hf => exact absurd hf (hv _)
  | none => rfl

/-- If the first relaxation is not optimal, every visit is to it and opens nothing. -/
theorem visits_of_not_optimal (hs : s.Lawful)
    (hoptimal : (s.problem.lp.solved s.settings.lp).result.status ≠ .optimal)
    (hrun : s.run? = some run) :
    ∀ v ∈ run.visits, v.verdict.status = .unbounded ↔
      (s.problem.lp.solved s.settings.lp).result.status = .unbounded := by
  refine (node_induction hs (P := fun _ q => q = s.problem.lp) (Q := fun _ => True) rfl ?_ hrun
    fun _ _ => trivial).1
  rintro t node p t' v hmove rfl -
  obtain ⟨hj, hv⟩ := hmove.visited.rounds.last_of_not_optimal hoptimal hmove.system
  refine ⟨hj.unbounded_iff, ?_⟩
  rw [hmove.visited.children.eq_nil hv]
  simp

theorem visits_ne_nil_iff (hrun : s.run? = some run) :
    run.visits ≠ [] ↔ 0 < s.settings.maxNodes := by
  rw [run?] at hrun
  cases hmax : s.settings.maxNodes with
  | zero =>
    obtain rfl : (⟨[], s.start⟩ : SearchRun α β) = run := by simpa [hmax, explore?] using hrun
    simp
  | succ left =>
    rw [hmax] at hrun
    rcases explore?_succ hrun with ⟨hpop, _⟩ | ⟨_, _, _, _, _, _, _, rfl⟩
    · cases hpop
    · simp

theorem unbounded_of_not_optimal (hs : s.Lawful)
    (hoptimal : (s.problem.lp.solved s.settings.lp).result.status ≠ .optimal)
    (hrun : s.run? = some run) :
    run.solution.status = .unbounded ↔ 0 < s.settings.maxNodes ∧
      (s.problem.lp.solved s.settings.lp).result.status = .unbounded := by
  have hvisits := visits_of_not_optimal hs hoptimal hrun
  rw [← visits_ne_nil_iff hrun]
  refine (SearchTree.status_eq_unbounded_iff run.final).trans ((sawUnbounded_iff hrun).trans ?_)
  constructor
  · rintro ⟨v, hv, hstatus⟩
    exact ⟨List.ne_nil_of_mem hv, (hvisits v hv).1 hstatus⟩
  · rintro ⟨hne, hstatus⟩
    obtain ⟨v, hv⟩ := List.exists_mem_of_ne_nil _ hne
    exact ⟨v, hv, (hvisits v hv).2 hstatus⟩

end AnyArithmetic

variable {s : Search ℚ β}

theorem unbounded_of_empty (hs : s.Lawful) (hempty : ∀ y, ¬ s.problem.lp.Feasible y)
    (hclean : (s.problem.lp.solved s.settings.lp).Clean) {run : SearchRun ℚ β}
    (hrun : s.run? = some run) :
    run.solution.status = .unbounded ↔ 0 < s.settings.maxNodes ∧
      (s.problem.lp.solved s.settings.lp).result.status = .unbounded := by
  refine unbounded_of_not_optimal hs (fun hoptimal => ?_) hrun
  exact hempty _ (Problem.optimal_feasible s.problem.valid hclean hoptimal)

end Search

/-- A problem without points has an answer. On a clean run it is unbounded exactly if the run was
not cut short and there is an improving ray, and both searches, given a node to visit, are unbounded
exactly if that answer is. -/
theorem empty_unbounded_iff_ray {p : Problem ℚ} (hp : p.Valid) (hempty : ∀ y, ¬ p.Feasible y)
    (settings : LpSettings) :
    ∃ s, p.solve? settings = some s ∧ (s.Clean →
      (s.result.status = .unbounded ↔
        s.result.status ≠ .pivotLimit ∧ ∃ d, p.ImprovingRay d) ∧
      ∀ (q : MixedProblem ℚ) (search : SearchSettings ℚ), q.lp = p → search.lp = settings →
        (∃ run, (branchAndBound q search).run? = some run ∧
          (run.solution.status = .unbounded ↔
            0 < search.maxNodes ∧ s.result.status = .unbounded)) ∧
        ∃ run, (branchAndCut q search).run? = some run ∧
          (run.solution.status = .unbounded ↔
            0 < search.maxNodes ∧ s.result.status = .unbounded)) := by
  refine ⟨_, Problem.solve?_valid hp settings, fun hc => ⟨Problem.unbounded_iff hp hc, ?_⟩⟩
  rintro q search rfl rfl
  have hbound := Search.lawful_branchAndBound q search
  have hcut := Search.lawful_branchAndCut q search
  obtain ⟨run, hrun⟩ := Search.exists_run hbound
  obtain ⟨run', hrun'⟩ := Search.exists_run hcut
  exact ⟨⟨run, hrun, Search.unbounded_of_empty hbound hempty hc hrun⟩,
    run', hrun', Search.unbounded_of_empty hcut hempty hc hrun'⟩

def overtaken : MixedProblem ℚ :=
  ⟨⟨[1, 1], [[1, 0], [-1, 0]], [1, -2]⟩, [1], by decide +kernel, by decide, by decide, by decide⟩

theorem overtaken_empty (y : List ℚ) : ¬ overtaken.lp.Feasible y := by
  have hrow : overtaken.lp.FarkasRow 0 fun _ => 1 :=
    ⟨by decide +kernel, by decide +kernel, by decide +kernel⟩
  exact hrow.infeasible le_rfl overtaken.valid (by decide +kernel) (by decide +kernel) y

theorem empty_unbounded_iff_ray_overtaken :
    ∃ s, overtaken.lp.solve? {} = some s ∧ s.Clean ∧ s.result.status = .infeasible ∧
      (¬ ∃ d, overtaken.lp.ImprovingRay d) ∧
      ∃ run, (branchAndCut overtaken {}).run? = some run ∧ run.solution.status ≠ .unbounded := by
  obtain ⟨s, hs, hanswer⟩ := empty_unbounded_iff_ray overtaken.valid overtaken_empty {}
  have heval : (overtaken.lp.solve? {}).any (fun s => decide (s.Clean ∧
      s.result.status = .infeasible)) = true := by decide +kernel
  rw [hs, Option.any_some, decide_eq_true_eq] at heval
  obtain ⟨hc, hstatus⟩ := heval
  obtain ⟨hray, hsearch⟩ := hanswer hc
  obtain ⟨_, run, hrun, hunbounded⟩ := hsearch overtaken {} rfl rfl
  refine ⟨s, hs, hc, hstatus, fun hd => ?_, run, hrun, fun h => ?_⟩
  · simpa [hstatus] using hray.2 ⟨by simp [hstatus], hd⟩
  · simpa [hstatus] using (hunbounded.1 h).2

def adrift : MixedProblem ℚ :=
  ⟨⟨[-1, -1], [[1, 0], [-1, 0]], [1, -2]⟩, [1], by decide +kernel, by decide, by decide, by decide⟩

/-- A problem without points that is called unbounded, by the simplex method and by both searches. -/
theorem adrift_called_unbounded :
    (∀ y, ¬ adrift.lp.Feasible y) ∧
      (∃ s, adrift.lp.solve? {} = some s ∧ s.Clean ∧ s.result.status = .unbounded) ∧
      (∃ run, (branchAndBound adrift {}).run? = some run ∧ run.solution.status = .unbounded) ∧
      ∃ run, (branchAndCut adrift {}).run? = some run ∧ run.solution.status = .unbounded := by
  have hrow : adrift.lp.FarkasRow 0 fun _ => 1 :=
    ⟨by decide +kernel, by decide +kernel, by decide +kernel⟩
  have hempty := hrow.infeasible le_rfl adrift.valid (by decide +kernel) (by decide +kernel)
  have heval : (adrift.lp.solved {}).Clean ∧
      (adrift.lp.solved {}).result.status = .unbounded := by decide +kernel
  have hbound := Search.lawful_branchAndBound adrift {}
  have hcut := Search.lawful_branchAndCut adrift {}
  obtain ⟨run, hrun⟩ := Search.exists_run hbound
  obtain ⟨run', hrun'⟩ := Search.exists_run hcut
  exact ⟨hempty, ⟨_, Problem.solve?_valid adrift.valid {}, heval⟩,
    ⟨run, hrun, (Search.unbounded_of_empty hbound hempty heval.1 hrun).2 ⟨by decide, heval.2⟩⟩,
    run', hrun', (Search.unbounded_of_empty hcut hempty heval.1 hrun').2 ⟨by decide, heval.2⟩⟩

end IntegerPrograms
