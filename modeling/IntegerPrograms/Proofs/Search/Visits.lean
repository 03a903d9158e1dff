import Mathlib
import IntegerPrograms.Search.Run

set_option autoImplicit false

namespace IntegerPrograms

variable {α β : Type} [Scalar α]

/-- What a verdict on a relaxation means. -/
inductive Judged (p : MixedProblem α) (settings : SearchSettings α) (inc : Incumbent α)
    (r : LpResult α) : Verdict α → Prop
  | infeasible (h : r.status = .infeasible ∨ r.status = .notDualFeasible) :
      Judged p settings inc r .infeasible
  | unbounded (h : r.status = .unbounded) : Judged p settings inc r .unbounded
  | pivotLimit (h : r.status = .pivotLimit) : Judged p settings inc r .pivotLimit
  | dominated (h : r.status = .optimal) (hd : inc.dominates r.objective = true) :
      Judged p settings inc r .dominated
  | integral (h : r.status = .optimal) (hd : inc.dominates r.objective = false)
      (hs : p.select? settings.branching r.x settings.tolerance = some none) :
      Judged p settings inc r (.integral (inc.improvedBy r.objective))
  | fractional (f : Fractional α) (h : r.status = .optimal)
      (hd : inc.dominates r.objective = false)
      (hs : p.select? settings.branching r.x settings.tolerance = some (some f)) :
      Judged p settings inc r (.fractional f)

theorem MixedProblem.judged_of_judge? {p : MixedProblem α} {settings : SearchSettings α}
    {inc : Incumbent α} {r : LpResult α} {verdict : Verdict α}
    (h : p.judge? settings inc r = some verdict) : Judged p settings inc r verdict := by
  cases hstatus : r.status with
  | infeasible =>
    obtain rfl : Verdict.infeasible = verdict := by simpa [judge?, hstatus] using h
    exact .infeasible (.inl hstatus)
  | notDualFeasible =>
    obtain rfl : Verdict.infeasible = verdict := by simpa [judge?, hstatus] using h
    exact .infeasible (.inr hstatus)
  | unbounded =>
    obtain rfl : Verdict.unbounded = verdict := by simpa [judge?, hstatus] using h
    exact .unbounded hstatus
  | pivotLimit =>
    obtain rfl : Verdict.pivotLimit = verdict := by simpa [judge?, hstatus] using h
    exact .pivotLimit hstatus
  | optimal =>
    cases hd : inc.dominates r.objective with
    | true =>
      obtain rfl : Verdict.dominated = verdict := by simpa [judge?, hstatus, hd] using h
      exact .dominated hstatus hd
    | false =>
      simp only [judge?, hstatus, hd, Bool.false_eq_true, if_false] at h
      obtain ⟨choice, hs, rfl⟩ := Option.map_eq_some_iff.1 h
      cases choice with
      | none => exact .integral hstatus hd hs
      | some f => exact .fractional f hstatus hd hs

theorem Judged.optimal {p : MixedProblem α} {settings : SearchSettings α} {inc : Incumbent α}
    {r : LpResult α} {verdict : Verdict α} (h : Judged p settings inc r verdict)
    {f : Fractional α} (hv : verdict = .fractional f) : r.status = .optimal := by
  subst hv
  cases h with
  | fractional _ ho => exact ho

theorem MixedProblem.exists_judge? (p : MixedProblem α) (settings : SearchSettings α)
    (inc : Incumbent α) (r : LpResult α)
    (h : ∃ choice, p.select? settings.branching r.x settings.tolerance = some choice) :
    ∃ verdict, p.judge? settings inc r = some verdict := by
  obtain ⟨choice, hs⟩ := h
  cases hstatus : r.status with
  | optimal =>
    by_cases hd : inc.dominates r.objective = true
    · exact ⟨_, by simp [judge?, hstatus, hd]; rfl⟩
    · exact ⟨_, by simp [judge?, hstatus, hd, hs]; rfl⟩
  | _ => exact ⟨_, by simp [judge?, hstatus]; rfl⟩

namespace SearchTree

variable {t t' : SearchTree α (Node α β)}

omit [Scalar α] in
theorem pop?_eq_some {node : Node α β} (h : t.pop? = some (node, t')) :
    t.frontier.nodes = node :: t'.frontier.nodes ∧ t'.incumbent = t.incumbent ∧
      t'.degraded = t.degraded ∧ t'.sawUnbounded = t.sawUnbounded ∧ t'.nextId = t.nextId ∧
      t'.cutsAdded = t.cutsAdded ∧ t'.explored = t.explored + 1 := by
  obtain ⟨⟨node', frontier⟩, hpop, he⟩ := Option.map_eq_some_iff.1 h
  obtain ⟨rfl, rfl⟩ : node' = node ∧ { t with frontier } = t' := by simpa using he
  cases hn : t.frontier.nodes with
  | nil => simp [Frontier.pop?, hn] at hpop
  | cons first rest =>
    simp only [Frontier.pop?, hn, Option.some.injEq, Prod.mk.injEq] at hpop
    obtain ⟨rfl, rfl⟩ := hpop
    simp [explored]

omit [Scalar α] in
theorem pop?_eq_none_iff (t : SearchTree α (Node α β)) : t.pop? = none ↔ t.frontier.nodes = [] := by
  rw [pop?, Option.map_eq_none_iff, Frontier.pop?_eq_none_iff]

omit [Scalar α] in
theorem foldl_push (l : List (Node α β)) (t : SearchTree α (Node α β)) :
    l.foldl push t = { t with frontier := l.foldl Frontier.push t.frontier } := by
  induction l generalizing t with
  | nil => rfl
  | cons node l ih => rw [List.foldl_cons, ih]; rfl

omit [Scalar α] in
theorem nodes_foldl_push (l : List (Node α β)) (f : Frontier (Node α β)) :
    (l.foldl Frontier.push f).nodes = l.reverse ++ f.nodes := by
  induction l generalizing f with
  | nil => rfl
  | cons node l ih => simp [ih, Frontier.push]

omit [Scalar α] in
theorem popped_foldl_push (l : List (Node α β)) (f : Frontier (Node α β)) :
    (l.foldl Frontier.push f).popped = f.popped := by
  induction l generalizing f with
  | nil => rfl
  | cons node l ih => simp [ih, Frontier.push]

theorem nodes_afterVisit (t : SearchTree α (Node α β)) (v : Visit α β) :
    (t.afterVisit v).frontier.nodes = v.children ++ t.frontier.nodes := by
  rw [afterVisit, foldl_push, nodes_foldl_push, List.reverse_reverse]
  congr 1
  cases v.verdict <;> cases v.children <;> rfl

theorem incumbent_afterVisit (t : SearchTree α (Node α β)) (v : Visit α β) :
    (t.afterVisit v).incumbent =
      match v.verdict with
      | .integral _ => t.incumbent.update v.last.result.x v.last.result.objective
      | _ => t.incumbent := by
  rw [afterVisit, foldl_push]
  cases v.verdict <;> cases v.children <;> rfl

theorem degraded_afterVisit (t : SearchTree α (Node α β)) (v : Visit α β) :
    (t.afterVisit v).degraded =
      match v.verdict with
      | .pivotLimit => t.degraded + 1
      | _ => t.degraded := by
  rw [afterVisit, foldl_push]
  cases v.verdict <;> cases v.children <;> rfl

theorem sawUnbounded_afterVisit (t : SearchTree α (Node α β)) (v : Visit α β) :
    (t.afterVisit v).sawUnbounded =
      match v.verdict with
      | .unbounded => true
      | _ => t.sawUnbounded := by
  rw [afterVisit, foldl_push]
  cases v.verdict <;> cases v.children <;> rfl

theorem cutsAdded_afterVisit (t : SearchTree α (Node α β)) (v : Visit α β) :
    (t.afterVisit v).cutsAdded = t.cutsAdded + v.cuts.length := by
  rw [afterVisit, foldl_push]
  cases v.verdict <;> cases v.children <;> rfl

theorem explored_afterVisit (t : SearchTree α (Node α β)) (v : Visit α β) :
    (t.afterVisit v).explored = t.explored := by
  rw [afterVisit, foldl_push, explored, popped_foldl_push]
  cases v.verdict <;> cases v.children <;> rfl

theorem nextId_afterVisit (t : SearchTree α (Node α β)) (v : Visit α β) :
    (t.afterVisit v).nextId = if v.children = [] then t.nextId else t.nextId + 2 := by
  rw [afterVisit, foldl_push]
  cases v.verdict <;> cases v.children <;> rfl

omit [Scalar α] in
theorem status_eq_unbounded_iff {ν : Type} (t : SearchTree α ν) :
    t.status = .unbounded ↔ t.sawUnbounded = true := by
  rw [status, exhausted, interrupted]
  cases t.sawUnbounded <;> cases t.frontier.isEmpty <;> cases t.incumbent.best <;> simp

end SearchTree

namespace Search

variable {s : Search α β}

theorem explore?_succ {left : Nat} {t : SearchTree α (Node α β)} {run : SearchRun α β}
    (h : s.explore? (left + 1) t = some run) :
    (t.pop? = none ∧ run = ⟨[], t⟩) ∨
      ∃ node t' v rest, t.pop? = some (node, t') ∧ s.visit? t' node = some v ∧
        s.explore? left (t'.afterVisit v) = some rest ∧
        run = { rest with visits := v :: rest.visits } := by
  cases hpop : t.pop? with
  | none => exact .inl ⟨rfl, by simpa [explore?, hpop] using h.symm⟩
  | some result =>
    obtain ⟨node, t'⟩ := result
    simp only [explore?, hpop, Option.bind_eq_bind, Option.bind_eq_some_iff] at h
    obtain ⟨v, hv, rest, hrest, he⟩ := h
    exact .inr ⟨node, t', v, rest, rfl, hv, hrest, by simpa using he.symm⟩

/-- What each visit preserves, of the visits so far and the tree, holds in the end. -/
theorem explore?_induction {I : List (Visit α β) → SearchTree α (Node α β) → Prop}
    (hstep : ∀ past t node t' v, t.pop? = some (node, t') → s.visit? t' node = some v →
      I past t → I (past ++ [v]) (t'.afterVisit v))
    (past : List (Visit α β)) {left : Nat} {t : SearchTree α (Node α β)} {run : SearchRun α β}
    (hrun : s.explore? left t = some run) (hI : I past t) : I (past ++ run.visits) run.final := by
  induction left generalizing past t run with
  | zero =>
    obtain rfl : (⟨[], t⟩ : SearchRun α β) = run := by simpa [explore?] using hrun
    simpa using hI
  | succ left ih =>
    rcases explore?_succ hrun with ⟨_, rfl⟩ | ⟨node, t', v, rest, hpop, hv, hrest, rfl⟩
    · simpa using hI
    · simpa using ih _ hrest (hstep past t node t' v hpop hv hI)

theorem sawUnbounded_iff {run : SearchRun α β} (hrun : s.run? = some run) :
    run.final.sawUnbounded = true ↔ ∃ v ∈ run.visits, v.verdict.status = .unbounded := by
  refine explore?_induction (I := fun past t => t.sawUnbounded = true ↔
    ∃ v ∈ past, v.verdict.status = .unbounded) ?_ [] hrun (by simp [start, SearchTree.push])
  intro past t node t' v hpop _ ih
  have hsame : t'.sawUnbounded = t.sawUnbounded := (SearchTree.pop?_eq_some hpop).2.2.2.1
  rw [SearchTree.sawUnbounded_afterVisit, hsame]
  simp only [List.mem_append, List.mem_singleton, or_and_right, exists_or, exists_eq_left, ← ih]
  cases v.verdict <;> simp [Verdict.status]

theorem exists_explore? {I : SearchTree α (Node α β) → Prop}
    (hstep : ∀ t node t', t.pop? = some (node, t') → I t →
      ∃ v, s.visit? t' node = some v ∧ I (t'.afterVisit v))
    (left : Nat) {t : SearchTree α (Node α β)} (hI : I t) :
    ∃ run, s.explore? left t = some run := by
  induction left generalizing t with
  | zero => exact ⟨_, rfl⟩
  | succ left ih =>
    cases hpop : t.pop? with
    | none => exact ⟨⟨[], t⟩, by simp [explore?, hpop]⟩
    | some result =>
      obtain ⟨node, t'⟩ := result
      obtain ⟨v, hv, hnext⟩ := hstep t node t' hpop hI
      obtain ⟨rest, hrest⟩ := ih hnext
      exact ⟨{ rest with visits := v :: rest.visits }, by simp [explore?, hpop, hv, hrest]⟩

end Search

end IntegerPrograms
