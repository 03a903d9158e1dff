import Mathlib
import IntegerPrograms.Proofs.Search.CutTrace
import IntegerPrograms.Proofs.Search.Exactness
import IntegerPrograms.Proofs.Search.Unbounded

/-!
Bounds down the tree. An optimal answer bounds its system from below: no point costs less, and no
direction improves the cost. More rows keep the bound, even those that leave no point, so on clean
runs no relaxation below an optimal one is unbounded or costs less.
-/

set_option autoImplicit false

namespace IntegerPrograms

variable {β : Type}

namespace Problem

variable {p q : Problem ℚ} {bound : ℚ} {settings : LpSettings}

theorem ImprovingRay.of_withRow (hp : p.Valid) {row : List ℚ} {rhs : ℚ} {d : Fin p.numVars → ℚ}
    (h : (p.withRow row rhs).ImprovingRay d) : p.ImprovingRay d where
  nonneg := h.nonneg
  rows k := by
    have hk : k.val < p.A.length := by
      rw [(valid_iff.1 hp).1]
      exact k.isLt
    have hlt : k.val < (p.withRow row rhs).numRows := by
      rw [numRows_withRow]
      exact k.isLt.trans (Nat.lt_succ_self _)
    have hcoef (j : Fin p.numVars) : p.coef k j = (p.withRow row rhs).coef ⟨k.val, hlt⟩ j := by
      simp only [coef, withRow, List.getElem?_append_left hk]
    simp only [hcoef]
    exact h.rows ⟨k.val, hlt⟩
  cost := h.cost

/-- No point costs less than the bound, and no direction improves the cost, even where there is no
point to start from. -/
structure StaysAbove (p : Problem ℚ) (bound : ℚ) : Prop where
  points : ∀ y, p.Feasible y → bound ≤ p.objective y
  rays : ∀ d, ¬ p.ImprovingRay d

namespace StaysAbove

theorem withRow (h : p.StaysAbove bound) (hp : p.Valid) (row : List ℚ) (rhs : ℚ) :
    (p.withRow row rhs).StaysAbove bound where
  points y hy := h.points y ((feasible_withRow hp row rhs y).1 hy).1
  rays d hd := h.rays d (hd.of_withRow hp)

theorem withBound? (h : p.StaysAbove bound) (hp : p.Valid) {b : Bound ℚ}
    (hq : p.withBound? b = some q) : q.StaysAbove bound := by
  obtain ⟨⟨row, rhs⟩, _, rfl⟩ := Option.map_eq_some_iff.1 hq
  exact h.withRow hp row rhs

theorem ne_unbounded (h : p.StaysAbove bound) (hp : p.Valid) (hc : (p.solved settings).Clean) :
    (p.solved settings).result.status ≠ .unbounded := by
  intro hstatus
  obtain ⟨d, hd⟩ := unbounded_ray hp hc hstatus
  exact h.rays d hd

theorem le_objective (h : p.StaysAbove bound) (hp : p.Valid) (hc : (p.solved settings).Clean)
    (ho : (p.solved settings).result.status = .optimal) :
    bound ≤ (p.solved settings).result.objective := by
  rw [optimal_objective hp hc ho]
  exact h.points _ (optimal_feasible hp hc ho)

end StaysAbove

theorem staysAbove_of_optimal (hp : p.Valid) (hc : (p.solved settings).Clean)
    (ho : (p.solved settings).result.status = .optimal) :
    p.StaysAbove (p.solved settings).result.objective := by
  obtain ⟨hsound, hcost, -⟩ := solved_optimal hp hc ho
  exact ⟨fun y hy => optimal_le hp hc ho hy, fun d hd => hd.not_dualFeasible hp hsound.1 hcost⟩

end Problem

theorem Rounds.gains_cons {α : Type} [Scalar α] (c : CutRound α) (rest : Rounds α β) :
    ∃ x ∈ rest.relaxations, Rounds.gains { rest with cuts := c :: rest.cuts } =
      c.solved.result.gain? x.result :: rest.gains := by
  obtain ⟨cuts, last, verdict, failed, store⟩ := rest
  cases cuts with
  | nil => exact ⟨last, by simp [Rounds.relaxations], rfl⟩
  | cons next cuts => exact ⟨next.solved, by simp [Rounds.relaxations], rfl⟩

theorem Visit.clean_iff {v : Visit ℚ β} : v.Clean ↔ ∀ x ∈ v.relaxations, x.Clean := by
  simp only [Rounds.relaxations, List.forall_mem_append, List.forall_mem_map,
    List.forall_mem_singleton]
  rfl

namespace Search

variable {s : Search ℚ β} {inc : Incumbent ℚ} {left : Nat} {store : β} {p : Problem ℚ}
  {r : Rounds ℚ β}

/-- What the rounds at a node with system `p` do to a bound on it. -/
structure Descends (s : Search ℚ β) (p : Problem ℚ) (r : Rounds ℚ β) : Prop where
  solved : ∀ x ∈ r.relaxations, x.problem.Valid ∧ x = x.problem.solved s.settings.lp
  kept : ∀ bound, p.StaysAbove bound → ∀ x ∈ r.relaxations, x.problem.StaysAbove bound
  gains : ∀ d, some d ∈ r.gains → 0 ≤ d
  cuts : r.cuts ≠ [] → ∃ bound, p.StaysAbove bound

namespace Descends

variable {x : Solved ℚ} {bound : ℚ}

theorem last (hv : p.Valid) (verdict : Verdict ℚ) (failed : Option (Cut.Attempt ℚ)) (store : β) :
    s.Descends p ⟨[], p.solved s.settings.lp, verdict, failed, store⟩ where
  solved := List.forall_mem_singleton.2 ⟨hv, rfl⟩
  kept _ hb := List.forall_mem_singleton.2 hb
  gains := by simp [Rounds.gains, CutRound.gains]
  cuts h := absurd rfl h

theorem ne_unbounded (h : s.Descends p r) (hb : p.StaysAbove bound) (hx : x ∈ r.relaxations)
    (hc : x.Clean) : x.result.status ≠ .unbounded := by
  obtain ⟨hv, he⟩ := h.solved x hx
  have hkept := h.kept bound hb x hx
  rw [he] at hc ⊢
  exact hkept.ne_unbounded hv hc

theorem le_objective (h : s.Descends p r) (hb : p.StaysAbove bound) (hx : x ∈ r.relaxations)
    (hc : x.Clean) (ho : x.result.status = .optimal) : bound ≤ x.result.objective := by
  obtain ⟨hv, he⟩ := h.solved x hx
  have hkept := h.kept bound hb x hx
  rw [he] at hc ho ⊢
  exact hkept.le_objective hv hc ho

end Descends

theorem Descends.cons (hv : p.Valid) (hc : (p.solved s.settings.lp).Clean)
    (ho : (p.solved s.settings.lp).result.status = .optimal) {cut : Cut ℚ} {rest : Rounds ℚ β}
    (hrest : ∀ x ∈ rest.relaxations, x.Clean)
    (h : s.Descends (p.withRow cut.coefs cut.rhs) rest) (basic : Nat) :
    s.Descends p { rest with cuts := ⟨p.solved s.settings.lp, cut, basic⟩ :: rest.cuts } where
  solved := List.forall_mem_cons.2 ⟨⟨hv, rfl⟩, h.solved⟩
  kept bound hb := List.forall_mem_cons.2 ⟨hb, h.kept bound (hb.withRow hv _ _)⟩
  gains := by
    obtain ⟨x, hx, hgains⟩ := Rounds.gains_cons ⟨p.solved s.settings.lp, cut, basic⟩ rest
    intro d hd
    rw [hgains, List.mem_cons] at hd
    rcases hd with hd | hd
    · -- The relaxation before the cut was optimal, so it bounds the one after.
      obtain ⟨hoptimal, he⟩ := Option.ite_none_right_eq_some.1 hd.symm
      have hle := h.le_objective ((Problem.staysAbove_of_optimal hv hc ho).withRow hv _ _) hx
        (hrest x hx) hoptimal
      rw [← Option.some.inj he]
      exact sub_nonneg.2 hle
    · exact h.gains d hd
  cuts _ := ⟨_, Problem.staysAbove_of_optimal hv hc ho⟩

theorem Rounding.descends (hs : s.Lawful) (h : s.Rounding inc left store r)
    (hleft : left ≤ s.cutLimit) (hp : s.storage.system? store = some p)
    (href : p.Refines s.problem.lp) (hclean : ∀ x ∈ r.relaxations, x.Clean) :
    s.Descends p r := by
  refine solved_induction hs (motive := fun p r => p.Valid → (∀ x ∈ r.relaxations, x.Clean) →
    (∀ c ∈ r.cuts, c.solved.result.status = .optimal) → s.Descends p r) ?_ ?_ h hleft hp
    href.shaped href.valid hclean h.optimal_cuts
  · intro p store verdict failed _ _ _ hv _ _
    exact .last hv verdict failed store
  · intro p cut basic rest hlen _ ih hv hclean hoptimal
    obtain ⟨hc, hrest⟩ := List.forall_mem_cons.1 hclean
    obtain ⟨ho, hcuts⟩ := List.forall_mem_cons.1 hoptimal
    exact .cons hv hc ho hrest (ih (Problem.valid_withRow hv hlen _) hrest hcuts) basic

end Search

/-- The optimal relaxations of a visit are no better than that of the parent, nor is any than the
one before its cut. -/
structure Visit.Tightens (v : Visit ℚ β) : Prop where
  parent : ∀ bound, v.node.parentObjective = some bound →
    ∀ x ∈ v.relaxations, x.result.status = .optimal → bound ≤ x.result.objective
  children : ∀ child ∈ v.children, v.last.result.status = .optimal ∧
    child.parentObjective = some v.last.result.objective
  gains : ∀ d, some d ∈ v.gains → 0 ≤ d

namespace Search

variable {s : Search ℚ β} {inc : Incumbent ℚ} {p : Problem ℚ} {node : Node ℚ β}

def Bounded (s : Search ℚ β) (node : Node ℚ β) (p : Problem ℚ) : Prop :=
  node = .root s.storage.root ∨
    ∃ bound, node.parentObjective = some bound ∧ p.StaysAbove bound

structure AtRoot (s : Search ℚ β) (v : Visit ℚ β) : Prop where
  node : v.node = .root s.storage.root
  cuts : v.cuts = []
  last : v.last = s.problem.lp.solved s.settings.lp

theorem Offspring.parentObjective {r : Rounds ℚ β} {id : Nat} {children : List (Node ℚ β)}
    (h : s.Offspring node r id children) :
    ∀ child ∈ children, child.parentObjective = some r.last.result.objective := by
  cases h with
  | split => simp [Node.child]
  | none => simp

namespace Step

variable {t t' : SearchTree ℚ (Node ℚ β)} {v : Visit ℚ β}

theorem descends (hs : s.Lawful) (h : s.Step t node p t' v) (hc : v.Clean) :
    s.Descends p v.toRounds :=
  h.visited.rounds.descends hs le_rfl h.system h.refines (Visit.clean_iff.1 hc)

theorem tightens (hs : s.Lawful) (h : s.Step t node p t' v) (hc : v.Clean)
    (hnode : s.Bounded node p) : v.Tightens where
  parent := by
    rw [h.visited.node_eq]
    intro bound hbound x hx ho
    rcases hnode with rfl | ⟨bound', hbound', hb⟩
    · cases hbound
    · obtain rfl : bound = bound' := Option.some.inj (hbound.symm.trans hbound')
      exact (h.descends hs hc).le_objective hb hx (Visit.clean_iff.1 hc x hx) ho
  children child hchild := by
    obtain ⟨f, _, _, hf, _⟩ := h.spec.toSettled.child hs h.visited.children hchild
    exact ⟨h.spec.toSettled.optimal hf, h.visited.children.parentObjective child hchild⟩
  gains := (h.descends hs hc).gains

theorem atRoot_of_unbounded (hs : s.Lawful) (h : s.Step t node p t' v) (hc : v.Clean)
    (hnode : s.Bounded node p) (hv : v.verdict.status = .unbounded) : s.AtRoot v := by
  have hstatus : v.last.result.status = .unbounded := h.spec.judged.unbounded_iff.1 hv
  have hno (bound : ℚ) : ¬ p.StaysAbove bound := fun hb =>
    (h.descends hs hc).ne_unbounded hb (by simp [Rounds.relaxations]) hc.2 hstatus
  have hcuts : v.cuts = [] := by
    by_contra hcuts
    obtain ⟨bound, hb⟩ := (h.descends hs hc).cuts hcuts
    exact hno bound hb
  have hfirst := (h.visited.rounds.chained hs le_rfl h.system h.shaped).1
  rcases hnode with rfl | ⟨bound, _, hb⟩
  · have hp : v.last.problem = p := by simpa [Rounds.relaxations, hcuts] using hfirst
    obtain rfl : p = s.problem.lp := Option.some.inj (h.system.symm.trans hs.root)
    refine ⟨h.visited.node_eq, hcuts, ?_⟩
    rw [← hp]
    exact h.spec.solved
  · exact absurd hb (hno bound)

theorem bounded_child (hs : s.Lawful) (h : s.Step t node p t' v) (hc : v.Clean)
    {child : Node ℚ β} (hchild : child ∈ v.children) :
    ∃ q, s.storage.system? child.store = some q ∧ s.Bounded child q := by
  obtain ⟨f, b, q, hf, _, hq, hsystem, _⟩ :=
    h.spec.toSettled.child hs h.visited.children hchild
  have hv := h.spec.refines.valid
  have hb : v.last.problem.StaysAbove v.last.result.objective := by
    have ho := h.spec.toSettled.optimal hf
    have hclean := hc.2
    rw [h.spec.solved] at ho hclean ⊢
    exact Problem.staysAbove_of_optimal hv hclean ho
  exact ⟨q, hsystem, .inr ⟨_, h.visited.children.parentObjective child hchild, hb.withBound? hv hq⟩⟩

end Step

theorem descent_final (hs : s.Lawful) {run : SearchRun ℚ β} (hrun : s.run? = some run)
    (hclean : ∀ v ∈ run.visits, v.Clean) :
    ∀ v ∈ run.visits, v.Tightens ∧ (v.verdict.status = .unbounded → s.AtRoot v) := by
  refine (step_induction hs (P := s.Bounded) (.inl rfl) ?_ hrun hclean).1
  intro t node p t' v h hnode hc
  exact ⟨⟨h.tightens hs hc hnode, h.atRoot_of_unbounded hs hc hnode⟩,
    fun child hchild => h.bounded_child hs hc hchild⟩

end Search

/-- On clean runs bounds tighten down the tree: an optimal relaxation costs no less than the parent
of its node, and no cut that was added is recorded with a loss. -/
theorem searches_tighten (p : MixedProblem ℚ) (settings : SearchSettings ℚ) :
    (∃ run, (branchAndBound p settings).run? = some run ∧
      ((∀ v ∈ run.visits, v.Clean) → ∀ v ∈ run.visits, v.Tightens)) ∧
    ∃ run, (branchAndCut p settings).run? = some run ∧ ((∀ v ∈ run.visits, v.Clean) →
      (∀ v ∈ run.visits, v.Tightens) ∧
      ∃ trace, run.trace? = some trace ∧ ∀ d, some d ∈ trace → 0 ≤ d) := by
  have hbound := Search.lawful_branchAndBound p settings
  have hcut := Search.lawful_branchAndCut p settings
  obtain ⟨run, hrun⟩ := Search.exists_run hbound
  obtain ⟨run', hrun'⟩ := Search.exists_run hcut
  refine ⟨⟨run, hrun, fun hc v hv => (Search.descent_final hbound hrun hc v hv).1⟩,
    run', hrun', fun hc => ?_⟩
  have htightens : ∀ v ∈ run'.visits, v.Tightens :=
    fun v hv => (Search.descent_final hcut hrun' hc v hv).1
  refine ⟨htightens, _, run'.trace?_eq, fun d hd => ?_⟩
  obtain ⟨v, hv, hgain⟩ := List.mem_flatMap.1 hd
  exact (htightens v hv).gains d hgain

theorem searches_tighten_workshop :
    (∃ run, (branchAndBound workshop {}).run? = some run ∧
      (∀ v ∈ run.visits, v.Tightens) ∧ 1 < run.visits.length) ∧
    ∃ run trace, (branchAndCut workshop {}).run? = some run ∧ run.trace? = some trace ∧
      (∀ d, some d ∈ trace → 0 ≤ d) ∧ trace.any (·.isSome) = true := by
  obtain ⟨⟨run, hrun, hbound⟩, run', hrun', hcut⟩ := searches_tighten workshop {}
  have heval : (branchAndBound workshop {}).run?.any (fun run =>
      decide ((∀ v ∈ run.visits, v.Clean) ∧ 1 < run.visits.length)) = true := by decide +kernel
  have heval' : (branchAndCut workshop {}).run?.any (fun run =>
      decide ((∀ v ∈ run.visits, v.Clean) ∧
        run.trace?.any (·.any (·.isSome)) = true)) = true := by decide +kernel
  rw [hrun, Option.any_some, decide_eq_true_eq] at heval
  rw [hrun', Option.any_some, decide_eq_true_eq] at heval'
  obtain ⟨_, trace, htrace, hgains⟩ := hcut heval'.1
  rw [htrace, Option.any_some] at heval'
  exact ⟨⟨run, hrun, hbound heval.1, heval.2⟩, run', trace, hrun', htrace, hgains, heval'.2⟩

end IntegerPrograms
