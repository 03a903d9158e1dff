import Mathlib
import IntegerPrograms.Proofs.Search.Rounds
import IntegerPrograms.Proofs.Simplex.Optimality

set_option autoImplicit false

namespace IntegerPrograms

variable {β : Type}

/-- A valid system with the costs of a problem and no other points. -/
structure Problem.Refines (q p : Problem ℚ) : Prop where
  valid : q.Valid
  costs : q.c = p.c
  feasible : ∀ y, q.Feasible y → p.Feasible y

namespace Problem.Refines

variable {p q r : Problem ℚ}

theorem refl (hp : p.Valid) : p.Refines p := ⟨hp, rfl, fun _ => id⟩

theorem trans (h : r.Refines q) (h' : q.Refines p) : r.Refines p :=
  ⟨h.valid, h.costs.trans h'.costs, fun y hy => h'.feasible y (h.feasible y hy)⟩

theorem numVars (h : q.Refines p) : q.numVars = p.numVars := by
  unfold Problem.numVars
  rw [h.costs]

theorem shaped (h : q.Refines p) : q.Shaped p.numVars := h.numVars ▸ .of_valid h.valid

theorem objective (h : q.Refines p) (y : List ℚ) : q.objective y = p.objective y := by
  unfold Problem.objective
  rw [h.costs]

theorem withRow (hp : p.Valid) {row : List ℚ} (hrow : row.length = p.numVars) (rhs : ℚ) :
    (p.withRow row rhs).Refines p :=
  ⟨valid_withRow hp hrow rhs, rfl, fun y hy => ((feasible_withRow hp row rhs y).1 hy).1⟩

end Problem.Refines

/-- A point satisfied the system before the cut and violates the cut. -/
def CutRound.Loses (c : CutRound ℚ) (y : List ℚ) : Prop :=
  c.solved.problem.Feasible y ∧ 0 < c.cut.violation y

instance (c : CutRound ℚ) (y : List ℚ) : Decidable (c.Loses y) :=
  inferInstanceAs (Decidable (_ ∧ _))

theorem Cut.feasible_withRow {p : Problem ℚ} (hp : p.Valid) (cut : Cut ℚ) (y : List ℚ) :
    (p.withRow cut.coefs cut.rhs).Feasible y ↔ p.Feasible y ∧ ¬ 0 < cut.violation y := by
  rw [Problem.feasible_withRow hp, violation, not_lt]
  exact and_congr_right fun _ => sub_nonpos.symm

namespace Search

variable {s : Search ℚ β}

/-- What the rounds at a node with system `p` come to. -/
structure RoundsSpec (s : Search ℚ β) (inc : Incumbent ℚ) (p : Problem ℚ) (r : Rounds ℚ β) : Prop
    extends s.Settled inc r where
  refines : r.last.problem.Refines p
  kept : ∀ y, p.Feasible y → (∀ c ∈ r.cuts, ¬ c.Loses y) → r.last.problem.Feasible y
  lost : ∀ c ∈ r.cuts, ∀ y, c.Loses y → p.Feasible y ∧ ¬ r.last.problem.Feasible y

variable {inc : Incumbent ℚ} {p : Problem ℚ} {store : β} {left : Nat} {r : Rounds ℚ β}
  {node : Node ℚ β}

theorem RoundsSpec.last (hp : s.storage.system? store = some p) (hv : p.Valid)
    (hshape : p.Shaped s.problem.lp.numVars) {verdict : Verdict ℚ}
    (hj : Judged s.problem s.settings inc (p.solved s.settings.lp).result verdict)
    (failed : Option (Cut.Attempt ℚ)) :
    s.RoundsSpec inc p ⟨[], p.solved s.settings.lp, verdict, failed, store⟩ where
  stored := hp
  shaped := hshape
  solved := rfl
  judged := hj
  refines := .refl hv
  kept := fun _ hy _ => hy
  lost := by simp

theorem RoundsSpec.cons (hv : p.Valid) {cut : Cut ℚ} (hcut : cut.coefs.length = p.numVars)
    {rest : Rounds ℚ β} (h : s.RoundsSpec inc (p.withRow cut.coefs cut.rhs) rest) (basic : Nat) :
    s.RoundsSpec inc p { rest with cuts := ⟨p.solved s.settings.lp, cut, basic⟩ :: rest.cuts } where
  stored := h.stored
  shaped := h.shaped
  solved := h.solved
  judged := h.judged
  refines := h.refines.trans (.withRow hv hcut _)
  kept := by
    intro y hy hcuts
    simp only [List.forall_mem_cons] at hcuts
    refine h.kept y ((cut.feasible_withRow hv y).2 ⟨hy, fun hlt => hcuts.1 ⟨hy, hlt⟩⟩) hcuts.2
  lost := by
    intro c hc y hy
    rcases List.mem_cons.1 hc with rfl | hc
    · refine ⟨hy.1, fun hlast => ?_⟩
      exact ((cut.feasible_withRow hv y).1 (h.refines.feasible y hlast)).2 hy.2
    · obtain ⟨hin, hout⟩ := h.lost c hc y hy
      exact ⟨((cut.feasible_withRow hv y).1 hin).1, hout⟩

theorem Rounding.spec (hs : s.Lawful) (h : s.Rounding inc left store r)
    (hleft : left ≤ s.cutLimit) (hp : s.storage.system? store = some p)
    (href : p.Refines s.problem.lp) : s.RoundsSpec inc p r := by
  refine solved_induction hs (motive := fun p r => p.Refines s.problem.lp → s.RoundsSpec inc p r)
    ?_ ?_ h hleft hp href.shaped href
  · intro p store verdict failed hp hshape hj href
    exact .last hp href.valid hshape hj failed
  · intro p cut basic rest hcut _ ih href
    exact .cons href.valid hcut (ih (.trans (.withRow href.valid hcut _) href)) basic

def Has (s : Search ℚ β) (node : Node ℚ β) (y : List ℚ) : Prop :=
  ∃ q, s.storage.system? node.store = some q ∧ q.Feasible y

def WellFormed (s : Search ℚ β) (node : Node ℚ β) : Prop :=
  ∃ q, s.storage.system? node.store = some q ∧ q.Refines s.problem.lp

theorem has_iff {node : Node ℚ β} (h : s.storage.system? node.store = some p) (y : List ℚ) :
    s.Has node y ↔ p.Feasible y := by
  constructor
  · rintro ⟨q, hq, hy⟩
    obtain rfl : p = q := Option.some.inj (h.symm.trans hq)
    exact hy
  · exact fun hy => ⟨p, h, hy⟩

theorem RoundsSpec.bound (hs : s.Lawful) (h : s.RoundsSpec inc p r)
    (href : p.Refines s.problem.lp) {f : Fractional ℚ} (hf : r.verdict = .fractional f)
    {b : Bound ℚ} (hb : b.var = f.var) (hstore : s.storage.bound? r.store b = some store) :
    ∃ q, s.storage.system? store = some q ∧ q.Refines s.problem.lp ∧
      ∀ y, q.Feasible y ↔ r.last.problem.Feasible y ∧ b.Holds y := by
  have hlast := h.refines.trans href
  obtain ⟨store', q, hstore', hq, hsystem, _⟩ := h.toSettled.bound hs hf hb
  obtain rfl : store = store' := Option.some.inj (hstore.symm.trans hstore')
  have hvar : b.var < r.last.problem.numVars := by
    rw [hb, hlast.numVars]
    exact s.problem.integers_lt _ (h.choice hf).1
  obtain ⟨q', hq', hvalid, hcost, hfeas⟩ := Problem.withBound?_spec hlast.valid hvar
  obtain rfl : q = q' := Option.some.inj (hq.symm.trans hq')
  refine ⟨q, hsystem, ⟨hvalid, hcost.trans hlast.costs, fun y hy => ?_⟩, hfeas⟩
  exact hlast.feasible y ((hfeas y).1 hy).1

/-- What a visit to a node with system `p` comes to. -/
structure VisitSpec (s : Search ℚ β) (inc : Incumbent ℚ) (p : Problem ℚ) (v : Visit ℚ β) : Prop
    extends s.RoundsSpec inc p v.toRounds where
  wellFormed : ∀ child ∈ v.children, s.WellFormed child
  branched : ∀ f, v.verdict = .fractional f → ∃ down up, v.children = [down, up] ∧
    (∀ y, s.Has down y ↔ v.last.problem.Feasible y ∧ f.down.Holds y) ∧
    ∀ y, s.Has up y ↔ v.last.problem.Feasible y ∧ f.up.Holds y
  leaf : (∀ f, v.verdict ≠ .fractional f) → v.children = []

theorem RoundsSpec.visit (hs : s.Lawful) (h : s.RoundsSpec inc p r)
    (href : p.Refines s.problem.lp) {id : Nat} {children : List (Node ℚ β)}
    (hc : s.Offspring node r id children) : s.VisitSpec inc p { r with node, children } := by
  cases hc with
  | @split f down up hv hdown hup =>
    obtain ⟨qd, hsd, hrd, hfd⟩ := h.bound hs href hv (b := f.down) rfl hdown
    obtain ⟨qu, hsu, hru, hfu⟩ := h.bound hs href hv (b := f.up) rfl hup
    refine ⟨h, ?_, ?_, fun hleaf => absurd hv (hleaf f)⟩
    · simp only [List.forall_mem_cons]
      exact ⟨⟨qd, hsd, hrd⟩, ⟨qu, hsu, hru⟩, by simp⟩
    · intro g hg
      obtain rfl : f = g := by simpa [hv] using hg
      refine ⟨_, _, rfl, fun y => ?_, fun y => ?_⟩
      · rw [has_iff hsd, hfd]
      · rw [has_iff hsu, hfu]
  | none hv =>
    refine ⟨h, by simp, fun g hg => absurd hg (hv g), fun _ => rfl⟩

def Open (s : Search ℚ β) (t : SearchTree ℚ (Node ℚ β)) : Prop :=
  ∀ node ∈ t.frontier.nodes, s.WellFormed node

theorem open_start (hs : s.Lawful) : s.Open s.start := by
  intro node hnode
  obtain rfl := eq_root_of_mem_start hnode
  exact ⟨_, hs.root, .refl s.problem.valid⟩

structure Step (s : Search ℚ β) (t : SearchTree ℚ (Node ℚ β)) (node : Node ℚ β)
    (p : Problem ℚ) (t' : SearchTree ℚ (Node ℚ β)) (v : Visit ℚ β) : Prop
    extends s.Move t node p t' v where
  refines : p.Refines s.problem.lp
  spec : s.VisitSpec t.incumbent p v

theorem Move.step (hs : s.Lawful) {t t' : SearchTree ℚ (Node ℚ β)} {v : Visit ℚ β}
    (hmove : s.Move t node p t' v) (href : p.Refines s.problem.lp) : s.Step t node p t' v := by
  have hsystem := hmove.system
  obtain ⟨rfl, hrounds, hchildren⟩ := hmove.visited
  have hspec := hrounds.spec hs le_rfl hsystem href
  rw [hmove.incumbent] at hspec
  exact ⟨hmove, href, hspec.visit hs href hchildren⟩

theorem Open.step (hs : s.Lawful) {t t' : SearchTree ℚ (Node ℚ β)} {v : Visit ℚ β}
    (h : s.Open t) (hmove : s.Move t node p t' v) : s.Step t node p t' v := by
  obtain ⟨q, hq, href⟩ := h node (by simp [hmove.nodes])
  obtain rfl : p = q := Option.some.inj (hmove.system.symm.trans hq)
  exact hmove.step hs href

theorem Open.afterVisit {t t' : SearchTree ℚ (Node ℚ β)} {v : Visit ℚ β} (h : s.Open t)
    (hstep : s.Step t node p t' v) : s.Open (t'.afterVisit v) := by
  intro child hchild
  rw [SearchTree.nodes_afterVisit, List.mem_append] at hchild
  rcases hchild with hchild | hchild
  · exact hstep.spec.wellFormed child hchild
  · exact h child (by simp [hstep.nodes, hchild])

/-- What each step preserves, of the visits so far and the tree, holds in the end. -/
theorem run_induction (hs : s.Lawful) {I : List (Visit ℚ β) → SearchTree ℚ (Node ℚ β) → Prop}
    (hstep : ∀ past t node p t' v, s.Step t node p t' v → I past t →
      I (past ++ [v]) (t'.afterVisit v))
    {run : SearchRun ℚ β} (hrun : s.run? = some run) (hI : I [] s.start) :
    I run.visits run.final := by
  have hstart : s.Open s.start ∧ I [] s.start := ⟨open_start hs, hI⟩
  have hfinal := move_induction hs (I := fun past t => s.Open t ∧ I past t) ?_ hrun hstart
  · exact hfinal.2
  intro past t node p t' v hmove ⟨hopen, ht⟩
  have hst := hopen.step hs hmove
  exact ⟨hopen.afterVisit hst, hstep past t node p t' v hst ht⟩

theorem step_induction (hs : s.Lawful) {P : Node ℚ β → Problem ℚ → Prop} {Q R : Visit ℚ β → Prop}
    (hroot : P (.root s.storage.root) s.problem.lp)
    (hstep : ∀ t node p t' v, s.Step t node p t' v → P node p → Q v →
      R v ∧ ∀ child ∈ v.children, ∃ q, s.storage.system? child.store = some q ∧ P child q)
    {run : SearchRun ℚ β} (hrun : s.run? = some run) (hQ : ∀ v ∈ run.visits, Q v) :
    (∀ v ∈ run.visits, R v) ∧ ∀ node ∈ run.final.frontier.nodes,
      ∃ q, s.storage.system? node.store = some q ∧ P node q := by
  have hfinal := node_induction hs (P := fun node p => p.Refines s.problem.lp ∧ P node p) (R := R)
    ⟨.refl s.problem.valid, hroot⟩ ?_ hrun hQ
  · refine ⟨hfinal.1, fun node hnode => ?_⟩
    obtain ⟨q, hq, _, hP⟩ := hfinal.2 node hnode
    exact ⟨q, hq, hP⟩
  intro t node p t' v hmove ⟨href, hnode⟩ hv
  have hst := hmove.step hs href
  obtain ⟨hR, hchildren⟩ := hstep t node p t' v hst hnode hv
  refine ⟨hR, fun child hchild => ?_⟩
  obtain ⟨q, hq, hP⟩ := hchildren child hchild
  obtain ⟨q', hq', href'⟩ := hst.spec.wellFormed child hchild
  obtain rfl : q = q' := Option.some.inj (hq.symm.trans hq')
  exact ⟨q, hq, href', hP⟩

end Search

end IntegerPrograms
