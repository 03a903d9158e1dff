import Mathlib
import IntegerPrograms.Proofs.Search.Exactness

/-!
Whole slacks along a search. On whole data every constraint has a whole slack at every whole point.
A bound is such a row again, and so is a cut of a system that has only such rows, although its
coefficients need not be whole. Hence no chain of cuts and branches loses a whole point.
-/

set_option autoImplicit false

namespace IntegerPrograms

variable {α β : Type}

namespace Whole

theorem sub {v w : ℚ} (h : Whole v) (h' : Whole w) : Whole (v - w) := by
  rw [whole_iff_mem] at *
  exact sub_mem h h'

theorem dot {l r : List ℚ} (hl : ∀ a ∈ l, Whole a) (hr : ∀ b ∈ r, Whole b) :
    Whole (Scalar.dot l r) := by
  simp only [whole_iff_mem] at *
  induction l generalizing r with
  | nil =>
    rw [Scalar.dot_nil_left]
    exact zero_mem _
  | cons a l ih =>
    cases r with
    | nil =>
      rw [Scalar.dot_nil_right]
      exact zero_mem _
    | cons b r =>
      simp only [List.forall_mem_cons] at hl hr
      rw [Scalar.dot_cons]
      exact add_mem (mul_mem hl.1 hr.1) (ih hl.2 hr.2)

end Whole

theorem Bound.whole_row? {b : Bound ℚ} (hb : Whole b.value) {n : Nat} {row : List ℚ} {rhs : ℚ}
    (h : b.row? n = some (row, rhs)) : (∀ a ∈ row, Whole a) ∧ Whole rhs := by
  have hunit {v : ℚ} (hv : Whole v) : ∀ a ∈ unitRow n b.var v, Whole a := by
    intro a ha
    rcases List.mem_or_eq_of_mem_set ha with ha | rfl
    · rw [List.eq_of_mem_replicate ha]
      exact ⟨0, Int.cast_zero.symm⟩
    · exact hv
  rw [row?, Option.ite_none_right_eq_some] at h
  cases hside : b.side with
  | upper =>
    obtain ⟨rfl, rfl⟩ : unitRow n b.var 1 = row ∧ b.value = rhs := by simpa [hside] using h.2
    exact ⟨hunit ⟨1, Int.cast_one.symm⟩, hb⟩
  | lower =>
    obtain ⟨rfl, rfl⟩ : unitRow n b.var (-1) = row ∧ -b.value = rhs := by simpa [hside] using h.2
    obtain ⟨k, hk⟩ := hb
    exact ⟨hunit ⟨-1, by norm_num⟩, -k, by rw [hk, Int.cast_neg]⟩

theorem Fractional.whole_down (f : Fractional ℚ) : Whole f.down.value := ⟨⌊f.value⌋, rfl⟩

theorem Fractional.whole_up (f : Fractional ℚ) : Whole f.up.value :=
  ⟨⌈f.value⌉, Scalar.ceil_rat f.value⟩

namespace Problem

variable {p q : Problem ℚ}

theorem wholeSlacks_of_data (hA : ∀ row ∈ p.A, ∀ a ∈ row, Whole a) (hb : ∀ v ∈ p.b, Whole v) :
    p.WholeSlacks := by
  intro y _ hy e he
  rw [excesses, ← List.map_uncurry_zip_eq_zipWith, List.mem_map] at he
  obtain ⟨⟨row, rhs⟩, hmem, rfl⟩ := he
  obtain ⟨hrow, hrhs⟩ := List.of_mem_zip hmem
  exact (Whole.dot (hA row hrow) hy).sub (hb rhs hrhs)

namespace WholeSlacks

theorem withRow (h : p.WholeSlacks) (hp : p.Valid) {row : List ℚ} {rhs : ℚ}
    (hrow : ∀ y, y.length = p.numVars → (∀ v ∈ y, Whole v) → Whole (Scalar.dot row y - rhs)) :
    (p.withRow row rhs).WholeSlacks := by
  intro y hlen hy e he
  rw [excesses_withRow hp, List.mem_append, List.mem_singleton] at he
  rcases he with he | rfl
  · exact h y hlen hy e he
  · exact hrow y hlen hy

theorem withBound? (h : p.WholeSlacks) (hp : p.Valid) {b : Bound ℚ} (hb : Whole b.value)
    (hq : p.withBound? b = some q) : q.WholeSlacks := by
  obtain ⟨⟨row, rhs⟩, hrow, rfl⟩ := Option.map_eq_some_iff.1 hq
  obtain ⟨hcoefs, hrhs⟩ := Bound.whole_row? hb hrow
  exact h.withRow hp fun y _ hy => (Whole.dot hcoefs hy).sub hrhs

end WholeSlacks

end Problem

/-- Every entry of the cut's source row, its right-hand side included, is resolved. -/
def CutRound.SourceResolved (c : CutRound ℚ) : Prop :=
  ∀ i : Fin c.solved.problem.numRows, i.val = c.cut.sourceRow →
    ∀ j, Resolved (c.solved.run.final.get i.castSucc j)

instance (c : CutRound ℚ) : Decidable c.SourceResolved :=
  inferInstanceAs (Decidable (∀ _ : Fin _, _ → ∀ _, _))

def Rounds.systems (r : Rounds α β) : List (Problem α) :=
  r.cuts.map (·.solved.problem) ++ [r.last.problem]

structure Rounds.Integral (r : Rounds ℚ β) : Prop where
  systems : ∀ q ∈ r.systems, q.WholeSlacks
  keeps : ∀ y, (∀ v ∈ y, Whole v) → ∀ c ∈ r.cuts, ¬ c.Loses y

namespace Rounds.Integral

variable {p : Problem ℚ} {verdict : Verdict ℚ} {failed : Option (Cut.Attempt ℚ)} {store : β}
  {rest : Rounds ℚ β}

theorem last (h : p.WholeSlacks) (settings : LpSettings) :
    Integral ⟨[], p.solved settings, verdict, failed, store⟩ := by
  refine ⟨fun q hq => ?_, by simp⟩
  obtain rfl : q = p := List.mem_singleton.1 hq
  exact h

theorem cons (hp : p.WholeSlacks) (h : rest.Integral) {settings : LpSettings} {cut : Cut ℚ}
    (hcut : ∀ y, (∀ v ∈ y, Whole v) → p.Feasible y → cut.violation y ≤ 0) (basic : Nat) :
    Integral { rest with cuts := ⟨p.solved settings, cut, basic⟩ :: rest.cuts } := by
  constructor
  · intro q hq
    rcases List.mem_cons.1 hq with rfl | hq
    · exact hp
    · exact h.systems q hq
  · intro y hy c hc
    rcases List.mem_cons.1 hc with rfl | hc
    · exact fun hloses => not_lt.2 (hcut y hy hloses.1) hloses.2
    · exact h.keeps y hy c hc

end Rounds.Integral

namespace Search

variable {s : Search ℚ β} {inc : Incumbent ℚ} {left : Nat} {store : β} {p : Problem ℚ}
  {r : Rounds ℚ β} {node : Node ℚ β}

theorem Rounding.integral (hs : s.Lawful) (h : s.Rounding inc left store r)
    (hleft : left ≤ s.cutLimit) (hp : s.storage.system? store = some p)
    (href : p.Refines s.problem.lp) (hwhole : p.WholeSlacks)
    (hresolved : ∀ c ∈ r.cuts, c.SourceResolved) : r.Integral := by
  refine solved_induction hs (motive := fun p r => p.Refines s.problem.lp → p.WholeSlacks →
    (∀ c ∈ r.cuts, c.SourceResolved) → r.Integral) ?_ ?_ h hleft hp href.shaped href hwhole
    hresolved
  · intro p store verdict failed _ _ _ _ hwhole _
    exact .last hwhole _
  · intro p cut basic rest hlen ha ih href hwhole hresolved
    simp only [List.forall_mem_cons] at hresolved
    have hcut {y : List ℚ} := Cut.whole_violation (y := y) href.valid
      (p.reachable_final s.settings.lp) hwhole (Cut.Attempt.eq_derived_of_usable? ha) hresolved.1
    have hrow : (p.withRow cut.coefs cut.rhs).WholeSlacks :=
      hwhole.withRow href.valid fun y hlen hy => (hcut hlen hy).1
    have hrest := ih (.trans (.withRow href.valid hlen _) href) hrow hresolved.2
    exact .cons hwhole hrest (fun y hy hin => (hcut hin.1 hy).2 hin) basic

def WholeNode (s : Search ℚ β) (node : Node ℚ β) : Prop :=
  ∃ q, s.storage.system? node.store = some q ∧ q.WholeSlacks

namespace Step

variable {t t' : SearchTree ℚ (Node ℚ β)} {v : Visit ℚ β}

theorem integral (hs : s.Lawful) (h : s.Step t node p t' v) (hnode : s.WholeNode node)
    (hresolved : ∀ c ∈ v.cuts, c.SourceResolved) : v.toRounds.Integral := by
  obtain ⟨q, hq, hwhole⟩ := hnode
  obtain rfl : p = q := Option.some.inj (h.system.symm.trans hq)
  exact h.visited.rounds.integral hs le_rfl hq h.refines hwhole hresolved

theorem wholeNode_child (hs : s.Lawful) (h : s.Step t node p t' v) (hv : v.toRounds.Integral)
    {child : Node ℚ β} (hchild : child ∈ v.children) : s.WholeNode child := by
  obtain ⟨f, b, q, _, hb, hq, hsystem, _⟩ := h.spec.toSettled.child hs h.visited.children hchild
  have hvalue : Whole b.value := by
    rcases hb with rfl | rfl
    · exact f.whole_down
    · exact f.whole_up
  have hlast : v.last.problem.WholeSlacks := hv.systems _ (by simp [Rounds.systems])
  exact ⟨q, hsystem, hlast.withBound? h.spec.refines.valid hvalue hq⟩

end Step

theorem integral_final (hs : s.Lawful) (hdata : s.problem.lp.WholeSlacks) {run : SearchRun ℚ β}
    (hrun : s.run? = some run) (hresolved : ∀ v ∈ run.visits, ∀ c ∈ v.cuts, c.SourceResolved) :
    (∀ node ∈ run.final.frontier.nodes, s.WholeNode node) ∧
      ∀ v ∈ run.visits, v.toRounds.Integral := by
  have hfinal := step_induction hs (P := fun _ q => q.WholeSlacks) (R := fun v => v.toRounds.Integral)
    hdata ?_ hrun hresolved
  · exact ⟨hfinal.2, hfinal.1⟩
  intro t node p t' v h hwhole hv
  have hintegral := h.integral hs ⟨p, h.system, hwhole⟩ hv
  exact ⟨hintegral, fun child hchild => h.wholeNode_child hs hintegral hchild⟩

end Search

/-- On whole data, and as long as the source rows of the cuts are resolved, every system of a
branch-and-cut search has whole slacks at whole points, and no cut loses one. -/
theorem branchAndCut_keeps_whole (p : MixedProblem ℚ) (settings : SearchSettings ℚ)
    (hA : ∀ row ∈ p.lp.A, ∀ a ∈ row, Whole a) (hb : ∀ v ∈ p.lp.b, Whole v) :
    ∃ run, (branchAndCut p settings).run? = some run ∧
      ((∀ v ∈ run.visits, ∀ c ∈ v.cuts, c.SourceResolved) →
        (∀ v ∈ run.visits, ∀ q ∈ v.systems, q.WholeSlacks) ∧
        (∀ node ∈ run.final.frontier.nodes, node.store.WholeSlacks) ∧
        ∀ y, (∀ v ∈ y, Whole v) → run.Keeps y) := by
  have hs := Search.lawful_branchAndCut p settings
  obtain ⟨run, hrun⟩ := Search.exists_run hs
  refine ⟨run, hrun, fun hresolved => ?_⟩
  obtain ⟨hopen, hvisits⟩ :=
    Search.integral_final hs (Problem.wholeSlacks_of_data hA hb) hrun hresolved
  refine ⟨fun v hv => (hvisits v hv).systems, fun node hnode => ?_, fun y hy v hv => ?_⟩
  · obtain ⟨q, hq, hwhole⟩ := hopen node hnode
    obtain rfl : node.store = q := Option.some.inj hq
    exact hwhole
  · exact (hvisits v hv).keeps y hy

theorem branchAndCut_keeps_whole_workshop :
    ∃ run, (branchAndCut workshop { tolerance := 0 }).run? = some run ∧
      0 < run.solution.cutsAdded ∧ (∀ v ∈ run.visits, ∀ c ∈ v.cuts, c.SourceResolved) ∧
      (∀ v ∈ run.visits, ∀ q ∈ v.systems, q.WholeSlacks) ∧
      ∀ y, (∀ v ∈ y, Whole v) → run.Keeps y := by
  obtain ⟨run, hrun, hkeeps⟩ := branchAndCut_keeps_whole workshop { tolerance := 0 }
    (by decide +kernel) (by decide +kernel)
  have heval : ((branchAndCut workshop { tolerance := 0 }).run?).any (fun run =>
      decide (0 < run.solution.cutsAdded ∧
        ∀ v ∈ run.visits, ∀ c ∈ v.cuts, c.SourceResolved)) = true := by decide +kernel
  rw [hrun, Option.any_some, decide_eq_true_eq] at heval
  obtain ⟨hcuts, hresolved⟩ := heval
  obtain ⟨hsystems, _, hkept⟩ := hkeeps hresolved
  exact ⟨run, hrun, hcuts, hresolved, hsystems, hkept⟩

end IntegerPrograms
