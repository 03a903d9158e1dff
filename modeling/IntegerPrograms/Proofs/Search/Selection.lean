import Mathlib
import IntegerPrograms.Proofs.Sums
import IntegerPrograms.Proofs.Search.Branching

set_option autoImplicit false

namespace IntegerPrograms

/-- Values are compared in a linear order, and adding the tolerance of ties is monotone. -/
structure Scalar.OrdersTies (α : Type) [Scalar α] : Prop extends Scalar.ComparesNumbers α where
  le_add_ratio : ∀ {a b : α}, a ≤ b → a ≤ b + Tolerance.ratio

theorem Scalar.ordersTies_rat : Scalar.OrdersTies ℚ where
  toComparesNumbers := comparesNumbers_rat
  le_add_ratio h := by
    rw [Tolerance.ratio_rat]
    linarith

theorem Scalar.ordersTies_float : Scalar.OrdersTies Float where
  toComparesNumbers := comparesNumbers_float
  le_add_ratio h := comparesNumbers_float.trans h
    (le_add_of_nonneg (le_iff_rank.1 h).2.1 (by decide) (by decide))

variable {α : Type} [Scalar α]

def MixedProblem.Offers (p : MixedProblem α) (x : List α) (tol : α) (f : Fractional α) : Prop :=
  f.var ∈ p.integers ∧ x[f.var]? = some f.value ∧ f.score = fractionality f.value ∧ tol < f.score

def BranchingRule.Prefers : BranchingRule → Fractional α → Fractional α → Prop
  | .firstFractional, f, g => f.var ≤ g.var
  | .mostFractional, f, g =>
    g.score ≤ f.score + Tolerance.ratio ∧ (g.var < f.var → g.score < f.score)

theorem map_eq_of_mapM {ι κ : Type} {f : ι → Option κ} {g : κ → ι} {l : List ι} {r : List κ}
    (hg : ∀ i b, f i = some b → g b = i) (h : l.mapM f = some r) : r.map g = l := by
  induction l generalizing r with
  | nil =>
    obtain rfl : [] = r := by simpa using h
    rfl
  | cons i l ih =>
    simp only [List.mapM_cons, Option.bind_eq_bind, Option.bind_eq_some_iff] at h
    obtain ⟨b, hb, rest, hrest, he⟩ := h
    obtain rfl : b :: rest = r := by simpa using he
    rw [List.map_cons, hg i b hb, ih hrest]

theorem MixedProblem.fractional?_sorted {p : MixedProblem α} {x : List α} {tol : α}
    {l : List (Fractional α)} (h : p.fractional? x tol = some l) :
    l.Pairwise fun f g => f.var < g.var := by
  simp only [fractional?, Option.bind_eq_bind, Option.bind_eq_some_iff] at h
  obtain ⟨all, hall, he⟩ := h
  obtain rfl := Option.some.inj he
  have hvars : all.map Fractional.var = p.integers := by
    refine map_eq_of_mapM (fun i f hf => ?_) hall
    obtain ⟨v, _, rfl⟩ := Option.map_eq_some_iff.1 hf
    rfl
  have hsorted := p.integers_sorted
  rw [← hvars, List.pairwise_map] at hsorted
  exact hsorted.filter _

namespace Fractional

theorem most?_append_singleton (l : List (Fractional α)) (f : Fractional α) :
    most? (l ++ [f]) = better (most? l) f := by
  rw [most?_eq_foldl, most?_eq_foldl, List.foldl_append]
  rfl

theorem most?_mem {l : List (Fractional α)} {f : Fractional α} (h : most? l = some f) : f ∈ l := by
  rw [most?_eq_foldl] at h
  exact (mem_of_foldl_better h).resolve_left (Option.some_ne_none f).symm

theorem lt_of_exceeds (h : Scalar.OrdersTies α) {a b c : α} (ha : Scalar.IsNumber a)
    (hc : Scalar.IsNumber c) (hab : a ≤ b + Tolerance.ratio) (hbc : ¬ c ≤ b + Tolerance.ratio) :
    a < c :=
  (h.lt_iff ha hc).2 fun hca => hbc (h.trans hca hab)

/-- The scan from left to right keeps a candidate that no other exceeds by more than the tolerance,
and moves on only to one that exceeds all before it. -/
theorem most?_prefers (h : Scalar.OrdersTies α) {l : List (Fractional α)}
    (hsorted : l.Pairwise fun f g => f.var < g.var) (hnum : ∀ f ∈ l, Scalar.IsNumber f.score)
    {f : Fractional α} (hf : most? l = some f) :
    ∀ g ∈ l, BranchingRule.Prefers .mostFractional f g := by
  induction l using List.reverseRecOn generalizing f with
  | nil => cases hf
  | append_singleton l c ih =>
    obtain ⟨hl, _, hlast⟩ := List.pairwise_append.1 hsorted
    rw [List.forall_mem_append, List.forall_mem_singleton] at hnum
    obtain ⟨hnum, hc⟩ := hnum
    have hself : c.score ≤ c.score + Tolerance.ratio := h.le_add_ratio hc
    rw [most?_append_singleton] at hf
    rw [List.forall_mem_append, List.forall_mem_singleton]
    cases hbest : most? l with
    | none =>
      rw [most?_eq_foldl] at hbest
      obtain rfl := (foldl_better_none hbest).2
      obtain rfl : c = f := by simpa [most?, better] using hf
      exact ⟨by simp, hself, fun hlt => absurd hlt (lt_irrefl _)⟩
    | some g =>
      have hbetter := ih hl hnum hbest
      rw [hbest, better] at hf
      split at hf
      next hkeep =>
        obtain rfl := Option.some.inj hf
        have hlt : g.var < c.var := hlast g (most?_mem hbest) c (by simp)
        exact ⟨hbetter, hkeep, fun hgt => absurd hgt hlt.asymm⟩
      next hmove =>
        obtain rfl := Option.some.inj hf
        refine ⟨fun k hk => ?_, hself, fun hlt => absurd hlt (lt_irrefl _)⟩
        have hlt : k.score < c.score :=
          lt_of_exceeds h (hnum k hk) hc (hbetter k hk).1 hmove
        exact ⟨h.le_add_ratio (h.le_of_lt (hnum k hk) hc hlt), fun _ => hlt⟩

end Fractional

theorem BranchingRule.pick?_prefers (h : Scalar.OrdersTies α) {rule : BranchingRule}
    {l : List (Fractional α)} (hsorted : l.Pairwise fun f g => f.var < g.var)
    (hnum : ∀ f ∈ l, Scalar.IsNumber f.score) {f : Fractional α} (hf : rule.pick? l = some f) :
    ∀ g ∈ l, rule.Prefers f g := by
  cases rule with
  | firstFractional =>
    obtain ⟨rest, rfl⟩ := List.head?_eq_some_iff.1 hf
    intro g hg
    rcases List.mem_cons.1 hg with rfl | hg
    · exact le_refl g.var
    · exact ((List.pairwise_cons.1 hsorted).1 g hg).le
  | mostFractional => exact Fractional.most?_prefers h hsorted hnum hf

theorem MixedProblem.forall_not_offers_iff (p : MixedProblem α) (x : List α) (tol : α) :
    (∀ f, ¬ p.Offers x tol f) ↔
      ∀ i ∈ p.integers, ∀ v, x[i]? = some v → ¬ tol < fractionality v := by
  constructor
  · exact fun h i hi v hv hlt => h ⟨i, v, fractionality v⟩ ⟨hi, hv, rfl, hlt⟩
  · rintro h f ⟨hi, hv, hscore, hlt⟩
    rw [hscore] at hlt
    exact h f.var hi f.value hv hlt

/-- A point with an entry for every variable gets an answer: none if and only if it has no fractional
variable, which is to say that all distances are within the tolerance where they compare with it, and
else a fractional variable that the rule prefers to all others. -/
theorem MixedProblem.select?_prefers (h : Scalar.OrdersTies α) (p : MixedProblem α)
    (rule : BranchingRule) {x : List α} (hx : x.length = p.lp.numVars) (tol : α) :
    ∃ choice, p.select? rule x tol = some choice ∧
      (choice = none ↔ ∀ f, ¬ p.Offers x tol f) ∧
      (Scalar.IsNumber tol →
        (∀ i ∈ p.integers, ∀ v, x[i]? = some v → Scalar.IsNumber (fractionality v)) →
        (choice = none ↔ ∀ i ∈ p.integers, ∀ v, x[i]? = some v → fractionality v ≤ tol)) ∧
      ∀ f, choice = some f → p.Offers x tol f ∧ ∀ g, p.Offers x tol g → rule.Prefers f g := by
  obtain ⟨l, hl, hmem⟩ := p.fractional?_spec hx tol
  have hnone : rule.pick? l = none ↔ ∀ f, ¬ p.Offers x tol f := by
    constructor
    · intro hpick f hf
      have hin := (hmem f).2 hf
      rw [BranchingRule.pick?_none hpick] at hin
      cases hin
    · intro hf
      cases hpick : rule.pick? l with
      | none => rfl
      | some f => exact absurd ((hmem f).1 (BranchingRule.pick?_mem hpick)) (hf f)
  refine ⟨rule.pick? l, by rw [select?, hl]; rfl, hnone, fun htol hscores => ?_, fun f hf => ?_⟩
  · rw [hnone, forall_not_offers_iff]
    refine forall₂_congr fun i hi => forall₂_congr fun v hv => ?_
    rw [h.lt_iff htol (hscores i hi v hv), not_not]
  · refine ⟨(hmem f).1 (BranchingRule.pick?_mem hf), fun g hg => ?_⟩
    have hnum (k : Fractional α) (hk : k ∈ l) : Scalar.IsNumber k.score :=
      h.isNumber_of_lt ((hmem k).1 hk).2.2.2
    exact BranchingRule.pick?_prefers h (fractional?_sorted hl) hnum hf g ((hmem g).2 hg)

def quartet : MixedProblem ℚ where
  lp := ⟨[1, 1, 1, 1], [[1, 1, 1, 1]], [2]⟩
  integers := [0, 1, 2, 3]
  valid := by decide +kernel
  integers_ne_nil := by decide
  integers_sorted := by decide
  integers_lt := by decide

def nearTies : List ℚ :=
  [3 / 10, 3 / 10 + 8 / 10 ^ 10, 3 / 10 + 16 / 10 ^ 10, 3 / 10 + 24 / 10 ^ 10]

/-- The choice among near ties may be neither the first nor the most fractional variable. -/
theorem MixedProblem.select?_prefers_quartet :
    ∃ f, quartet.select? .mostFractional nearTies 0 = some (some f) ∧ f.var = 2 ∧
      quartet.Offers nearTies 0 f ∧
      ∀ g, quartet.Offers nearTies 0 g → BranchingRule.Prefers .mostFractional f g := by
  obtain ⟨choice, hchoice, _, _, hprefers⟩ :=
    select?_prefers Scalar.ordersTies_rat quartet .mostFractional (x := nearTies) rfl 0
  have heval : (quartet.select? .mostFractional nearTies 0).any (fun choice =>
      choice.any fun f => decide (f.var = 2)) = true := by decide +kernel
  rw [hchoice, Option.any_some] at heval
  obtain ⟨f, rfl, hf⟩ := (Option.any_eq_true _ _).1 heval
  exact ⟨f, hchoice, of_decide_eq_true hf, hprefers f rfl⟩

end IntegerPrograms
