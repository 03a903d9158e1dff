import Mathlib
import IntegerPrograms.Proofs.Tableau.Basis

set_option autoImplicit false

namespace IntegerPrograms

structure Problem.ImprovingRay (p : Problem ℚ) (d : Fin p.numVars → ℚ) : Prop where
  nonneg : ∀ j, 0 ≤ d j
  rows : ∀ k, ∑ j, p.coef k j * d j ≤ 0
  cost : ∑ j, p.cost j * d j < 0

namespace Tableau

variable {n m : Nat} {t u : Tableau ℚ n m}

/-- One unit of a column, and the basic columns as they have to follow. -/
def direction (t : Tableau ℚ n m) (k j : Fin (n + m + 1)) : ℚ :=
  (if j = k then 1 else 0) - ∑ i, if t.basic i = j then t.get i.castSucc k else 0

theorem rowAt_direction (t u : Tableau ℚ n m) (k : Fin (n + m + 1)) (l : Fin (m + 1)) :
    u.rowAt l (t.direction k) =
      u.get l k - ∑ i, u.get l (t.basic i) * t.get i.castSucc k := by
  simp only [rowAt, direction, mul_sub, Finset.sum_sub_distrib, mul_ite, mul_one, mul_zero,
    Finset.mul_sum]
  congr 1
  · simp
  · rw [Finset.sum_comm]
    simp

theorem Canonical.rowAt_direction (hu : u.Canonical) (hb : t.basic = u.basic)
    (k : Fin (n + m + 1)) :
    (∀ i : Fin m, u.rowAt i.castSucc (t.direction k) =
      u.get i.castSucc k - t.get i.castSucc k) ∧
    u.rowAt (Fin.last m) (t.direction k) = u.get (Fin.last m) k := by
  constructor
  · intro i
    rw [Tableau.rowAt_direction, hb]
    simp [hu.get_basic]
  · rw [Tableau.rowAt_direction, hb]
    simp [hu.get_basic, (Fin.castSucc_ne_last _).symm]

theorem ext_get (hget : ∀ i j, t.get i j = u.get i j) (hb : t.basic = u.basic) : t = u := by
  obtain ⟨cells, basis⟩ := t
  obtain ⟨cells', basis'⟩ := u
  have hcells : cells = cells' := by
    refine Vector.ext fun i hi => Vector.ext fun j hj => ?_
    exact hget ⟨i, hi⟩ ⟨j, hj⟩
  have hbasis : basis = basis' := by
    refine Vector.ext fun i hi => ?_
    exact congrFun hb ⟨i, hi⟩
  rw [hcells, hbasis]

/-- In Gauss-Jordan form the basis determines the tableau, among those with the same solutions. -/
theorem Canonical.eq_of_basic (ht : t.Canonical) (hu : u.Canonical) (h : t.Equivalent u)
    (hb : t.basic = u.basic) : t = u := by
  refine ext_get (fun l k => ?_) hb
  obtain ⟨hrows, hlast⟩ := ht.rowAt_direction rfl k
  obtain ⟨hrows', hlast'⟩ := hu.rowAt_direction hb k
  have hzero (i : Fin m) : u.rowAt i.castSucc (t.direction k) = 0 := by
    refine (h _).1.1 (fun i => ?_) i
    rw [hrows, sub_self]
  refine Fin.lastCases ?_ (fun i => ?_) l
  · rw [← hlast, ← hlast', (h _).2 hzero]
  · have hi := hzero i
    rw [hrows'] at hi
    exact (sub_eq_zero.1 hi).symm

theorem Canonical.direction_last (h : t.Canonical) (k : Fin (n + m)) :
    t.direction k.castSucc (Fin.last (n + m)) = 0 := by
  have hne (i : Fin m) : t.basic i ≠ Fin.last (n + m) := by
    intro he
    have hlt := h.basic_lt i
    rw [he] at hlt
    exact lt_irrefl _ hlt
  simp [direction, hne, (Fin.castSucc_ne_last k).symm]

theorem direction_nonneg {k : Fin (n + m + 1)}
    (hcol : ∀ i : Fin m, t.get i.castSucc k ≤ 0) (j : Fin (n + m + 1)) :
    0 ≤ t.direction k j := by
  have hmoved : ∑ i, (if t.basic i = j then t.get i.castSucc k else 0) ≤ 0 := by
    refine Finset.sum_nonpos fun i _ => ?_
    split
    · exact hcol i
    · exact le_rfl
  rw [direction]
  split <;> linarith

theorem vec_eta (w : Fin (n + m + 1) → ℚ) :
    vec (fun j => w (decisionCol j)) (fun k => w (slackCol k)) (w (Fin.last (n + m))) = w := by
  funext j
  refine Fin.lastCases ?_ (fun j => ?_) j
  · simp [vec]
  · refine Fin.addCases (fun j => ?_) (fun k => ?_) j
    · simp only [vec, Fin.snoc_castSucc, Fin.append_left]
      rfl
    · simp only [vec, Fin.snoc_castSucc, Fin.append_right]
      rfl

/-- A column with a negative reduced cost and no positive entry is a ray of the problem. -/
theorem Reachable.improvingRay {p : Problem ℚ} {t : Tableau ℚ p.numVars p.numRows} (hp : p.Valid)
    (ht : Reachable p t) (hcan : t.Canonical) {k : Fin (p.numVars + p.numRows)}
    (hcost : t.reducedCost k.castSucc < 0)
    (hcol : ∀ i : Fin p.numRows, t.get i.castSucc k.castSucc ≤ 0) :
    p.ImprovingRay fun j => t.direction k.castSucc (decisionCol j) := by
  obtain ⟨hrows, hlast⟩ := hcan.rowAt_direction rfl k.castSucc
  have hzero (i : Fin p.numRows) :
      (slackBasis p).rowAt i.castSucc (t.direction k.castSucc) = 0 := by
    refine (ht.equivalent _).1.1 (fun i => ?_) i
    rw [hrows, sub_self]
  have hcosts := (ht.equivalent _).2 hzero
  rw [hlast, ← vec_eta (t.direction k.castSucc), rowAt_slackBasis_last] at hcosts
  refine ⟨fun j => direction_nonneg hcol _, fun i => ?_, hcosts ▸ hcost⟩
  have hrow := hzero i
  rw [← vec_eta (t.direction k.castSucc), rowAt_slackBasis hp, hcan.direction_last] at hrow
  have hslack := direction_nonneg hcol (slackCol i)
  linarith

end Tableau

namespace Problem.ImprovingRay

variable {p : Problem ℚ} {d : Fin p.numVars → ℚ}

theorem not_dualFeasible (h : p.ImprovingRay d) (hp : p.Valid)
    {t : Tableau ℚ p.numVars p.numRows} (ht : Tableau.Reachable p t) :
    ¬ ∀ j : Fin (p.numVars + p.numRows), 0 ≤ t.reducedCost j.castSucc := by
  intro hcost
  have hrow := (ht.rowAt_column hp d 0).2
  rw [Tableau.rowAt_vec] at hrow
  have hdecision : 0 ≤ ∑ j, t.get (Fin.last _) (Tableau.decisionCol j) * d j :=
    Finset.sum_nonneg fun j _ => mul_nonneg (hcost (Fin.castAdd p.numRows j)) (h.nonneg j)
  have hslack : 0 ≤ ∑ k, t.get (Fin.last _) (Tableau.slackCol k) *
      -(∑ j, p.coef k j * d j + p.limit k * 0) := by
    refine Finset.sum_nonneg fun k _ => mul_nonneg (hcost (Fin.natAdd p.numVars k)) ?_
    linarith [h.rows k]
  linarith [h.cost]

theorem feasible_add (h : p.ImprovingRay d) (hp : p.Valid) {v : Fin p.numVars → ℚ}
    (hv : p.Feasible (List.ofFn v)) {a : ℚ} (ha : 0 ≤ a) :
    p.Feasible (List.ofFn fun j => v j + a * d j) := by
  obtain ⟨hrow, hnonneg⟩ := (feasible_ofFn hp v).1 hv
  refine (feasible_ofFn hp _).2 ⟨fun k => ?_, fun j => ?_⟩
  · have hsplit : ∑ j, p.coef k j * (v j + a * d j) =
        ∑ j, p.coef k j * v j + a * ∑ j, p.coef k j * d j := by
      rw [Finset.mul_sum, ← Finset.sum_add_distrib]
      exact Finset.sum_congr rfl fun j _ => by ring
    rw [hsplit]
    linarith [hrow k, mul_nonpos_of_nonneg_of_nonpos ha (h.rows k)]
  · exact add_nonneg (hnonneg j) (mul_nonneg ha (h.nonneg j))

theorem objective_add (d v : Fin p.numVars → ℚ) (a : ℚ) :
    p.objective (List.ofFn fun j => v j + a * d j) =
      p.objective (List.ofFn v) + a * ∑ j, p.cost j * d j := by
  rw [objective_ofFn, objective_ofFn, Finset.mul_sum, ← Finset.sum_add_distrib]
  exact Finset.sum_congr rfl fun j _ => by ring

theorem eventually_lt (h : p.ImprovingRay d) (v : Fin p.numVars → ℚ) (bound : ℚ) :
    ∃ a₀ : ℚ, 0 ≤ a₀ ∧
      ∀ a, a₀ ≤ a → p.objective (List.ofFn fun j => v j + a * d j) < bound := by
  obtain ⟨a₀, ha₀⟩ := exists_nat_gt ((p.objective (List.ofFn v) - bound) / -∑ j, p.cost j * d j)
  refine ⟨a₀, a₀.cast_nonneg, fun a hle => ?_⟩
  have ha := ha₀.trans_le hle
  rw [div_lt_iff₀ (neg_pos.2 h.cost)] at ha
  rw [objective_add]
  linarith

theorem exists_lt (h : p.ImprovingRay d) (hp : p.Valid) {y : List ℚ} (hy : p.Feasible y)
    (bound : ℚ) : ∃ y, p.Feasible y ∧ p.objective y < bound := by
  obtain ⟨v, rfl⟩ := exists_ofFn hy.1
  obtain ⟨a, ha, hlt⟩ := h.eventually_lt v bound
  exact ⟨_, h.feasible_add hp hy ha, hlt a le_rfl⟩

end Problem.ImprovingRay

end IntegerPrograms
