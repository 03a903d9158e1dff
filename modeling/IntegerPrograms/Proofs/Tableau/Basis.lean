import Mathlib
import IntegerPrograms.Proofs.Tableau.Solutions

/-!
The basis of a tableau. While no pivot passes over a nonzero entry, every basic column is a unit
column with reduced cost zero, and the point that a tableau is read off as solves all its rows.
-/

set_option autoImplicit false

namespace IntegerPrograms.Tableau

variable {n m : Nat} {t : Tableau ℚ n m}

/-- Gauss-Jordan form: basic columns are variables and unit columns. -/
structure Canonical (t : Tableau ℚ n m) : Prop where
  basic_lt : ∀ i, (t.basic i).val < n + m
  get_basic : ∀ (i : Fin m) (l : Fin (m + 1)),
    t.get l (t.basic i) = if l = i.castSucc then 1 else 0

/-- Basic columns are variables and unit columns over the constraints, whatever they cost. -/
structure UnitBasis (t : Tableau ℚ n m) : Prop where
  basic_lt : ∀ i, (t.basic i).val < n + m
  get_basic : ∀ i l : Fin m, t.get l.castSucc (t.basic i) = if l = i then 1 else 0

theorem Canonical.unitBasis (h : t.Canonical) : t.UnitBasis :=
  ⟨h.basic_lt, fun i l => by simp [h.get_basic]⟩

def Eliminates (t : Tableau ℚ n m) (k : Fin (n + m + 1)) : Prop :=
  ∀ l, t.factor k l = t.get l k

/-- A pivot on this element skips no nonzero entry in its column. The element itself may be small. -/
def Sweeps (t : Tableau ℚ n m) (r : Fin m) (k : Fin (n + m + 1)) : Prop :=
  ∀ l, l ≠ r.castSucc → t.get l k ≠ 0 → Tolerance.pivot < |t.get l k|

instance (t : Tableau ℚ n m) (r : Fin m) (k : Fin (n + m + 1)) : Decidable (t.Sweeps r k) :=
  inferInstanceAs (Decidable (∀ _, _))

theorem Sweeps.factor_eq {r : Fin m} {k : Fin (n + m + 1)} (h : t.Sweeps r k) {l : Fin (m + 1)}
    (hl : l ≠ r.castSucc) : t.factor k l = t.get l k := by
  rw [factor]
  split
  · rfl
  · by_contra hne
    exact absurd (h l hl (Ne.symm hne)) ‹_›

theorem Eliminates.sweeps {k : Fin (n + m + 1)} (h : t.Eliminates k) (r : Fin m) :
    t.Sweeps r k := by
  intro l _ hne
  by_contra hskip
  have hfactor := h l
  rw [factor, if_neg hskip] at hfactor
  exact hne hfactor.symm

theorem canonical_slackBasis {p : Problem ℚ} (hp : p.Valid) : (slackBasis p).Canonical := by
  have hbasic (i : Fin p.numRows) : (slackBasis p).basic i = slackCol i :=
    Fin.ext (basic_slackBasis p i)
  refine ⟨fun i => ?_, fun i l => ?_⟩
  · rw [basic_slackBasis]
    exact Nat.add_lt_add_left i.isLt _
  · rw [hbasic]
    refine Fin.lastCases ?_ (fun l => ?_) l
    · rw [if_neg (Fin.castSucc_ne_last i).symm]
      refine (reducedCost_slackBasis p _).trans ?_
      rw [dif_neg (by simp)]
    · rw [get_slackBasis_slack hp]
      simp [eq_comm]

theorem UnitBasis.basic_injective (h : t.UnitBasis) : Function.Injective t.basic := by
  intro i i' he
  have hi := h.get_basic i i
  rw [if_pos rfl, he, h.get_basic i' i] at hi
  by_contra hne
  rw [if_neg hne] at hi
  exact zero_ne_one hi

theorem Canonical.basic_injective (h : t.Canonical) : Function.Injective t.basic :=
  h.unitBasis.basic_injective

theorem Canonical.pivot (h : t.Canonical) (r : Fin m) (k : Fin (n + m))
    (hk : t.get r.castSucc k.castSucc ≠ 0) (he : t.Sweeps r k.castSucc) :
    (t.pivot r k.castSucc).Canonical := by
  refine ⟨fun i => ?_, fun i l => ?_⟩
  · rw [basic_pivot]
    split
    · exact k.isLt
    · exact h.basic_lt i
  · rw [basic_pivot]
    split
    next hi =>
      rw [Fin.ext hi]
      by_cases hl : l = r.castSucc
      · rw [hl, if_pos rfl, get_pivot_self, div_self hk]
      · rw [if_neg hl, get_pivot_ne t r _ _ hl, he.factor_eq hl, div_self hk]
        ring
    next hi =>
      have hr : t.get r.castSucc (t.basic i) = 0 := by
        rw [h.get_basic, if_neg]
        exact fun hc => hi (congrArg Fin.val (Fin.castSucc_injective m hc)).symm
      by_cases hl : l = r.castSucc
      · rw [hl, get_pivot_self, hr, zero_div, if_neg]
        exact fun hc => hi (congrArg Fin.val (Fin.castSucc_injective m hc)).symm
      · rw [get_pivot_ne t r _ _ hl, hr, h.get_basic]
        ring

theorem Canonical.pivot_iff (h : t.Canonical) (r : Fin m) (k : Fin (n + m))
    (hk : t.get r.castSucc k.castSucc ≠ 0) :
    (t.pivot r k.castSucc).Canonical ↔ t.Sweeps r k.castSucc := by
  refine ⟨fun hp l hl hne => ?_, h.pivot r k hk⟩
  have hbasic : (t.pivot r k.castSucc).basic r = k.castSucc := by
    rw [basic_pivot, if_pos rfl]
  have hzero := hp.get_basic r l
  rw [hbasic, if_neg hl, get_pivot_ne t r _ _ hl, div_self hk, mul_one, sub_eq_zero] at hzero
  by_contra hskip
  rw [factor, if_neg hskip] at hzero
  exact hne hzero

/-- A tableau that pivots on nonzero elements lead to from the slack basis, none of which skips a
nonzero entry in its column. -/
inductive Swept (p : Problem ℚ) : Tableau ℚ p.numVars p.numRows → Prop
  | start : Swept p (slackBasis p)
  | pivot {t : Tableau ℚ p.numVars p.numRows} (r : Fin p.numRows)
      (k : Fin (p.numVars + p.numRows)) (ht : Swept p t) (h : t.get r.castSucc k.castSucc ≠ 0)
      (hk : t.Sweeps r k.castSucc) : Swept p (t.pivot r k.castSucc)

theorem Swept.reachable {p : Problem ℚ} {t : Tableau ℚ p.numVars p.numRows} (ht : Swept p t) :
    Reachable p t := by
  induction ht with
  | start => exact .start
  | pivot r k _ h _ ih => exact .pivot r k ih h

theorem Swept.canonical {p : Problem ℚ} (hp : p.Valid) {t : Tableau ℚ p.numVars p.numRows}
    (ht : Swept p t) : t.Canonical := by
  induction ht with
  | start => exact canonical_slackBasis hp
  | pivot r k _ h hk ih => exact ih.pivot r k h hk

/-- Gauss-Jordan form lasts through any number of pivots: the basic columns are distinct variables,
and each is the unit column of its row with reduced cost zero. A further pivot keeps the form exactly
if it skips no nonzero entry either. -/
theorem swept_gaussJordan {p : Problem ℚ} (hp : p.Valid) {t : Tableau ℚ p.numVars p.numRows}
    (ht : Swept p t) :
    Function.Injective t.basic ∧
    (∀ i : Fin p.numRows, (t.basic i).val < p.numVars + p.numRows ∧
      (∀ l : Fin p.numRows, t.get l.castSucc (t.basic i) = if l = i then 1 else 0) ∧
      t.reducedCost (t.basic i) = 0) ∧
    ∀ (r : Fin p.numRows) (k : Fin (p.numVars + p.numRows)), t.get r.castSucc k.castSucc ≠ 0 →
      ((t.pivot r k.castSucc).Canonical ↔ t.Sweeps r k.castSucc) := by
  have hform := ht.canonical hp
  have hrow (i : Fin p.numRows) : t.reducedCost (t.basic i) = 0 := by
    rw [reducedCost, hform.get_basic, if_neg (Fin.castSucc_ne_last i).symm]
  exact ⟨hform.basic_injective,
    fun i => ⟨hform.basic_lt i, hform.unitBasis.get_basic i, hrow i⟩, hform.pivot_iff⟩

def faint : Problem ℚ := ⟨[-1, -2], [[1 / 10 ^ 11, 1], [0, 1]], [4, 3]⟩

theorem swept_gaussJordan_faint :
    ∃ t : Tableau ℚ faint.numVars faint.numRows, Swept faint t ∧
      (t.basic ⟨0, by decide⟩).val = 0 ∧ (t.basic ⟨1, by decide⟩).val = 1 ∧
      Function.Injective t.basic ∧ ∀ i, t.reducedCost (t.basic i) = 0 := by
  have hfirst : Swept faint ((slackBasis faint).pivot ⟨0, by decide⟩ ⟨0, by decide⟩) :=
    .pivot ⟨0, by decide⟩ ⟨0, by decide⟩ .start (by decide +kernel) (by decide +kernel)
  have hsecond : Swept faint (((slackBasis faint).pivot ⟨0, by decide⟩ ⟨0, by decide⟩).pivot
      ⟨1, by decide⟩ ⟨1, by decide⟩) :=
    .pivot ⟨1, by decide⟩ ⟨1, by decide⟩ hfirst (by decide +kernel) (by decide +kernel)
  obtain ⟨hinjective, hrows, _⟩ := swept_gaussJordan (by decide +kernel) hsecond
  exact ⟨_, hsecond, by decide +kernel, by decide +kernel, hinjective, fun i => (hrows i).2.2⟩

theorem UnitBasis.of_proper (h : t.basisProper = true)
    (hunit : ∀ i l : Fin m, t.get l.castSucc (t.basic i) = if l = i then 1 else 0) : t.UnitBasis :=
  ⟨fun i => of_decide_eq_true (List.all_eq_true.1 h i (List.mem_finRange i)), hunit⟩

theorem value_cases (t : Tableau ℚ n m) (j : Fin (n + m + 1)) :
    t.value j = 0 ∨ ∃ i, t.basic i = j ∧ t.value j = t.rhs i.castSucc := by
  rw [value]
  cases hfind : (List.finRange m).reverse.find? fun i => t.basic i == j with
  | none => exact .inl rfl
  | some i =>
    have hbasic := List.find?_some hfind
    exact .inr ⟨i, beq_iff_eq.1 hbasic, rfl⟩

theorem UnitBasis.value_eq_sum (h : t.UnitBasis) (j : Fin (n + m + 1)) :
    t.value j = ∑ i, if t.basic i = j then t.rhs i.castSucc else 0 := by
  rw [value]
  cases hf : (List.finRange m).reverse.find? fun i => t.basic i == j with
  | none =>
    have hne (i : Fin m) : t.basic i ≠ j := by
      simpa using List.find?_eq_none.1 hf i (by simp)
    simp [hne]
  | some i =>
    have hi : t.basic i = j := by simpa using List.find?_some hf
    have heq (l : Fin m) : t.basic l = j ↔ l = i := by
      rw [← hi]
      exact h.basic_injective.eq_iff
    simp [heq]

theorem UnitBasis.value_last (h : t.UnitBasis) : t.value (Fin.last (n + m)) = 0 := by
  rw [h.value_eq_sum]
  refine Finset.sum_eq_zero fun i _ => if_neg fun he => ?_
  have hlt := h.basic_lt i
  rw [he] at hlt
  exact lt_irrefl _ hlt

theorem UnitBasis.sum_get_value (h : t.UnitBasis) (l : Fin (m + 1)) :
    ∑ j, t.get l (decisionCol j) * t.value (decisionCol j) +
      ∑ k, t.get l (slackCol k) * t.value (slackCol k) =
      ∑ i, t.get l (t.basic i) * t.rhs i.castSucc := by
  have hsplit : ∑ j, t.get l (decisionCol j) * t.value (decisionCol j) +
      ∑ k, t.get l (slackCol k) * t.value (slackCol k) = ∑ j, t.get l j * t.value j := by
    rw [Fin.sum_univ_castSucc, h.value_last, mul_zero, add_zero, Fin.sum_univ_add]
    rfl
  rw [hsplit]
  simp only [h.value_eq_sum, Finset.mul_sum, mul_ite, mul_zero]
  rw [Finset.sum_comm]
  simp

theorem UnitBasis.solves_value (h : t.UnitBasis) :
    t.Solves (fun j => t.value (decisionCol j)) fun k => t.value (slackCol k) := by
  intro i
  rw [h.sum_get_value]
  simp [h.get_basic]

/-- A column that is not zero is basic, and then it has no reduced cost. -/
theorem Canonical.value_mul_reducedCost (h : t.Canonical) (j : Fin (n + m + 1)) :
    t.value j * t.reducedCost j = 0 := by
  rcases t.value_cases j with hzero | ⟨i, rfl, _⟩
  · rw [hzero, zero_mul]
  · rw [reducedCost, h.get_basic, if_neg (Fin.castSucc_ne_last i).symm, mul_zero]

theorem Canonical.reducedCost_value (h : t.Canonical) :
    ∑ j, t.reducedCost (decisionCol j) * t.value (decisionCol j) +
      ∑ k, t.reducedCost (slackCol k) * t.value (slackCol k) = 0 := by
  have hterm (j : Fin (n + m + 1)) : t.reducedCost j * t.value j = 0 :=
    (mul_comm _ _).trans (h.value_mul_reducedCost j)
  simp [hterm]

theorem UnitBasis.value_nonneg (h : t.UnitBasis) (hrhs : ∀ i : Fin m, 0 ≤ t.rhs i.castSucc)
    (j : Fin (n + m + 1)) : 0 ≤ t.value j := by
  rw [h.value_eq_sum]
  refine Finset.sum_nonneg fun i _ => ?_
  split
  · exact hrhs i
  · exact le_rfl

end IntegerPrograms.Tableau
