import Mathlib
import IntegerPrograms.Proofs.Exact
import IntegerPrograms.Tableau.Pivot

/-!
What the rows of a tableau say. A pivot on a nonzero element is an invertible change of rows, also
where it passes over a small entry, so every tableau of a problem has the solutions and the costs of
the first one. Its entries are then those of the problem combined by its slack columns.
-/

set_option autoImplicit false

namespace IntegerPrograms.Tableau

variable {n m : Nat}

/-- A tableau that pivots on nonzero elements lead to from the slack basis. -/
inductive Reachable (p : Problem ℚ) : Tableau ℚ p.numVars p.numRows → Prop
  | start : Reachable p (slackBasis p)
  | pivot {t : Tableau ℚ p.numVars p.numRows} (r : Fin p.numRows)
      (k : Fin (p.numVars + p.numRows)) (ht : Reachable p t)
      (h : t.get r.castSucc k.castSucc ≠ 0) : Reachable p (t.pivot r k.castSucc)

def Solves (t : Tableau ℚ n m) (x : Fin n → ℚ) (s : Fin m → ℚ) : Prop :=
  ∀ i : Fin m, ∑ j, t.get i.castSucc (decisionCol j) * x j +
    ∑ k, t.get i.castSucc (slackCol k) * s k = t.rhs i.castSucc

@[simp] theorem val_decisionCol (j : Fin n) : (decisionCol j : Fin (n + m + 1)).val = j := rfl

@[simp] theorem val_slackCol (k : Fin m) : (slackCol k : Fin (n + m + 1)).val = n + k := rfl

def factor (t : Tableau ℚ n m) (k : Fin (n + m + 1)) (i : Fin (m + 1)) : ℚ :=
  if Tolerance.pivot < |t.get i k| then t.get i k else 0

theorem get_pivot_ne (t : Tableau ℚ n m) (r : Fin m) (k j : Fin (n + m + 1)) {i : Fin (m + 1)}
    (h : i ≠ r.castSucc) :
    (t.pivot r k).get i j =
      t.get i j - t.factor k i * (t.get r.castSucc j / t.get r.castSucc k) := by
  rw [get_pivot_of_ne t r k j i (fun hv => h (Fin.ext hv)), Scalar.abs_rat, factor]
  split
  · rfl
  · ring

def rowAt (t : Tableau ℚ n m) (i : Fin (m + 1)) (w : Fin (n + m + 1) → ℚ) : ℚ :=
  ∑ j, t.get i j * w j

theorem rowAt_pivot_self (t : Tableau ℚ n m) (r : Fin m) (k : Fin (n + m + 1))
    (w : Fin (n + m + 1) → ℚ) :
    (t.pivot r k).rowAt r.castSucc w = t.rowAt r.castSucc w / t.get r.castSucc k := by
  rw [rowAt, rowAt, Finset.sum_div]
  refine Finset.sum_congr rfl fun j _ => ?_
  rw [get_pivot_self]
  ring

theorem rowAt_pivot_ne (t : Tableau ℚ n m) (r : Fin m) (k : Fin (n + m + 1))
    (w : Fin (n + m + 1) → ℚ) {i : Fin (m + 1)} (h : i ≠ r.castSucc) :
    (t.pivot r k).rowAt i w =
      t.rowAt i w - t.factor k i * (t.rowAt r.castSucc w / t.get r.castSucc k) := by
  rw [rowAt, rowAt, rowAt, Finset.sum_div, Finset.mul_sum, ← Finset.sum_sub_distrib]
  refine Finset.sum_congr rfl fun j _ => ?_
  rw [get_pivot_ne t r k j h]
  ring

def vec (x : Fin n → ℚ) (s : Fin m → ℚ) (c : ℚ) : Fin (n + m + 1) → ℚ :=
  Fin.snoc (Fin.append x s) c

theorem rowAt_vec (t : Tableau ℚ n m) (i : Fin (m + 1)) (x : Fin n → ℚ) (s : Fin m → ℚ) (c : ℚ) :
    t.rowAt i (vec x s c) =
      ∑ j, t.get i (decisionCol j) * x j + ∑ k, t.get i (slackCol k) * s k + t.rhs i * c := by
  rw [rowAt, Fin.sum_univ_castSucc, Fin.sum_univ_add]
  simp only [vec, Fin.snoc_castSucc, Fin.snoc_last, Fin.append_left, Fin.append_right]
  rfl

theorem solves_iff_rowAt (t : Tableau ℚ n m) (x : Fin n → ℚ) (s : Fin m → ℚ) :
    t.Solves x s ↔ ∀ i : Fin m, t.rowAt i.castSucc (vec x s (-1)) = 0 := by
  refine forall_congr' fun i => ?_
  rw [rowAt_vec]
  constructor <;> intro h <;> linarith

def Equivalent (t u : Tableau ℚ n m) : Prop :=
  ∀ w, ((∀ i : Fin m, t.rowAt i.castSucc w = 0) ↔ ∀ i : Fin m, u.rowAt i.castSucc w = 0) ∧
    ((∀ i : Fin m, u.rowAt i.castSucc w = 0) →
      t.rowAt (Fin.last m) w = u.rowAt (Fin.last m) w)

theorem Equivalent.refl (t : Tableau ℚ n m) : t.Equivalent t :=
  fun _ => ⟨Iff.rfl, fun _ => rfl⟩

theorem Equivalent.trans {t u v : Tableau ℚ n m} (h : t.Equivalent u) (h' : u.Equivalent v) :
    t.Equivalent v := by
  intro w
  refine ⟨(h w).1.trans (h' w).1, fun hv => ?_⟩
  rw [(h w).2 ((h' w).1.2 hv), (h' w).2 hv]

theorem Equivalent.symm {t u : Tableau ℚ n m} (h : t.Equivalent u) : u.Equivalent t := by
  intro w
  refine ⟨(h w).1.symm, fun ht => ?_⟩
  rw [(h w).2 ((h w).1.1 ht)]

theorem equivalent_pivot (t : Tableau ℚ n m) (r : Fin m) (k : Fin (n + m + 1))
    (h : t.get r.castSucc k ≠ 0) : (t.pivot r k).Equivalent t := by
  intro w
  refine ⟨⟨fun hw i => ?_, fun hw i => ?_⟩, fun hw => ?_⟩
  · have hr : t.rowAt r.castSucc w = 0 := by
      have hself := rowAt_pivot_self t r k w
      rw [hw r, eq_comm, div_eq_zero_iff] at hself
      exact hself.resolve_right h
    by_cases hi : i = r
    · rw [hi, hr]
    · have hne := rowAt_pivot_ne t r k w (fun he => hi (Fin.castSucc_injective m he))
      rw [hw i, hr, zero_div, mul_zero, sub_zero] at hne
      exact hne.symm
  · by_cases hi : i = r
    · rw [hi, rowAt_pivot_self, hw r, zero_div]
    · rw [rowAt_pivot_ne t r k w (fun he => hi (Fin.castSucc_injective m he)), hw i, hw r]
      ring
  · rw [rowAt_pivot_ne t r k w (Fin.castSucc_ne_last r).symm, hw r]
    ring

def PivotsTo (t u : Tableau ℚ n m) : Prop :=
  ∃ (r : Fin m) (k : Fin (n + m + 1)), t.get r.castSucc k ≠ 0 ∧ u = t.pivot r k

theorem equivalent_of_pivotsTo {t u : Tableau ℚ n m} (h : Relation.ReflTransGen PivotsTo t u) :
    u.Equivalent t := by
  induction h with
  | refl => exact Equivalent.refl _
  | tail _ hstep ih =>
    obtain ⟨r, k, hk, rfl⟩ := hstep
    exact (equivalent_pivot _ r k hk).trans ih

theorem Reachable.pivotsTo {p : Problem ℚ} {t : Tableau ℚ p.numVars p.numRows}
    (ht : Reachable p t) : Relation.ReflTransGen PivotsTo (slackBasis p) t := by
  induction ht with
  | start => exact .refl
  | pivot r k _ h ih => exact ih.tail ⟨r, k.castSucc, h, rfl⟩

theorem Reachable.equivalent {p : Problem ℚ} {t : Tableau ℚ p.numVars p.numRows}
    (ht : Reachable p t) : t.Equivalent (slackBasis p) :=
  equivalent_of_pivotsTo ht.pivotsTo

section SlackBasis

variable {p : Problem ℚ}

theorem initialEntry_row (hp : p.Valid) (i : Fin p.numRows) (j : Nat) :
    initialEntry p i j =
      if j = p.numVars + p.numRows then p.limit i
      else if j = p.numVars + i then 1
      else if h : j < p.numVars then p.coef i ⟨j, h⟩ else 0 := by
  have hi : i.val < p.A.length := by
    rw [(Problem.valid_iff.1 hp).1]
    exact i.isLt
  have hcols := (Problem.valid_iff.1 hp).2 _ (List.getElem_mem hi)
  have hb : p.b[i.val]?.getD 0 = p.limit i := by
    rw [List.getElem?_eq_getElem (show i.val < p.b.length from i.isLt), Option.getD_some]
    rfl
  rw [initialEntry, if_pos i.isLt, List.getElem?_eq_getElem hi]
  simp only [hb]
  split_ifs with h₁ h₂ h₃
  · rfl
  · rfl
  · rw [Problem.coef, List.getElem?_eq_getElem hi, Option.getD_some]
  · rw [List.getElem?_eq_none (by omega), Option.getD_none]

theorem get_slackBasis_decision (hp : p.Valid) (i : Fin p.numRows) (j : Fin p.numVars) :
    (slackBasis p).get i.castSucc (decisionCol j) = p.coef i j := by
  have hj := j.isLt
  rw [get_slackBasis, Fin.val_castSucc, initialEntry_row hp, val_decisionCol, if_neg (by omega),
    if_neg (by omega), dif_pos hj]

theorem get_slackBasis_slack (hp : p.Valid) (i k : Fin p.numRows) :
    (slackBasis p).get i.castSucc (slackCol k) = if k = i then 1 else 0 := by
  have hk := k.isLt
  rw [get_slackBasis, Fin.val_castSucc, initialEntry_row hp, val_slackCol, if_neg (by omega)]
  by_cases h : k = i
  · rw [if_pos (by rw [h]), if_pos h]
  · have hne : k.val ≠ i.val := fun hv => h (Fin.ext hv)
    rw [if_neg (by omega), dif_neg (by omega), if_neg h]

theorem rhs_slackBasis (hp : p.Valid) (i : Fin p.numRows) :
    (slackBasis p).rhs i.castSucc = p.limit i := by
  rw [rhs, get_slackBasis, Fin.val_castSucc, initialEntry_row hp, Fin.val_last, if_pos rfl]

theorem reducedCost_slackBasis (p : Problem ℚ) (j : Fin (p.numVars + p.numRows + 1)) :
    (slackBasis p).reducedCost j = if h : j.val < p.numVars then p.cost ⟨j, h⟩ else 0 := by
  rw [reducedCost, get_slackBasis, Fin.val_last, initialEntry, if_neg (lt_irrefl _)]
  split_ifs with h
  · rw [List.getElem?_eq_getElem (show j.val < p.c.length from h), Option.getD_some]
    rfl
  · rw [List.getElem?_eq_none (Nat.le_of_not_lt h), Option.getD_none]

theorem rowAt_slackBasis (hp : p.Valid) (i : Fin p.numRows) (x : Fin p.numVars → ℚ)
    (s : Fin p.numRows → ℚ) (c : ℚ) :
    (slackBasis p).rowAt i.castSucc (vec x s c) =
      ∑ j, p.coef i j * x j + s i + p.limit i * c := by
  rw [rowAt_vec, rhs_slackBasis hp]
  simp only [get_slackBasis_decision hp, get_slackBasis_slack hp]
  simp

theorem rowAt_slackBasis_last (p : Problem ℚ) (x : Fin p.numVars → ℚ) (s : Fin p.numRows → ℚ)
    (c : ℚ) :
    (slackBasis p).rowAt (Fin.last p.numRows) (vec x s c) = ∑ j, p.cost j * x j := by
  have hd (j : Fin p.numVars) :
      (slackBasis p).get (Fin.last p.numRows) (decisionCol j) = p.cost j := by
    refine (reducedCost_slackBasis p _).trans ?_
    rw [dif_pos (show (decisionCol j : Fin (p.numVars + p.numRows + 1)).val < p.numVars from j.isLt)]
    rfl
  have hs (k : Fin p.numRows) :
      (slackBasis p).get (Fin.last p.numRows) (slackCol k) = 0 := by
    refine (reducedCost_slackBasis p _).trans ?_
    rw [dif_neg (by simp [slackCol])]
  have hr : (slackBasis p).rhs (Fin.last p.numRows) = 0 := by
    refine (reducedCost_slackBasis p _).trans ?_
    rw [dif_neg (by simp)]
  rw [rowAt_vec, hr]
  simp [hd, hs]

end SlackBasis

/-- The solutions of a tableau of a problem are the points of the problem with their slacks. -/
theorem Equivalent.solves_iff {p : Problem ℚ} {t : Tableau ℚ p.numVars p.numRows} (hp : p.Valid)
    (ht : t.Equivalent (slackBasis p)) (x : Fin p.numVars → ℚ) (s : Fin p.numRows → ℚ) :
    t.Solves x s ↔ ∀ k, s k = p.limit k - ∑ j, p.coef k j * x j := by
  rw [solves_iff_rowAt, (ht _).1]
  refine forall_congr' fun k => ?_
  rw [rowAt_slackBasis hp]
  constructor <;> intro h <;> linarith

namespace Reachable

variable {p : Problem ℚ} {t : Tableau ℚ p.numVars p.numRows}

theorem solves_iff (hp : p.Valid) (ht : Reachable p t) (x : Fin p.numVars → ℚ)
    (s : Fin p.numRows → ℚ) : t.Solves x s ↔ ∀ k, s k = p.limit k - ∑ j, p.coef k j * x j :=
  ht.equivalent.solves_iff hp x s

theorem cost_eq (ht : Reachable p t) {x : Fin p.numVars → ℚ}
    {s : Fin p.numRows → ℚ} (h : t.Solves x s) :
    ∑ j, p.cost j * x j =
      t.objective + (∑ j, t.reducedCost (decisionCol j) * x j +
        ∑ k, t.reducedCost (slackCol k) * s k) := by
  have hw := (ht.equivalent (vec x s (-1))).2 ((ht.equivalent _).1.1 ((solves_iff_rowAt t x s).1 h))
  rw [rowAt_slackBasis_last, rowAt_vec] at hw
  rw [← hw, objective]
  simp only [reducedCost]
  ring

/-- The vector on which the rows of the problem vanish by definition of a column: the column itself
against the slacks it uses up. -/
theorem rowAt_column (hp : p.Valid) (ht : Reachable p t) (x : Fin p.numVars → ℚ) (c : ℚ) :
    (∀ i : Fin p.numRows,
      t.rowAt i.castSucc (vec x (fun k => -(∑ j, p.coef k j * x j + p.limit k * c)) c) = 0) ∧
    t.rowAt (Fin.last p.numRows) (vec x (fun k => -(∑ j, p.coef k j * x j + p.limit k * c)) c) =
      ∑ j, p.cost j * x j := by
  have h₀ (i : Fin p.numRows) : (slackBasis p).rowAt i.castSucc
      (vec x (fun k => -(∑ j, p.coef k j * x j + p.limit k * c)) c) = 0 := by
    rw [rowAt_slackBasis hp]
    ring
  refine ⟨(ht.equivalent _).1.2 h₀, ?_⟩
  rw [(ht.equivalent _).2 h₀, rowAt_slackBasis_last]

theorem get_eq (hp : p.Valid) (ht : Reachable p t) (i : Fin p.numRows) (j : Fin p.numVars) :
    t.get i.castSucc (decisionCol j) = ∑ k, t.get i.castSucc (slackCol k) * p.coef k j := by
  have h := (rowAt_column hp ht (Pi.single j 1) 0).1 i
  rw [rowAt_vec] at h
  simp only [Pi.single_apply, mul_ite, mul_one, mul_zero, Finset.sum_ite_eq', Finset.mem_univ,
    if_true, add_zero, mul_neg, Finset.sum_neg_distrib] at h
  linarith

theorem rhs_eq (hp : p.Valid) (ht : Reachable p t) (i : Fin p.numRows) :
    t.rhs i.castSucc = ∑ k, t.get i.castSucc (slackCol k) * p.limit k := by
  have h := (rowAt_column hp ht 0 1).1 i
  rw [rowAt_vec] at h
  simp only [Pi.zero_apply, mul_zero, Finset.sum_const_zero, zero_add, mul_one, mul_neg,
    Finset.sum_neg_distrib] at h
  linarith

theorem reducedCost_eq (hp : p.Valid) (ht : Reachable p t) (j : Fin p.numVars) :
    t.reducedCost (decisionCol j) =
      p.cost j + ∑ k, t.reducedCost (slackCol k) * p.coef k j := by
  have h := (rowAt_column hp ht (Pi.single j 1) 0).2
  rw [rowAt_vec] at h
  simp only [Pi.single_apply, mul_ite, mul_one, mul_zero, Finset.sum_ite_eq', Finset.mem_univ,
    if_true, add_zero, mul_neg, Finset.sum_neg_distrib] at h
  simp only [reducedCost]
  linarith

theorem objective_eq (hp : p.Valid) (ht : Reachable p t) :
    t.objective = -∑ k, t.reducedCost (slackCol k) * p.limit k := by
  have h := (rowAt_column hp ht 0 1).2
  rw [rowAt_vec] at h
  simp only [Pi.zero_apply, mul_zero, Finset.sum_const_zero, zero_add, mul_one, mul_neg,
    Finset.sum_neg_distrib] at h
  simp only [reducedCost, objective]
  linarith

end Reachable

/-- Pivoting never changes the problem: the slack columns of a reachable tableau say how its rows
are combined from those of the problem, and its solutions are the points of the problem with their
slacks and costs. -/
theorem reachable_keeps_problem {p : Problem ℚ} (hp : p.Valid)
    {t : Tableau ℚ p.numVars p.numRows} (ht : Reachable p t) :
    (∀ i : Fin p.numRows,
      (∀ j, t.get i.castSucc (decisionCol j) = ∑ k, t.get i.castSucc (slackCol k) * p.coef k j) ∧
      t.rhs i.castSucc = ∑ k, t.get i.castSucc (slackCol k) * p.limit k) ∧
    (∀ j, t.reducedCost (decisionCol j) =
      p.cost j + ∑ k, t.reducedCost (slackCol k) * p.coef k j) ∧
    t.objective = -∑ k, t.reducedCost (slackCol k) * p.limit k ∧
    ∀ x s, (t.Solves x s ↔ ∀ k, s k = p.limit k - ∑ j, p.coef k j * x j) ∧
      (t.Solves x s → ∑ j, p.cost j * x j =
        t.objective + (∑ j, t.reducedCost (decisionCol j) * x j +
          ∑ k, t.reducedCost (slackCol k) * s k)) :=
  ⟨fun i => ⟨ht.get_eq hp i, ht.rhs_eq hp i⟩, ht.reducedCost_eq hp, ht.objective_eq hp,
    fun x s => ⟨ht.solves_iff hp x s, ht.cost_eq⟩⟩

def thin : Problem ℚ := ⟨[-1, -2], [[1, 1 / 10 ^ 11], [0, 1]], [4, 3]⟩

theorem reachable_keeps_problem_thin :
    ((slackBasis thin).pivot ⟨1, by decide⟩ ⟨1, by decide⟩).get ⟨0, by decide⟩ ⟨1, by decide⟩ =
      1 / 10 ^ 11 ∧
    ∀ x s, ((slackBasis thin).pivot ⟨1, by decide⟩ ⟨1, by decide⟩).Solves x s ↔
      ∀ k, s k = thin.limit k - ∑ j, thin.coef k j * x j := by
  refine ⟨by decide +kernel, fun x s => ?_⟩
  have ht : Reachable thin ((slackBasis thin).pivot ⟨1, by decide⟩ ⟨1, by decide⟩) :=
    .pivot ⟨1, by decide⟩ ⟨1, by decide⟩ .start (by decide +kernel)
  exact ((reachable_keeps_problem (by decide +kernel) ht).2.2.2 x s).1

end IntegerPrograms.Tableau
