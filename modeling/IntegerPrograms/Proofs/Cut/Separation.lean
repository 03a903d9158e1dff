import Mathlib
import IntegerPrograms.Proofs.Cut.Gomory
import IntegerPrograms.Proofs.Simplex.Optimality

set_option autoImplicit false

namespace IntegerPrograms

namespace Cut

variable {n m : Nat}

theorem share?_ne_none {t : Tableau ℚ n m} {row : Fin m} {j : Fin (n + m + 1)}
    (h : counted (t.get row.castSucc j) ≠ 0) : share? t row j ≠ none := by
  rw [← share_eq_counted, share] at h
  intro hnone
  rw [hnone] at h
  exact h rfl

/-- The violation at any point, for any system that the slacks of the source row are found in. -/
theorem violation_derived {t : Tableau ℚ n m} {integers : List Nat} {A : List (List ℚ)}
    {b : List ℚ} {cut : Cut ℚ} {basic : Nat} (h : derive t integers A b = .derived cut basic) :
    ∃ r : Fin m, cut.sourceRow = r ∧ cut.fraction = frac (t.rhs r.castSucc) ∧
      (∀ k, counted (t.get r.castSucc (Tableau.slackCol k)) ≠ 0 → k < A.length ∧ k < b.length) ∧
      ∀ x : Fin n → ℚ, cut.violation (List.ofFn x) = cut.fraction -
        ∑ j, counted (t.get r.castSucc (Tableau.decisionCol j)) * x j -
        ∑ k, counted (t.get r.castSucc (Tableau.slackCol k)) * slackOf A b k (List.ofFn x) := by
  obtain ⟨r, hrow, hfraction, -, hexpand⟩ := derive_eq_derived h
  refine ⟨r, hrow, hfraction,
    fun k hk => lt_length_of_expand hexpand k (share?_ne_none hk), fun x => ?_⟩
  have hslack := slack_expand hexpand x
  simp only [share_eq_counted] at hslack
  rw [violation]
  linarith

theorem fraction_of_derived {t : Tableau ℚ n m} {integers : List Nat} {A : List (List ℚ)}
    {b : List ℚ} {cut : Cut ℚ} {basic : Nat} (h : derive t integers A b = .derived cut basic) :
    1 / 10 ^ 5 < cut.fraction ∧ cut.fraction < 1 - 1 / 10 ^ 5 := by
  obtain ⟨_, _, _, hnear, _⟩ := derive_eq_derived h
  rw [nearWhole, Bool.or_eq_false_iff, decide_eq_false_iff_not, decide_eq_false_iff_not, not_le,
    not_le, Tolerance.integrality_rat] at hnear
  exact hnear

end Cut

namespace Tableau

variable {n m : Nat}

/-- A column that has a value at the vertex is basic, so nothing of it counts. -/
theorem UnitBasis.counted_mul_value {t : Tableau ℚ n m} (h : t.UnitBasis) (r : Fin m)
    (j : Fin (n + m + 1)) : Cut.counted (t.get r.castSucc j) * t.value j = 0 := by
  rcases t.value_cases j with hzero | ⟨i, rfl, _⟩
  · rw [hzero, mul_zero]
  · have hwhole : Whole (t.get r.castSucc (t.basic i)) := by
      rw [h.get_basic]
      split
      · exact ⟨1, Int.cast_one.symm⟩
      · exact ⟨0, Int.cast_zero.symm⟩
    rw [Cut.counted_of_resolved (.inl hwhole), (whole_iff_fract _).1 hwhole, zero_mul]

theorem UnitBasis.slackOf_value {p : Problem ℚ} {t : Tableau ℚ p.numVars p.numRows} (hp : p.Valid)
    (ht : t.Equivalent (slackBasis p)) (h : t.UnitBasis) (k : Fin p.numRows) :
    Cut.slackOf p.A p.b k (List.ofFn fun j => t.value (decisionCol j)) = t.value (slackCol k) := by
  rw [Cut.slackOf_problem hp]
  exact ((ht.solves_iff hp _ _).1 h.solves_value k).symm

end Tableau

namespace Cut

variable {p : Problem ℚ} {t : Tableau ℚ p.numVars p.numRows} {integers : List Nat} {cut : Cut ℚ}
  {basic : Nat}

theorem violation_value (hp : p.Valid) (ht : t.Equivalent (Tableau.slackBasis p))
    (hb : t.UnitBasis) (h : derive t integers p.A p.b = .derived cut basic) :
    cut.violation (List.ofFn fun j => t.value (Tableau.decisionCol j)) = cut.fraction := by
  obtain ⟨r, -, -, -, hviolation⟩ := violation_derived h
  have hdecision : ∑ j, counted (t.get r.castSucc (Tableau.decisionCol j)) *
      t.value (Tableau.decisionCol j) = 0 :=
    Finset.sum_eq_zero fun j _ => hb.counted_mul_value r _
  have hslack : ∑ k, counted (t.get r.castSucc (Tableau.slackCol k)) *
      t.value (Tableau.slackCol k) = 0 :=
    Finset.sum_eq_zero fun k _ => hb.counted_mul_value r _
  rw [hviolation]
  simp only [hb.slackOf_value hp ht, hdecision, hslack, sub_zero]

/-- A cut from a tableau of a problem, over whatever system it was derived, is violated by its
fraction less the counted fractions of the source row, applied to the point and its slacks. If the
system is that of the problem and the basic columns are unit columns, the vertex that the tableau is
read off as is cut off by exactly the fraction. It can be read off unless the right-hand side itself
is basic. -/
theorem derive_separates {A : List (List ℚ)} {b : List ℚ} (hp : p.Valid)
    (ht : Relation.ReflTransGen Tableau.PivotsTo (Tableau.slackBasis p) t)
    (h : derive t integers A b = .derived cut basic) :
    (∃ r : Fin p.numRows, cut.sourceRow = r ∧ cut.fraction = frac (t.rhs r.castSucc) ∧
      (∀ k, counted (t.get r.castSucc (Tableau.slackCol k)) ≠ 0 → k < A.length ∧ k < b.length) ∧
      ∀ x : Fin p.numVars → ℚ, cut.violation (List.ofFn x) = cut.fraction -
        ∑ j, counted (t.get r.castSucc (Tableau.decisionCol j)) * x j -
        ∑ k, counted (t.get r.castSucc (Tableau.slackCol k)) * slackOf A b k (List.ofFn x)) ∧
    (1 / 10 ^ 5 < cut.fraction ∧ cut.fraction < 1 - 1 / 10 ^ 5) ∧
    (A = p.A → b = p.b →
      (∀ i l : Fin p.numRows, t.get l.castSucc (t.basic i) = if l = i then 1 else 0) →
      ∀ pivots,
        (t.basisProper = true → ∃ answer, t.extract? .optimal pivots = some answer) ∧
        ∀ answer, t.extract? .optimal pivots = some answer →
          cut.violation answer.x = cut.fraction) := by
  refine ⟨violation_derived h, fraction_of_derived h, ?_⟩
  rintro rfl rfl hunit pivots
  refine ⟨fun hproper => ⟨_, Tableau.extract?_proper hproper .optimal pivots⟩, fun answer hread => ?_⟩
  obtain ⟨hproper, rfl⟩ := Tableau.extract?_optimal hread
  exact violation_value hp (Tableau.equivalent_of_pivotsTo ht) (.of_proper hproper hunit) h

def triangle : Problem ℚ := ⟨[0, -1], [[3, 2], [-3, 2]], [6, 0]⟩

theorem derive_separates_triangle :
    ∃ cut basic, derive (triangle.solved {}).run.final [0, 1] triangle.A triangle.b =
        .derived cut basic ∧
      ∃ answer, (triangle.solved {}).run.final.extract? .optimal ⟨2, 2, 0⟩ = some answer ∧
        answer.x = [1, 3 / 2] ∧ cut.fraction = 1 / 2 ∧ cut.violation answer.x = 1 / 2 := by
  have hunit : ∀ i l : Fin triangle.numRows,
      (triangle.solved {}).run.final.get l.castSucc ((triangle.solved {}).run.final.basic i) =
        if l = i then 1 else 0 := by decide +kernel
  have hcut : ((derive (triangle.solved {}).run.final [0, 1] triangle.A triangle.b).cut?.any
      fun cut => decide (cut.fraction = 1 / 2)) = true := by decide +kernel
  have hread : (((triangle.solved {}).run.final.extract? .optimal ⟨2, 2, 0⟩).any
      fun answer => decide (answer.x = [1, 3 / 2])) = true := by decide +kernel
  obtain ⟨answer, hanswer, hx⟩ := (Option.any_eq_true _ _).1 hread
  cases h : derive (triangle.solved {}).run.final [0, 1] triangle.A triangle.b with
  | noSource => simp [h, Attempt.cut?] at hcut
  | missingRow row => simp [h, Attempt.cut?] at hcut
  | derived cut basic =>
    have hhalf : cut.fraction = 1 / 2 := by simpa [h, Attempt.cut?] using hcut
    obtain ⟨-, -, hvertex⟩ := derive_separates (p := triangle) (by decide +kernel)
      (Problem.reachable_final triangle {}).pivotsTo h
    have hviolation := (hvertex rfl rfl hunit ⟨2, 2, 0⟩).2 answer hanswer
    exact ⟨cut, basic, rfl, answer, hanswer, of_decide_eq_true hx, hhalf,
      hviolation.trans hhalf⟩

end Cut

end IntegerPrograms
