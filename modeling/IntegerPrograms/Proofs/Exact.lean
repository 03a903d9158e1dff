import Mathlib
import IntegerPrograms.Branching

set_option autoImplicit false

namespace IntegerPrograms

namespace Scalar

theorem abs_rat (v : ℚ) : Scalar.abs v = |v| := by
  change Rat.abs v = |v|
  rcases le_total 0 v with h | h
  · rw [Rat.abs_of_nonneg h, abs_of_nonneg h]
  · rw [Rat.abs_of_nonpos h, abs_of_nonpos h]

theorem floor_rat (v : ℚ) : Scalar.floor v = (⌊v⌋ : ℚ) := rfl

theorem ceil_rat (v : ℚ) : Scalar.ceil v = (⌈v⌉ : ℚ) := by
  change ((Rat.ceil v : ℤ) : ℚ) = _
  rw [Rat.ceil_eq_neg_floor_neg]
  congr 1

theorem round_rat (v : ℚ) : ∃ k : ℤ, Scalar.round v = (k : ℚ) := by
  change ∃ k : ℤ, (if v.num < 0 then _ else _) = (k : ℚ)
  split
  · exact ⟨-(-v + mkRat 1 2).floor, by push_cast; rfl⟩
  · exact ⟨(v + mkRat 1 2).floor, rfl⟩

theorem floor_intCast_add_half (k : ℤ) : ((k : ℚ) + mkRat 1 2).floor = k := by
  change ⌊(k : ℚ) + mkRat 1 2⌋ = k
  have half : mkRat 1 2 = (1 / 2 : ℚ) := by rw [Rat.mkRat_eq_div]; norm_num
  rw [half, Int.floor_intCast_add]
  norm_num

theorem round_intCast (k : ℤ) : Scalar.round (k : ℚ) = (k : ℚ) := by
  change (if (k : ℚ).num < 0 then _ else _) = (k : ℚ)
  split
  · have h := floor_intCast_add_half (-k)
    push_cast at h ⊢
    rw [h]
    push_cast
    ring
  · rw [floor_intCast_add_half]

theorem sum_rat (l : List ℚ) : Scalar.sum l = l.sum := by
  change l.foldl (· + ·) (-0) = l.sum
  rw [neg_zero, List.sum_eq_foldl]

theorem dot_nil_left (r : List ℚ) : Scalar.dot [] r = 0 := by
  rw [dot, sum_rat, List.zipWith_nil_left, List.sum_nil]

theorem dot_nil_right (l : List ℚ) : Scalar.dot l [] = 0 := by
  rw [dot, sum_rat, List.zipWith_nil_right, List.sum_nil]

theorem dot_cons (a b : ℚ) (l r : List ℚ) :
    Scalar.dot (a :: l) (b :: r) = a * b + Scalar.dot l r := by
  simp only [dot, sum_rat, List.zipWith_cons_cons, List.sum_cons]

theorem dot_ofFn {n : Nat} (f g : Fin n → ℚ) :
    Scalar.dot (List.ofFn f) (List.ofFn g) = ∑ j, f j * g j := by
  have h : List.zipWith (· * ·) (List.ofFn f) (List.ofFn g) = List.ofFn fun j => f j * g j := by
    apply List.ext_getElem <;> simp
  change Scalar.sum (List.zipWith (· * ·) (List.ofFn f) (List.ofFn g)) = _
  rw [sum_rat, h, List.sum_ofFn]

end Scalar

namespace Tolerance

theorem pivot_rat : (Tolerance.pivot : ℚ) = 1 / 10 ^ 10 := by norm_num [Tolerance.pivot]

theorem ratio_rat : (Tolerance.ratio : ℚ) = 1 / 10 ^ 9 := by norm_num [Tolerance.ratio]

theorem floor_rat : (Tolerance.floor : ℚ) = 1 / 10 ^ 10 := by norm_num [Tolerance.floor]

theorem integrality_rat : (Tolerance.integrality : ℚ) = 1 / 10 ^ 5 := by
  norm_num [Tolerance.integrality]

end Tolerance

theorem fractionality_rat (v : ℚ) : ∃ k : ℤ, fractionality v = |v - k| := by
  obtain ⟨k, hk⟩ := Scalar.round_rat v
  exact ⟨k, by rw [fractionality, Scalar.abs_rat, hk]⟩

theorem fractionality_intCast (k : ℤ) : fractionality (k : ℚ) = 0 := by
  rw [fractionality, Scalar.abs_rat, Scalar.round_intCast]
  exact abs_eq_zero.2 (sub_self _)

theorem floor_lt_lt_ceil {v : ℚ} (h : 0 < fractionality v) : (⌊v⌋ : ℚ) < v ∧ v < ⌈v⌉ := by
  have hne (k : ℤ) : v ≠ k := by
    rintro rfl
    rw [fractionality_intCast] at h
    exact lt_irrefl _ h
  exact ⟨lt_of_le_of_ne (Int.floor_le v) (hne _).symm, lt_of_le_of_ne (Int.le_ceil v) (hne _)⟩

instance {α : Type} [Scalar α] (p : Problem α) : Decidable p.Valid :=
  inferInstanceAs (Decidable (p.defect? = none))

instance (p : Problem ℚ) (y : List ℚ) : Decidable (p.Feasible y) :=
  inferInstanceAs (Decidable (_ ∧ _))

theorem Problem.Valid.dims {α : Type} [Scalar α] {p : Problem α} (hp : p.Valid) :
    p.A.length = p.numRows ∧ ∀ row ∈ p.A, row.length = p.numVars := by
  unfold Valid defect? at hp
  by_cases hlen : p.A.length = p.numRows
  · rw [if_neg (not_not.2 hlen)] at hp
    cases hrow : p.A.findIdx? fun row => row.length ≠ p.numVars with
    | some i =>
      rw [hrow] at hp
      cases hp
    | none =>
      rw [List.findIdx?_eq_none_iff] at hrow
      exact ⟨hlen, by simpa using hrow⟩
  · simp [hlen] at hp

namespace Problem

variable {p : Problem ℚ}

def cost (p : Problem ℚ) (j : Fin p.numVars) : ℚ := p.c.get j

def coef (p : Problem ℚ) (k : Fin p.numRows) (j : Fin p.numVars) : ℚ :=
  (p.A[k.val]?.getD [])[j.val]?.getD 0

def limit (p : Problem ℚ) (k : Fin p.numRows) : ℚ := p.b.get k

theorem nonFinite?_rat (l : List ℚ) : nonFinite? l = none := by
  rw [nonFinite?, List.findIdx?_eq_none_iff]
  intro v _
  rfl

theorem valid_iff : p.Valid ↔ p.A.length = p.numRows ∧ ∀ row ∈ p.A, row.length = p.numVars := by
  refine ⟨Valid.dims, fun ⟨hlen, hrow⟩ => ?_⟩
  have hnone : (p.A.findIdx? fun row => row.length ≠ p.numVars) = none := by
    rw [List.findIdx?_eq_none_iff]
    simpa using hrow
  rw [Valid, defect?, if_neg (not_not.2 hlen), hnone]
  simp [nonFinite?_rat]

theorem c_eq_ofFn (p : Problem ℚ) : p.c = List.ofFn p.cost := (List.ofFn_get p.c).symm

theorem b_eq_ofFn (p : Problem ℚ) : p.b = List.ofFn p.limit := (List.ofFn_get p.b).symm

theorem A_eq_ofFn (hp : p.Valid) :
    p.A = List.ofFn fun k => List.ofFn fun j => p.coef k j := by
  obtain ⟨hlen, hrow⟩ := valid_iff.1 hp
  apply List.ext_getElem (by simpa using hlen)
  intro k hk _
  have hcols : p.A[k].length = p.numVars := hrow _ (List.getElem_mem hk)
  rw [List.getElem_ofFn]
  apply List.ext_getElem (by simpa using hcols)
  intro j hj _
  rw [List.getElem_ofFn, coef, List.getElem?_eq_getElem hk, Option.getD_some,
    List.getElem?_eq_getElem hj, Option.getD_some]

theorem getElem?_A (hp : p.Valid) (k : Fin p.numRows) :
    p.A[k.val]? = some (List.ofFn (p.coef k)) := by
  rw [A_eq_ofFn hp, List.getElem?_ofFn, dif_pos k.isLt]

theorem getElem?_b (p : Problem ℚ) (k : Fin p.numRows) : p.b[k.val]? = some (p.limit k) := by
  rw [b_eq_ofFn, List.getElem?_ofFn, dif_pos k.isLt]

theorem objective_ofFn (p : Problem ℚ) (v : Fin p.numVars → ℚ) :
    p.objective (List.ofFn v) = ∑ j, p.cost j * v j := by
  rw [objective, c_eq_ofFn]
  exact Scalar.dot_ofFn p.cost v

theorem excesses_ofFn (hp : p.Valid) (v : Fin p.numVars → ℚ) :
    p.excesses (List.ofFn v) = List.ofFn fun k => ∑ j, p.coef k j * v j - p.limit k := by
  rw [excesses, A_eq_ofFn hp, b_eq_ofFn]
  apply List.ext_getElem
  · simp
  · intro k _ _
    simp [Scalar.dot_ofFn]

theorem feasible_ofFn (hp : p.Valid) (v : Fin p.numVars → ℚ) :
    p.Feasible (List.ofFn v) ↔
      (∀ k, ∑ j, p.coef k j * v j ≤ p.limit k) ∧ ∀ j, 0 ≤ v j := by
  rw [Feasible, excesses_ofFn hp, List.length_ofFn]
  simp [List.mem_ofFn]

theorem exists_ofFn {x : List ℚ} (h : x.length = p.numVars) :
    ∃ v : Fin p.numVars → ℚ, x = List.ofFn v := by
  rw [← h]
  exact ⟨x.get, (List.ofFn_get x).symm⟩

theorem valid_withRow (hp : p.Valid) {row : List ℚ} (h : row.length = p.numVars) (rhs : ℚ) :
    (p.withRow row rhs).Valid := by
  obtain ⟨hlen, hrows⟩ := valid_iff.1 hp
  rw [valid_iff, numVars_withRow, numRows_withRow]
  refine ⟨by simp [withRow, hlen], ?_⟩
  intro r hr
  rcases List.mem_append.1 hr with hr | hr
  · exact hrows r hr
  · rw [List.mem_singleton.1 hr, h]

theorem excesses_withRow (hp : p.Valid) (row : List ℚ) (rhs : ℚ) (x : List ℚ) :
    (p.withRow row rhs).excesses x = p.excesses x ++ [Scalar.dot row x - rhs] :=
  List.zipWith_append (valid_iff.1 hp).1

/-- A point that satisfies every constraint, whatever the signs of its entries. -/
def Satisfied (p : Problem ℚ) (x : List ℚ) : Prop :=
  x.length = p.numVars ∧ ∀ e ∈ p.excesses x, e ≤ 0

theorem feasible_iff_satisfied (x : List ℚ) :
    p.Feasible x ↔ p.Satisfied x ∧ ∀ v ∈ x, 0 ≤ v :=
  and_assoc.symm

theorem satisfied_withRow (hp : p.Valid) (row : List ℚ) (rhs : ℚ) (x : List ℚ) :
    (p.withRow row rhs).Satisfied x ↔ p.Satisfied x ∧ Scalar.dot row x ≤ rhs := by
  rw [Satisfied, Satisfied, excesses_withRow hp, numVars_withRow, and_assoc]
  simp only [List.forall_mem_append, List.forall_mem_singleton, sub_nonpos]

theorem feasible_withRow (hp : p.Valid) (row : List ℚ) (rhs : ℚ) (x : List ℚ) :
    (p.withRow row rhs).Feasible x ↔ p.Feasible x ∧ Scalar.dot row x ≤ rhs := by
  rw [feasible_iff_satisfied, feasible_iff_satisfied, satisfied_withRow hp, and_right_comm]

end Problem

end IntegerPrograms
