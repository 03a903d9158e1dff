import Mathlib
import IntegerPrograms.Proofs.Comparison
import IntegerPrograms.Proofs.Finite

/-!
Checking a point. The largest violation is a running maximum, which passes over whatever compares with
nothing. In exact arithmetic the check finds exactly the feasible points. In doubles it passes exactly
if the entries and the computed excesses that are numbers stay within the tolerance: an excess that
overflows to no number goes unnoticed.
-/

set_option autoImplicit false

namespace IntegerPrograms

namespace Scalar.ComparesNumbers

variable {α : Type} [Scalar α] {most v tol : α}

theorem not_lt_iff (h : ComparesNumbers α) (htol : IsNumber tol) :
    ¬ tol < v ↔ v ≤ tol ∨ ¬ IsNumber v := by
  by_cases hv : IsNumber v
  · rw [h.lt_iff htol hv, not_not, or_iff_left (not_not.2 hv)]
  · exact iff_of_true (fun hlt => hv (h.isNumber_of_lt hlt)) (.inr hv)

theorem isNumber_raise (h : ComparesNumbers α) (hm : IsNumber most) (v : α) :
    IsNumber (raise most v) := by
  rw [raise]
  split
  next hlt => exact h.isNumber_of_lt hlt
  next => exact hm

theorem raise_le_iff (h : ComparesNumbers α) (hm : IsNumber most) (htol : IsNumber tol) :
    raise most v ≤ tol ↔ most ≤ tol ∧ ¬ tol < v := by
  rw [raise]
  split
  next hlt =>
    have hv := h.isNumber_of_lt hlt
    rw [h.lt_iff htol hv, not_not]
    exact ⟨fun hle => ⟨h.trans (h.le_of_lt hm hv hlt) hle, hle⟩, And.right⟩
  next hnot =>
    refine ⟨fun hle => ⟨hle, fun hlt => hnot ?_⟩, And.left⟩
    have hv := h.isNumber_of_lt hlt
    rw [h.lt_iff hm hv]
    exact fun hvm => (h.lt_iff htol hv).1 hlt (h.trans hvm hle)

/-- A running maximum that starts from a number stays within a bound if and only if nothing exceeds
the bound. -/
theorem foldl_raise_le_iff (h : ComparesNumbers α) (htol : IsNumber tol) (hm : IsNumber most)
    (l : List α) : l.foldl raise most ≤ tol ↔ most ≤ tol ∧ ∀ v ∈ l, ¬ tol < v := by
  induction l generalizing most with
  | nil => simp
  | cons v l ih =>
    rw [List.foldl_cons, ih (h.isNumber_raise hm v), h.raise_le_iff hm htol, List.forall_mem_cons,
      and_assoc]

theorem isNumber_foldl_raise (h : ComparesNumbers α) (hm : IsNumber most) (l : List α) :
    IsNumber (l.foldl raise most) := by
  induction l generalizing most with
  | nil => exact hm
  | cons v l ih => exact ih (h.isNumber_raise hm v)

end Scalar.ComparesNumbers

namespace Problem

section Check

variable {α : Type} [Scalar α]

theorem maxViolation_le_iff (h : Scalar.ComparesNumbers α) (hzero : Scalar.IsNumber (0 : α))
    (p : Problem α) (x : List α) {tol : α} (htol : Scalar.IsNumber tol) :
    p.maxViolation x ≤ tol ↔
      0 ≤ tol ∧ (∀ e ∈ p.excesses x, ¬ tol < e) ∧ ∀ v ∈ x, ¬ tol < -v := by
  have hentries := h.isNumber_foldl_raise hzero (x.map (-·))
  rw [maxViolation, h.raise_le_iff (h.isNumber_foldl_raise hzero _) htol,
    h.foldl_raise_le_iff htol hzero, h.lt_iff htol hentries, not_not,
    h.foldl_raise_le_iff htol hzero, List.forall_mem_map]
  constructor
  · rintro ⟨⟨hpos, hrows⟩, _, hsigns⟩
    exact ⟨hpos, hrows, hsigns⟩
  · rintro ⟨hpos, hrows, hsigns⟩
    exact ⟨⟨hpos, hrows⟩, hpos, hsigns⟩

end Check

theorem isFeasible_zero_iff (p : Problem ℚ) (x : List ℚ) :
    p.isFeasible x 0 = true ↔ p.Feasible x := by
  rw [isFeasible, Bool.and_eq_true, beq_iff_eq, decide_eq_true_eq,
    maxViolation_le_iff Scalar.comparesNumbers_rat le_rfl p x le_rfl]
  simp [Feasible]

end Problem

section Double

open Float.Model (Format UnpackedFloat)
open Float.Model.UnpackedFloat

theorem isNaN_of_isFinite {f : UnpackedFloat} (h : f.isFinite = true) : f.isNaN = false := by
  cases f with
  | notANumber => cases h
  | infinity s => rfl
  | zero s => rfl
  | finite s m e hm => rfl

theorem isNaN_neg (v : Float) : (-v).isNaN = v.isNaN := by
  change (unpack Format.binary64 (UnpackedFloat.pack Format.binary64 v.toModel.unpack.neg)).isNaN
    = v.toModel.unpack.isNaN
  cases h : v.toModel.unpack with
  | notANumber => decide
  | infinity s => cases s <;> decide
  | zero s => cases s <;> decide
  | finite s m e hm =>
    have hv : v.isFinite = true := congrArg UnpackedFloat.isFinite h
    have hneg := isFinite_neg hv
    change (unpack Format.binary64 (UnpackedFloat.pack Format.binary64
      v.toModel.unpack.neg)).isFinite = true at hneg
    rw [h] at hneg
    exact isNaN_of_isFinite hneg

/-- In doubles a point passes the check if and only if it has an entry for every variable and each
computed excess and each entry is within the tolerance or not a number. -/
theorem Problem.isFeasible_iff (p : Problem Float) (x : List Float) (tol : Float) :
    p.isFeasible x tol = true ↔ x.length = p.numVars ∧ 0 ≤ tol ∧
      (∀ e ∈ p.excesses x, e ≤ tol ∨ e.isNaN = true) ∧ ∀ v ∈ x, -v ≤ tol ∨ v.isNaN = true := by
  have hnumber (v : Float) : ¬ Scalar.IsNumber v ↔ v.isNaN = true := by
    rw [isNumber_float_iff, Bool.not_eq_false]
  rw [isFeasible, Bool.and_eq_true, beq_iff_eq, decide_eq_true_eq]
  refine and_congr_right fun _ => ?_
  by_cases htol : Scalar.IsNumber tol
  · simp only [maxViolation_le_iff Scalar.comparesNumbers_float (by decide) p x htol,
      Scalar.comparesNumbers_float.not_lt_iff htol, hnumber, isNaN_neg]
  · -- Nothing is within a tolerance that is not a number.
    have hnot (v : Float) : ¬ v ≤ tol := fun hle =>
      htol (isNumber_float_iff.2 (le_iff_rank.1 hle).2.1)
    exact iff_of_false (hnot _) fun h => hnot _ h.1

def swamped : Problem Float := ⟨[1, 1], [[1e308, -1e308]], [0]⟩

/-- A point far outside passes the check, and so does a point with an entry that is not a number. -/
theorem Problem.isFeasible_swamped :
    swamped.Valid ∧ (0 : Float) ≤ 1e-6 ∧
      (swamped.isFeasible [4, 2] 1e-6 = true ∧ (¬ ∀ e ∈ swamped.excesses [4, 2], e ≤ 1e-6) ∧
        (⟨[1, 1], [[1e308, -1e308]], [0]⟩ : Problem ℚ).excesses [4, 2] = [2e308]) ∧
      swamped.isFeasible [0 / 0, 0] 1e-6 = true ∧ ¬ -(0 / 0 : Float) ≤ 1e-6 := by
  decide +kernel

end Double

end IntegerPrograms
