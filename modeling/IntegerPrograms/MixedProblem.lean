import IntegerPrograms.Problem
import IntegerPrograms.Tolerance

set_option autoImplicit false

namespace IntegerPrograms

variable {α : Type} [Scalar α]

inductive MixedError where
  | linear (defect : Defect)
  | noIntegers
  | noSuchVariable (index vars : Nat)
  deriving DecidableEq

def MixedError.message : MixedError → String
  | .linear defect => "LP error: " ++ defect.message
  | .noIntegers => "No integer variables given; solve the LP relaxation directly instead"
  | .noSuchVariable index vars =>
      s!"Invalid problem: Integer variable {index} but only {vars} variables"

structure MixedProblem (α : Type) [Scalar α] where
  lp : Problem α
  integers : List Nat
  valid : lp.Valid
  integers_ne_nil : integers ≠ []
  integers_sorted : integers.Pairwise (· < ·)
  integers_lt : ∀ i ∈ integers, i < lp.numVars

structure Fractional (α : Type) where
  var : Nat
  value : α
  score : α

namespace MixedProblem

/-- The indices below `n` that occur in a list, in increasing order. -/
def indexSet (n : Nat) (l : List Nat) : List Nat := (List.range n).filter (l.contains ·)

theorem mem_indexSet {n : Nat} {l : List Nat} {i : Nat} : i ∈ indexSet n l ↔ i < n ∧ i ∈ l := by
  simp [indexSet]

theorem indexSet_sorted (n : Nat) (l : List Nat) : (indexSet n l).Pairwise (· < ·) :=
  List.pairwise_lt_range.filter _

theorem indexSet_ne_nil {n : Nat} {l : List Nat} (hl : l ≠ [])
    (hn : l.find? (fun i => decide (n ≤ i)) = none) : indexSet n l ≠ [] := by
  obtain ⟨i, rest, rfl⟩ := List.exists_cons_of_ne_nil hl
  have hi : i < n := by simpa using List.find?_eq_none.1 hn i (by simp)
  exact List.ne_nil_of_mem (mem_indexSet.2 ⟨hi, by simp⟩)

/-- The program with the listed variables whole. Defects of the linear program are told before an
empty list, and that before the first index that is no variable. -/
def ofProblem (lp : Problem α) (integers : List Nat) : Except MixedError (MixedProblem α) :=
  match hv : lp.defect? with
  | some d => .error (.linear d)
  | none =>
    if hl : integers = [] then .error .noIntegers
    else match hb : integers.find? (fun i => decide (lp.numVars ≤ i)) with
      | some i => .error (.noSuchVariable i lp.numVars)
      | none => .ok {
          lp
          integers := indexSet lp.numVars integers
          valid := hv
          integers_ne_nil := indexSet_ne_nil hl hb
          integers_sorted := indexSet_sorted _ _
          integers_lt := fun _ hi => (mem_indexSet.1 hi).1 }

/-- The integer variables whose distance to a whole number exceeds the tolerance, in order. Fails
if the point has no entry for one of them. -/
def fractional? (p : MixedProblem α) (x : List α) (tol : α) : Option (List (Fractional α)) := do
  let all ← p.integers.mapM fun i => x[i]?.map fun v => (⟨i, v, fractionality v⟩ : Fractional α)
  return all.filter fun f => decide (tol < f.score)

end MixedProblem

end IntegerPrograms
