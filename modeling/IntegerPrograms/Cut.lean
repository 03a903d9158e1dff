import IntegerPrograms.Tableau.Basic

/-!
Gomory fractional cuts. In a tableau row `x + Σ aⱼ xⱼ = β` whose basic variable has to be whole,
every whole point satisfies `Σ frac(aⱼ) xⱼ ≥ frac(β)`. Each slack stands for `b - a · x` of its own
constraint, so the cut is stated over the decision variables alone.
-/

set_option autoImplicit false

namespace IntegerPrograms

variable {α : Type} [Scalar α] {n m : Nat}

structure Cut (α : Type) where
  coefs : List α
  rhs : α
  sourceRow : Nat
  fraction : α

namespace Cut

def violation (cut : Cut α) (x : List α) : α := Scalar.dot cut.coefs x - cut.rhs

def isFinite (cut : Cut α) : Bool :=
  Scalar.isFinite cut.rhs && cut.coefs.all Scalar.isFinite

def nearWhole (f : α) : Bool :=
  decide (f ≤ Tolerance.integrality) || decide (1 - Tolerance.integrality ≤ f)

/-- The row with the largest fraction among those whose basic variable has to be whole, and the
first of equals. -/
def sourceRow? (t : Tableau α n m) (integers : List Nat) : Option (Fin m × α) :=
  (List.finRange m).foldl (fun best i =>
    let f := frac (t.rhs i.castSucc)
    if !integers.contains (t.basic i).val || nearWhole f then best
    else match best with
      | none => some (i, f)
      | some (_, most) => if most < f then some (i, f) else best) none

def share? (t : Tableau α n m) (row : Fin m) (j : Fin (n + m + 1)) : Option α :=
  let f := frac (t.get row.castSucc j)
  if f < Tolerance.ratio then none else some f

def addScaled (f : α) : List α → List α → List α
  | c :: cs, a :: as => (c + f * a) :: addScaled f cs as
  | cs, _ => cs

/-- Takes the slack of constraint `k` into coefficients and right-hand side; fails with `k` if the
constraint is missing. -/
def addSlack (A : List (List α)) (b : List α) (f : α) (k : Nat) (acc : List α × α) :
    Except Nat (List α × α) :=
  match A[k]?, b[k]? with
  | some row, some rhs => .ok (addScaled f acc.1 row, acc.2 + f * rhs)
  | _, _ => .error k

def ownCoefs (t : Tableau α n m) (row : Fin m) : List α :=
  List.ofFn fun j : Fin n => (share? t row (Tableau.decisionCol j)).elim 0 (0 - ·)

def expand (t : Tableau α n m) (A : List (List α)) (b : List α) (row : Fin m) (f : α) :
    Except Nat (List α × α) :=
  (List.finRange m).foldlM (fun acc (k : Fin m) =>
    match share? t row (Tableau.slackCol k) with
    | none => .ok acc
    | some fk => addSlack A b fk k acc) (ownCoefs t row, -f)

inductive Attempt (α : Type) where
  | noSource
  | missingRow (row : Nat)
  | derived (cut : Cut α) (basic : Nat)

def Attempt.cut? : Attempt α → Option (Cut α)
  | .derived cut _ => some cut
  | _ => none

/-- Derives a cut from a tableau. The system `A`, `b` has to be the one behind its slacks. -/
def derive (t : Tableau α n m) (integers : List Nat) (A : List (List α)) (b : List α) :
    Attempt α :=
  match sourceRow? t integers with
  | none => .noSource
  | some (row, f) =>
    match expand t A b row f with
    | .error k => .missingRow k
    | .ok (coefs, rhs) => .derived ⟨coefs, rhs, row, f⟩ (t.basic row)

omit [Scalar α] in
theorem Attempt.cut?_derived (cut : Cut α) (basic : Nat) :
    (Attempt.derived cut basic).cut? = some cut := rfl

theorem length_addScaled (f : α) (cs as : List α) : (addScaled f cs as).length = cs.length := by
  induction cs generalizing as with
  | nil => cases as <;> rfl
  | cons c cs ih => cases as <;> simp [addScaled, ih]

end Cut

end IntegerPrograms
