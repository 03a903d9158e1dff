import IntegerPrograms.Scalar

/-!
What counts as zero and what counts as whole. All thresholds of the simplex method, of the cuts
and of the tree search are here, so that no two parts of the library can disagree on them.
-/

set_option autoImplicit false

namespace IntegerPrograms

variable {α : Type} [Scalar α]

namespace Tolerance

/-- Zero for tableau entries: dual feasibility, the sign of a right-hand side, the candidates of
the dual ratio test, and the rows an elimination may skip. -/
def pivot : α := 1e-10

/-- Zero for the primal phase and for the coefficients of a cut. -/
def ratio : α := 1e-9

/-- Added before a value is rounded down, so that a value just below a whole number reaches it. -/
def floor : α := 1e-10

def integrality : α := 1e-5

def feasibility : α := 1e-6

end Tolerance

def frac (v : α) : α := v - Scalar.floor (v + Tolerance.floor)

def fractionality (v : α) : α := Scalar.abs (v - Scalar.round v)

end IntegerPrograms
