import IntegerPrograms.Branching
import IntegerPrograms.Simplex

set_option autoImplicit false

namespace IntegerPrograms

variable {α : Type} [Scalar α]

structure SearchSettings (α : Type) [Scalar α] where
  maxNodes : Nat := 1000000
  tolerance : α := Tolerance.integrality
  branching : BranchingRule := .firstFractional
  maxCuts : Nat := 5
  lp : LpSettings := {}
  verbose : Bool := false
  logEvery : Nat := 100

def SearchSettings.talkative : SearchSettings α := { verbose := true, logEvery := 1 }

end IntegerPrograms
