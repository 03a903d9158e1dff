import Mathlib
import IntegerPrograms.Proofs.Search.CutTrace
import IntegerPrograms.Proofs.Search.Exactness

set_option autoImplicit false

namespace IntegerPrograms

namespace Cut

section AnyArithmetic

variable {α : Type} [Scalar α] {n m : Nat} {t : Tableau α n m} {A : List (List α)} {b : List α}
  {integers : List Nat}

end AnyArithmetic

end Cut

namespace Search

section AnyArithmetic

variable {α β : Type} [Scalar α] {s : Search α β} {inc : Incumbent α} {left : Nat} {store : β}
  {r : Rounds α β}

end AnyArithmetic

variable {β : Type} {s : Search ℚ β} {inc : Incumbent ℚ} {left : Nat} {store : β} {p : Problem ℚ}
  {r : Rounds ℚ β}

end Search

end IntegerPrograms
