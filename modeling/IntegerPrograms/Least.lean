import IntegerPrograms.Scalar

set_option autoImplicit false

namespace IntegerPrograms

variable {α ι : Type} [Scalar α]

/-- One more candidate against the best so far. The first candidate has to be admitted; each later
one has to be strictly smaller. -/
def betterOf (admits : α → Bool) (best : Option (ι × α)) (i : ι) (key : α) : Option (ι × α) :=
  match best with
  | none => if admits key then some (i, key) else none
  | some (j, least) => if key < least then some (i, key) else some (j, least)

def leastBy (admits : α → Bool) (key : ι → Option α) (l : List ι) : Option ι :=
  (l.foldl (fun best i => (key i).elim best (betterOf admits best i)) none).map Prod.fst

end IntegerPrograms
