import Mathlib
import IntegerPrograms.Proofs.Search.Exactness

set_option autoImplicit false

namespace IntegerPrograms

variable {β : Type}

/-- Two systems share out the points of a third that are whole in one variable, have no others, and
both leave out the point `x`. -/
structure Problem.Split (p : Problem ℚ) (var : Nat) (x : List ℚ) (down up : Problem ℚ) : Prop where
  exactlyOne : ∀ y (k : ℤ), y[var]? = some (k : ℚ) → p.Satisfied y →
    Xor (down.Satisfied y) (up.Satisfied y)
  within : ∀ y, down.Satisfied y ∨ up.Satisfied y → p.Satisfied y
  excluded : ¬ down.Satisfied x ∧ ¬ up.Satisfied x

theorem Fractional.split {f : Fractional ℚ} (hf : 0 < fractionality f.value) {x : List ℚ}
    (hx : x[f.var]? = some f.value) {p down up : Problem ℚ}
    (hdown : ∀ y, down.Satisfied y ↔ p.Satisfied y ∧ f.down.Holds y)
    (hup : ∀ y, up.Satisfied y ↔ p.Satisfied y ∧ f.up.Holds y) : p.Split f.var x down up where
  exactlyOne := by
    intro y k hk hy
    rw [hdown, hup]
    rcases f.down_or_up hk with hd | hu
    · exact .inl ⟨⟨hy, hd⟩, fun h => f.not_down_and_up hf hd h.2⟩
    · exact .inr ⟨⟨hy, hu⟩, fun h => f.not_down_and_up hf h.2 hu⟩
  within := by
    intro y hy
    rcases hy with hy | hy
    · exact ((hdown y).1 hy).1
    · exact ((hup y).1 hy).1
  excluded := by
    obtain ⟨hd, hu⟩ := f.not_down_nor_up hf hx
    exact ⟨fun h => hd ((hdown x).1 h).2, fun h => hu ((hup x).1 h).2⟩

namespace Search

variable {s : Search ℚ β} {store : β} {p : Problem ℚ} {rule : BranchingRule} {x : List ℚ} {tol : ℚ}
  {f : Fractional ℚ}

end Search

end IntegerPrograms
