import Mathlib
import IntegerPrograms.Scalar

/-!
Comparison of values, some of which may compare with nothing. What a search needs is that the others
are in a linear order. Exact numbers are, and so are doubles: one that is a number has a rank, and
ranks compare as the doubles do.
-/

set_option autoImplicit false

namespace IntegerPrograms

namespace Scalar

/-- A value that compares with itself. -/
def IsNumber {α : Type} [Scalar α] (v : α) : Prop := v ≤ v

instance {α : Type} [Scalar α] (v : α) : Decidable (IsNumber v) :=
  inferInstanceAs (Decidable (v ≤ v))

/-- Comparison is a linear order of the numbers, and infinity is one of them. -/
structure OrdersNumbers (α : Type) [Scalar α] : Prop where
  total : ∀ {a b : α}, IsNumber a → IsNumber b → a ≤ b ∨ b ≤ a
  trans : ∀ {a b c : α}, a ≤ b → b ≤ c → a ≤ c
  lt_iff : ∀ {a b : α}, IsNumber a → IsNumber b → (a < b ↔ ¬ b ≤ a)
  infinity : ∀ {top : α}, infinity? = some top → IsNumber top

structure ComparesNumbers (α : Type) [Scalar α] : Prop extends OrdersNumbers α where
  isNumber_of_lt : ∀ {a b : α}, a < b → IsNumber b

theorem ordersNumbers_rat : OrdersNumbers ℚ where
  total _ _ := le_total _ _
  trans := le_trans
  lt_iff _ _ := not_le.symm
  infinity h := by cases h

theorem comparesNumbers_rat : ComparesNumbers ℚ where
  toOrdersNumbers := ordersNumbers_rat
  isNumber_of_lt _ := le_rfl

namespace OrdersNumbers

variable {α : Type} [Scalar α] {a b c : α}

theorem le_of_lt (h : OrdersNumbers α) (ha : IsNumber a) (hb : IsNumber b) (hlt : a < b) :
    a ≤ b :=
  (h.total ha hb).resolve_right ((h.lt_iff ha hb).1 hlt)

theorem lt_trans (h : OrdersNumbers α) (ha : IsNumber a) (hb : IsNumber b) (hc : IsNumber c)
    (hab : a < b) (hbc : b < c) : a < c := by
  rw [h.lt_iff ha hc]
  intro hca
  exact (h.lt_iff hb hc).1 hbc (h.trans hca (h.le_of_lt ha hb hab))

end OrdersNumbers

end Scalar

section Double

open Float.Model (UnpackedFloat)
open Float.Model.UnpackedFloat

theorem compare_natCast (m n : ℕ) : compare (m : ℤ) (n : ℤ) = compare m n := by
  rw [← cmp_eq_compare, ← cmp_eq_compare, Nat.strictMono_cast.cmp_map_eq]

theorem compare_neg_neg (a b : ℤ) : compare (-a) (-b) = (compare a b).swap := by
  rw [← cmp_eq_compare, ← cmp_eq_compare, cmp_swap]
  exact StrictAnti.cmp_map_eq (fun _ _ h => neg_lt_neg h) a b

/-- Where a double stands among the others: by sign, then by exponent, then by significand. -/
def rank : UnpackedFloat → ℤ ×ₗ ℤ ×ₗ ℤ
  | .infinity .negative => toLex (-2, toLex (0, 0))
  | .finite .negative m e _ => toLex (-1, toLex (-e, -m))
  | .zero _ | .notANumber => toLex (0, toLex (0, 0))
  | .finite .positive m e _ => toLex (1, toLex (e, m))
  | .infinity .positive => toLex (2, toLex (0, 0))

theorem compare_finite (s s' : Sign) (m m' : ℕ) (e e' : ℤ) (hm : 0 < m) (hm' : 0 < m') :
    (UnpackedFloat.finite s m e hm).compare (.finite s' m' e' hm') =
      some (compare (rank (.finite s m e hm)) (rank (.finite s' m' e' hm'))) := by
  cases s <;> cases s'
  case negative.positive => rfl
  case positive.negative => rfl
  all_goals simp [UnpackedFloat.compare, rank, Prod.Lex.compare_def, compareLex, compareOn,
    compare_natCast, compare_neg_neg, Ordering.swap_then]

theorem compare_eq_rank {a b : UnpackedFloat} (ha : a ≠ .notANumber) (hb : b ≠ .notANumber) :
    a.compare b = some (compare (rank a) (rank b)) := by
  cases a with
  | notANumber => exact absurd rfl ha
  | infinity s =>
    cases b with
    | notANumber => exact absurd rfl hb
    | infinity s' => cases s <;> cases s' <;> rfl
    | zero => cases s <;> rfl
    | finite s' => cases s <;> cases s' <;> rfl
  | zero s =>
    cases b with
    | notANumber => exact absurd rfl hb
    | infinity s' => cases s' <;> rfl
    | zero => rfl
    | finite s' => cases s' <;> rfl
  | finite s m e hm =>
    cases b with
    | notANumber => exact absurd rfl hb
    | infinity s' => cases s <;> cases s' <;> rfl
    | zero => cases s <;> rfl
    | finite s' m' e' hm' => exact compare_finite s s' m m' e e' hm hm'

theorem compare_of_isNaN {a b : Float} (h : a.isNaN = true ∨ b.isNaN = true) :
    a.toModel.unpack.compare b.toModel.unpack = none := by
  rcases h with h | h
  · have ha : a.toModel.unpack = .notANumber := isNaN_iff.1 h
    rw [ha]
    rfl
  · have hb : b.toModel.unpack = .notANumber := isNaN_iff.1 h
    rw [hb]
    cases a.toModel.unpack <;> rfl

theorem compare_of_not_isNaN {a b : Float} (ha : a.isNaN = false) (hb : b.isNaN = false) :
    a.toModel.unpack.compare b.toModel.unpack =
      some (compare (rank a.toModel.unpack) (rank b.toModel.unpack)) :=
  compare_eq_rank (fun h => by cases ha.symm.trans (isNaN_iff.2 h))
    (fun h => by cases hb.symm.trans (isNaN_iff.2 h))

theorem le_iff_unpack {a b : Float} : a ≤ b ↔ a.toModel.unpack.le b.toModel.unpack = true :=
  ⟨of_decide_eq_true, decide_eq_true⟩

theorem le_iff_rank {a b : Float} : a ≤ b ↔ a.isNaN = false ∧ b.isNaN = false ∧
    rank a.toModel.unpack ≤ rank b.toModel.unpack := by
  rw [le_iff_unpack, UnpackedFloat.le]
  cases ha : a.isNaN with
  | true => simp [compare_of_isNaN (.inl ha)]
  | false =>
    cases hb : b.isNaN with
    | true => simp [compare_of_isNaN (.inr hb)]
    | false => simp [compare_of_not_isNaN ha hb, Ordering.isLE_iff_ne_gt, compare_gt_iff_gt]

theorem lt_iff_rank {a b : Float} (ha : a.isNaN = false) (hb : b.isNaN = false) :
    a < b ↔ rank a.toModel.unpack < rank b.toModel.unpack := by
  have hlt : a < b ↔ a.toModel.unpack.lt b.toModel.unpack = true :=
    ⟨of_decide_eq_true, decide_eq_true⟩
  rw [hlt, UnpackedFloat.lt, compare_of_not_isNaN ha hb]
  simp [compare_lt_iff_lt]

theorem isNumber_float_iff {v : Float} : Scalar.IsNumber v ↔ v.isNaN = false :=
  le_iff_rank.trans ⟨And.left, fun h => ⟨h, h, le_rfl⟩⟩

theorem Scalar.ordersNumbers_float : Scalar.OrdersNumbers Float where
  total := by
    intro a b ha hb
    rw [isNumber_float_iff] at ha hb
    rcases le_total (rank a.toModel.unpack) (rank b.toModel.unpack) with h | h
    · exact .inl (le_iff_rank.2 ⟨ha, hb, h⟩)
    · exact .inr (le_iff_rank.2 ⟨hb, ha, h⟩)
  trans := by
    intro a b c hab hbc
    obtain ⟨ha, _, hab⟩ := le_iff_rank.1 hab
    obtain ⟨_, hc, hbc⟩ := le_iff_rank.1 hbc
    exact le_iff_rank.2 ⟨ha, hc, hab.trans hbc⟩
  lt_iff := by
    intro a b ha hb
    rw [isNumber_float_iff] at ha hb
    rw [lt_iff_rank ha hb, ← not_le, not_iff_not, le_iff_rank]
    exact ⟨fun h => ⟨hb, ha, h⟩, fun h => h.2.2⟩
  infinity := by
    intro top h
    obtain rfl : (1 / 0 : Float) = top := Option.some.inj h
    decide

theorem Scalar.comparesNumbers_float : Scalar.ComparesNumbers Float where
  toOrdersNumbers := ordersNumbers_float
  isNumber_of_lt := by
    intro a b hlt
    rw [isNumber_float_iff]
    cases hb : b.isNaN with
    | false => rfl
    | true =>
      have hless : a.toModel.unpack.lt b.toModel.unpack = true := of_decide_eq_true hlt
      simp [UnpackedFloat.lt, compare_of_isNaN (.inr hb)] at hless

end Double

end IntegerPrograms
