import Mathlib
import IntegerPrograms.Branching
import IntegerPrograms.Proofs.Simplex.Run

/-!
Finite data. A linear program is valid if it has the right shape and holds finite values only, so a
row keeps it valid if its entries are finite. Branching has finite rows to offer as long as rounding
keeps a value finite and no other value passes for fractional: so it is in exact arithmetic, and in
one that overflows.
-/

set_option autoImplicit false

namespace IntegerPrograms

class Scalar.FiniteUnits (α : Type) [Scalar α] : Prop where
  zero : Scalar.isFinite (0 : α) = true
  one : Scalar.isFinite (1 : α) = true
  neg : ∀ {v : α}, Scalar.isFinite v = true → Scalar.isFinite (-v) = true

/-- What the searches count on: a finite value is rounded to a finite one, and the distance of any
other value to the whole numbers exceeds nothing. -/
structure Scalar.RoundsFinite (α : Type) [Scalar α] : Prop where
  floor : ∀ {v : α}, Scalar.isFinite v = true → Scalar.isFinite (Scalar.floor v) = true
  ceil : ∀ {v : α}, Scalar.isFinite v = true → Scalar.isFinite (Scalar.ceil v) = true
  fractionality : ∀ {v : α}, Scalar.isFinite v = false → ∀ tol, ¬ tol < fractionality v

instance : Scalar.FiniteUnits ℚ := ⟨rfl, rfl, fun _ => rfl⟩

theorem Scalar.roundsFinite_rat : Scalar.RoundsFinite ℚ :=
  ⟨fun _ => rfl, fun _ => rfl, fun h => by cases h⟩

section Double

open Float.Model (Format UnpackedFloat)
open Float.Model.UnpackedFloat

theorem isFinite_unpack_iff (b : BitVec Format.binary64.numBits) :
    (unpack Format.binary64 b).isFinite = true ↔ unpackExponent b ≠ -1#_ := by
  simp only [unpack]
  split
  next h =>
    simp only [h, ne_eq, not_true_eq_false, iff_false]
    split <;> simp [UnpackedFloat.isFinite]
  next h =>
    simp only [ne_eq, h, not_false_eq_true, iff_true]
    split
    · split <;> rfl
    · rfl

theorem unpackExponent_pack_neg (f : UnpackedFloat) :
    unpackExponent (UnpackedFloat.pack Format.binary64 f.neg) =
      unpackExponent (UnpackedFloat.pack Format.binary64 f) := by
  cases f with
  | notANumber => rfl
  | infinity s =>
    simp only [UnpackedFloat.neg, UnpackedFloat.pack, packedInfinity, unpackExponent_packComponents]
  | zero s =>
    simp only [UnpackedFloat.neg, UnpackedFloat.pack, packedZero, unpackExponent_packComponents]
  | finite s m e hm =>
    simp only [UnpackedFloat.neg, UnpackedFloat.pack]
    split
    · simp only [packedInfinity, unpackExponent_packComponents]
    · split <;> simp only [unpackExponent_packComponents]

theorem isFinite_neg {v : Float} (h : v.isFinite = true) : (-v).isFinite = true := by
  change (unpack Format.binary64 (UnpackedFloat.pack Format.binary64 v.toModel.unpack.neg)).isFinite
    = true
  change (unpack Format.binary64 v.toModel.toBits.toBitVec).isFinite = true at h
  rw [isFinite_unpack_iff] at h ⊢
  rwa [unpackExponent_pack_neg, Float.Model.unpack, pack_unpack_of_valid v.toModel.valid]

theorem not_lt_of_isNaN {v : Float} (h : v.isNaN = true) (w : Float) : ¬ w < v := by
  have hv : v.toModel.unpack = .notANumber := isNaN_iff.1 h
  have hcompare : w.toModel.unpack.compare v.toModel.unpack = none := by
    rw [hv]
    cases w.toModel.unpack <;> rfl
  intro hlt
  have hless : w.toModel.unpack.lt v.toModel.unpack = true := of_decide_eq_true hlt
  simp [UnpackedFloat.lt, hcompare] at hless

instance : Scalar.FiniteUnits Float := ⟨by decide, by decide, isFinite_neg⟩

/-- What is asked of doubles: floor and ceiling keep a value finite, and the distance of any other
value to the whole numbers is not a number. -/
theorem Scalar.roundsFinite_float
    (hfloor : ∀ v : Float, v.isFinite = true → v.floor.isFinite = true)
    (hceil : ∀ v : Float, v.isFinite = true → v.ceil.isFinite = true)
    (hfrac : ∀ v : Float, v.isFinite = false → (fractionality v).isNaN = true) :
    Scalar.RoundsFinite Float where
  floor := fun h => hfloor _ h
  ceil := fun h => hceil _ h
  fractionality := fun h tol => not_lt_of_isNaN (hfrac _ h) tol

end Double

/-- Exact rationals as far as a limit, an infinity of either sign beyond it, and a value that
compares with nothing. -/
inductive Ranged where
  | number (v : ℚ)
  | infinity (negative : Bool)
  | lost
  deriving DecidableEq

namespace Ranged

def limit : ℚ := 100

def ofRat (v : ℚ) : Ranged :=
  if limit < v then .infinity false else if v < -limit then .infinity true else .number v

def isNegative : Ranged → Bool
  | number v => decide (v < 0)
  | infinity s => s
  | lost => false

def neg : Ranged → Ranged
  | number v => number (-v)
  | infinity s => infinity (!s)
  | lost => lost

def add : Ranged → Ranged → Ranged
  | number v, number w => ofRat (v + w)
  | infinity s, infinity t => if s = t then infinity s else lost
  | infinity s, number _ => infinity s
  | number _, infinity s => infinity s
  | _, _ => lost

def mul : Ranged → Ranged → Ranged
  | number v, number w => ofRat (v * w)
  | number v, infinity s => if v = 0 then lost else infinity (s != decide (v < 0))
  | infinity s, number v => if v = 0 then lost else infinity (s != decide (v < 0))
  | infinity s, infinity t => infinity (s != t)
  | _, _ => lost

def div : Ranged → Ranged → Ranged
  | number v, number w =>
    if w ≠ 0 then ofRat (v / w) else if v = 0 then lost else infinity (decide (v < 0))
  | number _, infinity _ => number 0
  | infinity s, number w => infinity (s != decide (w < 0))
  | _, _ => lost

def less : Ranged → Ranged → Bool
  | number v, number w => decide (v < w)
  | number _, infinity s => !s
  | infinity s, number _ => s
  | infinity s, infinity t => s && !t
  | _, _ => false

def map (f : ℚ → ℚ) : Ranged → Ranged
  | number v => number (f v)
  | a => a

end Ranged

instance : Scalar Ranged where
  zero := .number 0
  one := .number 1
  add := .add
  sub a b := .add a (.neg b)
  mul := .mul
  div := .div
  neg := .neg
  lt a b := Ranged.less a b = true
  le a b := Ranged.less a b = true ∨ a = b ∧ a ≠ .lost
  ofScientific m s e := .ofRat (OfScientific.ofScientific m s e)
  decideLt a b := inferInstanceAs (Decidable (Ranged.less a b = true))
  decideLe a b := inferInstanceAs (Decidable (Ranged.less a b = true ∨ a = b ∧ a ≠ .lost))
  abs a := if a.isNegative then .neg a else a
  floor := .map Scalar.floor
  ceil := .map Scalar.ceil
  round := .map Scalar.round
  isFinite
    | .number _ => true
    | _ => false
  infinity? := some (.infinity false)

instance : Scalar.FiniteUnits Ranged where
  zero := rfl
  one := rfl
  neg {v} h := by
    cases v with
    | number => rfl
    | _ => cases h

theorem Scalar.roundsFinite_ranged : Scalar.RoundsFinite Ranged where
  floor {v} h := by
    cases v with
    | number => rfl
    | _ => cases h
  ceil {v} h := by
    cases v with
    | number => rfl
    | _ => cases h
  fractionality {v} h tol := by
    have hlost : fractionality v = .lost := by
      cases v with
      | number => cases h
      | infinity s => cases s <;> rfl
      | lost => rfl
    rw [hlost]
    change ¬ Ranged.less tol .lost = true
    cases tol <;> simp [Ranged.less]

variable {α : Type} [Scalar α]

namespace Problem

variable {p : Problem α}

structure AllFinite (p : Problem α) : Prop where
  costs : ∀ v ∈ p.c, Scalar.isFinite v = true
  rightHandSides : ∀ v ∈ p.b, Scalar.isFinite v = true
  rows : ∀ row ∈ p.A, ∀ v ∈ row, Scalar.isFinite v = true

theorem nonFinite?_eq_none_iff (l : List α) :
    nonFinite? l = none ↔ ∀ v ∈ l, Scalar.isFinite v = true := by
  simp [nonFinite?, List.findIdx?_eq_none_iff]

theorem valid_iff_shaped : p.Valid ↔ p.Shaped p.numVars ∧ p.AllFinite := by
  have hfinite (hshape : p.Shaped p.numVars) : p.Valid ↔ p.AllFinite := by
    have hrow : (p.A.findIdx? fun row => row.length ≠ p.numVars) = none := by
      rw [List.findIdx?_eq_none_iff]
      simpa using hshape.entries
    rw [Valid, defect?, if_neg (not_not.2 hshape.rows), hrow]
    simp only [Option.or_eq_none_iff, Option.map_eq_none_iff, nonFinite?_eq_none_iff,
      List.forall_mem_flatten]
    constructor
    · rintro ⟨hc, hb, hA⟩
      exact ⟨hc, hb, hA⟩
    · intro h
      exact ⟨h.costs, h.rightHandSides, h.rows⟩
  exact ⟨fun hp => ⟨.of_valid hp, (hfinite (.of_valid hp)).1 hp⟩, fun h => (hfinite h.1).2 h.2⟩

theorem Valid.withRow (hp : p.Valid) {row : List α} {rhs : α} (hlen : row.length = p.numVars)
    (hrow : ∀ v ∈ row, Scalar.isFinite v = true) (hrhs : Scalar.isFinite rhs = true) :
    (p.withRow row rhs).Valid := by
  obtain ⟨hshape, hfinite⟩ := valid_iff_shaped.1 hp
  refine valid_iff_shaped.2 ⟨hshape.withRow hlen rhs, hfinite.costs, ?_, ?_⟩
  · exact List.forall_mem_append.2 ⟨hfinite.rightHandSides, List.forall_mem_singleton.2 hrhs⟩
  · exact List.forall_mem_append.2 ⟨hfinite.rows, List.forall_mem_singleton.2 hrow⟩

end Problem

theorem Scalar.RoundsFinite.isFinite_of_lt (h : Scalar.RoundsFinite α) {v tol : α}
    (hlt : tol < IntegerPrograms.fractionality v) : Scalar.isFinite v = true := by
  by_contra hnot
  exact h.fractionality (Bool.eq_false_of_not_eq_true hnot) tol hlt

theorem Fractional.isFinite_bounds (hround : Scalar.RoundsFinite α) {f : Fractional α} {tol : α}
    (h : tol < fractionality f.value) {b : Bound α} (hb : b = f.down ∨ b = f.up) :
    Scalar.isFinite b.value = true := by
  have hvalue := hround.isFinite_of_lt h
  rcases hb with rfl | rfl
  · exact hround.floor hvalue
  · exact hround.ceil hvalue

section Bounds

variable [Scalar.FiniteUnits α]

theorem Bound.isFinite_of_mem_unitRow {n var : Nat} {one v : α}
    (hone : Scalar.isFinite one = true) (h : v ∈ unitRow n var one) : Scalar.isFinite v = true := by
  rcases List.mem_or_eq_of_mem_set h with hzero | rfl
  · rw [(List.mem_replicate.1 hzero).2]
    exact Scalar.FiniteUnits.zero
  · exact hone

theorem Problem.Valid.withBound? {p q : Problem α} (hp : p.Valid) {b : Bound α}
    (hb : Scalar.isFinite b.value = true) (h : p.withBound? b = some q) : q.Valid := by
  obtain ⟨⟨row, rhs⟩, hrow, rfl⟩ := Option.map_eq_some_iff.1 h
  obtain ⟨_, hrow⟩ := Option.ite_none_right_eq_some.1 hrow
  cases hside : b.side with
  | upper =>
    simp only [hside, Option.some.injEq, Prod.mk.injEq] at hrow
    obtain ⟨rfl, rfl⟩ := hrow
    exact hp.withRow (Bound.length_unitRow ..)
      (fun _ => Bound.isFinite_of_mem_unitRow Scalar.FiniteUnits.one) hb
  | lower =>
    simp only [hside, Option.some.injEq, Prod.mk.injEq] at hrow
    obtain ⟨rfl, rfl⟩ := hrow
    exact hp.withRow (Bound.length_unitRow ..)
      (fun _ => Bound.isFinite_of_mem_unitRow (Scalar.FiniteUnits.neg Scalar.FiniteUnits.one))
      (Scalar.FiniteUnits.neg hb)

end Bounds

end IntegerPrograms
