import Mathlib
import IntegerPrograms.Proofs.Exact

set_option autoImplicit false

namespace IntegerPrograms

section Selection

variable {α : Type} [Scalar α]

theorem mapM_of_forall_some {ι κ : Type} {f : ι → Option κ} (g : ι → κ) {l : List ι}
    (h : ∀ i ∈ l, f i = some (g i)) : l.mapM f = some (l.map g) := by
  induction l with
  | nil => rfl
  | cons i l ih =>
    have hi := h i (by simp)
    have hl := ih fun j hj => h j (by simp [hj])
    simp [List.mapM_cons, hi, hl]

theorem MixedProblem.fractional?_spec (p : MixedProblem α) {x : List α}
    (hx : x.length = p.lp.numVars) (tol : α) :
    ∃ l, p.fractional? x tol = some l ∧ ∀ f, f ∈ l ↔ f.var ∈ p.integers ∧
      x[f.var]? = some f.value ∧ f.score = fractionality f.value ∧ tol < f.score := by
  have hget (i : Nat) (hi : i ∈ p.integers) : x[i]?.map (fun v => (⟨i, v, fractionality v⟩ :
      Fractional α)) = some ⟨i, x[i]?.getD 0, fractionality (x[i]?.getD 0)⟩ := by
    have hlt : i < x.length := hx ▸ p.integers_lt i hi
    simp [List.getElem?_eq_getElem hlt]
  refine ⟨_, by rw [fractional?, mapM_of_forall_some _ hget]; rfl, fun f => ?_⟩
  simp only [List.mem_filter, List.mem_map, decide_eq_true_eq]
  constructor
  · rintro ⟨⟨i, hi, rfl⟩, htol⟩
    have hlt : i < x.length := hx ▸ p.integers_lt i hi
    exact ⟨hi, by simp [List.getElem?_eq_getElem hlt], rfl, htol⟩
  · rintro ⟨hi, hv, hs, htol⟩
    refine ⟨⟨f.var, hi, ?_⟩, htol⟩
    rw [hv, Option.getD_some, ← hs]

def Fractional.better (best : Option (Fractional α)) (f : Fractional α) : Option (Fractional α) :=
  match best with
  | none => some f
  | some g => if f.score ≤ g.score + Tolerance.ratio then some g else some f

theorem Fractional.most?_eq_foldl (l : List (Fractional α)) : most? l = l.foldl better none := rfl

theorem Fractional.better_cases (best : Option (Fractional α)) (f : Fractional α) :
    better best f = some f ∨ (better best f = best ∧ best ≠ none) := by
  cases best with
  | none => exact .inl rfl
  | some g =>
    by_cases h : f.score ≤ g.score + Tolerance.ratio
    · exact .inr ⟨if_pos h, by simp⟩
    · exact .inl (if_neg h)

theorem Fractional.mem_of_foldl_better {l : List (Fractional α)} {best : Option (Fractional α)}
    {f : Fractional α} (h : l.foldl better best = some f) : best = some f ∨ f ∈ l := by
  induction l generalizing best with
  | nil => exact .inl h
  | cons g l ih =>
    rcases ih h with hb | hm
    · rcases better_cases best g with hg | ⟨hg, _⟩
      · rw [hg] at hb
        simp [Option.some.inj hb]
      · exact .inl (hg ▸ hb)
    · simp [hm]

theorem Fractional.foldl_better_none {l : List (Fractional α)} {best : Option (Fractional α)}
    (h : l.foldl better best = none) : best = none ∧ l = [] := by
  induction l generalizing best with
  | nil => exact ⟨h, rfl⟩
  | cons g l ih =>
    have hnone := (ih h).1
    rcases better_cases best g with hg | ⟨hg, hne⟩
    · simp [hg] at hnone
    · exact absurd (hg ▸ hnone) hne

theorem BranchingRule.pick?_mem {rule : BranchingRule} {l : List (Fractional α)}
    {f : Fractional α} (h : rule.pick? l = some f) : f ∈ l := by
  cases rule with
  | firstFractional => exact List.mem_of_mem_head? h
  | mostFractional =>
    rw [pick?, Fractional.most?_eq_foldl] at h
    rcases Fractional.mem_of_foldl_better h with hn | hm
    · cases hn
    · exact hm

theorem BranchingRule.pick?_none {rule : BranchingRule} {l : List (Fractional α)}
    (h : rule.pick? l = none) : l = [] := by
  cases rule with
  | firstFractional => exact List.head?_eq_none_iff.1 h
  | mostFractional =>
    rw [pick?, Fractional.most?_eq_foldl] at h
    exact (Fractional.foldl_better_none h).2

theorem mem_of_mapM_some {ι κ : Type} {f : ι → Option κ} {l : List ι} {r : List κ}
    (h : l.mapM f = some r) {b : κ} (hb : b ∈ r) : ∃ i ∈ l, f i = some b := by
  induction l generalizing r with
  | nil =>
    obtain rfl : [] = r := by simpa using h
    cases hb
  | cons i l ih =>
    simp only [List.mapM_cons, Option.bind_eq_bind, Option.bind_eq_some_iff] at h
    obtain ⟨a, ha, rest, hrest, he⟩ := h
    obtain rfl : a :: rest = r := by simpa using he
    rcases List.mem_cons.1 hb with rfl | hb
    · exact ⟨i, by simp, ha⟩
    · obtain ⟨j, hj, hfj⟩ := ih hrest hb
      exact ⟨j, by simp [hj], hfj⟩

theorem MixedProblem.select?_some {p : MixedProblem α} {rule : BranchingRule} {x : List α} {tol : α}
    {f : Fractional α} (h : p.select? rule x tol = some (some f)) :
    f.var ∈ p.integers ∧ x[f.var]? = some f.value ∧ tol < fractionality f.value := by
  obtain ⟨l, hl, hpick⟩ := Option.map_eq_some_iff.1 h
  simp only [fractional?, Option.bind_eq_bind, Option.bind_eq_some_iff] at hl
  obtain ⟨all, hall, he⟩ := hl
  obtain rfl := Option.some.inj he
  obtain ⟨hmem, hlt⟩ := List.mem_filter.1 (BranchingRule.pick?_mem hpick)
  obtain ⟨i, hi, hentry⟩ := mem_of_mapM_some hall hmem
  obtain ⟨v, hv, rfl⟩ := Option.map_eq_some_iff.1 hentry
  exact ⟨hi, hv, of_decide_eq_true hlt⟩

/-- What a selection says: nothing is fractional, or the choice is. -/
theorem MixedProblem.select?_spec (p : MixedProblem α) (rule : BranchingRule) {x : List α}
    (hx : x.length = p.lp.numVars) (tol : α) :
    (p.select? rule x tol = some none ∧
      ∀ i ∈ p.integers, ∀ v, x[i]? = some v → ¬ tol < fractionality v) ∨
    ∃ f, p.select? rule x tol = some (some f) ∧ f.var ∈ p.integers ∧
      x[f.var]? = some f.value ∧ tol < fractionality f.value := by
  obtain ⟨l, hl, hmem⟩ := p.fractional?_spec hx tol
  have hsel : p.select? rule x tol = some (rule.pick? l) := by rw [select?, hl]; rfl
  cases hpick : rule.pick? l with
  | none =>
    left
    refine ⟨by rw [hsel, hpick], fun i hi v hv hlt => ?_⟩
    have hin := (hmem ⟨i, v, fractionality v⟩).2 ⟨hi, hv, rfl, hlt⟩
    rw [BranchingRule.pick?_none hpick] at hin
    cases hin
  | some f =>
    right
    have hchoice := hsel.trans (congrArg some hpick)
    exact ⟨f, hchoice, select?_some hchoice⟩

end Selection

/-- A point on the right side of a bound. -/
def Bound.Holds (b : Bound ℚ) (y : List ℚ) : Prop :=
  ∃ v, y[b.var]? = some v ∧
    match b.side with
    | .upper => v ≤ b.value
    | .lower => b.value ≤ v

theorem Scalar.dot_unitRow {n var : Nat} (h : var < n) (v : ℚ) (w : Fin n → ℚ) :
    Scalar.dot (Bound.unitRow n var v) (List.ofFn w) = v * w ⟨var, h⟩ := by
  have hrow : Bound.unitRow n var v = List.ofFn (Pi.single ⟨var, h⟩ v : Fin n → ℚ) := by
    apply List.ext_getElem
    · simp [Bound.length_unitRow]
    · intro j hj _
      rw [Bound.length_unitRow] at hj
      by_cases hv : var = j
      · subst hv
        simp [Bound.unitRow]
      · simp [Bound.unitRow, hv, Ne.symm hv]
  rw [hrow, Scalar.dot_ofFn]
  simp [Pi.single_apply]

theorem Bound.row?_spec (b : Bound ℚ) {n : Nat} (h : b.var < n) :
    ∃ row rhs, b.row? n = some (row, rhs) ∧ row.length = n ∧
      ∀ y : List ℚ, y.length = n → (Scalar.dot row y ≤ rhs ↔ b.Holds y) := by
  obtain ⟨var, side, value⟩ := b
  have hvar : var < n := h
  have hdot (v : ℚ) (y : List ℚ) (hy : y.length = n) :
      ∃ u, y[var]? = some u ∧ Scalar.dot (unitRow n var v) y = v * u := by
    subst hy
    refine ⟨y[var], List.getElem?_eq_getElem hvar, ?_⟩
    have h := Scalar.dot_unitRow hvar v y.get
    rwa [List.ofFn_get] at h
  cases side with
  | upper =>
    refine ⟨unitRow n var 1, value, by simp [row?, hvar], length_unitRow .., fun y hy => ?_⟩
    obtain ⟨u, hu, hrow⟩ := hdot 1 y hy
    simp [hrow, Holds, hu]
  | lower =>
    refine ⟨unitRow n var (-1), -value, by simp [row?, hvar], length_unitRow .., fun y hy => ?_⟩
    obtain ⟨u, hu, hrow⟩ := hdot (-1) y hy
    simp [hrow, Holds, hu]

/-- A bound on a variable of the problem can be appended, and keeps the points that it holds at. -/
theorem Problem.withBound?_satisfied {p : Problem ℚ} (hp : p.Valid) {b : Bound ℚ}
    (h : b.var < p.numVars) :
    ∃ q, p.withBound? b = some q ∧ q.Valid ∧ q.c = p.c ∧
      ∀ y, q.Satisfied y ↔ p.Satisfied y ∧ b.Holds y := by
  obtain ⟨row, rhs, hrow, hlen, hholds⟩ := b.row?_spec h
  refine ⟨p.withRow row rhs, by rw [withBound?, hrow]; rfl, valid_withRow hp hlen rhs, rfl, ?_⟩
  intro y
  rw [satisfied_withRow hp]
  exact and_congr_right fun hy => hholds y hy.1

theorem Problem.withBound?_spec {p : Problem ℚ} (hp : p.Valid) {b : Bound ℚ}
    (h : b.var < p.numVars) :
    ∃ q, p.withBound? b = some q ∧ q.Valid ∧ q.c = p.c ∧
      ∀ y, q.Feasible y ↔ p.Feasible y ∧ b.Holds y := by
  obtain ⟨q, hq, hvalid, hcosts, hsatisfied⟩ := withBound?_satisfied hp h
  refine ⟨q, hq, hvalid, hcosts, fun y => ?_⟩
  rw [feasible_iff_satisfied, feasible_iff_satisfied, hsatisfied, and_right_comm]

namespace Fractional

theorem down_holds_iff (f : Fractional ℚ) {y : List ℚ} {v : ℚ} (hv : y[f.var]? = some v) :
    f.down.Holds y ↔ v ≤ ⌊f.value⌋ := by
  constructor
  · rintro ⟨w, hw, hle⟩
    obtain rfl : v = w := Option.some.inj (hv.symm.trans hw)
    exact hle
  · exact fun hle => ⟨v, hv, hle⟩

theorem up_holds_iff (f : Fractional ℚ) {y : List ℚ} {v : ℚ} (hv : y[f.var]? = some v) :
    f.up.Holds y ↔ ⌈f.value⌉ ≤ v := by
  rw [← Scalar.ceil_rat]
  constructor
  · rintro ⟨w, hw, hle⟩
    obtain rfl : v = w := Option.some.inj (hv.symm.trans hw)
    exact hle
  · exact fun hle => ⟨v, hv, hle⟩

theorem down_or_up (f : Fractional ℚ) {y : List ℚ} {k : ℤ} (hk : y[f.var]? = some (k : ℚ)) :
    f.down.Holds y ∨ f.up.Holds y := by
  rw [f.down_holds_iff hk, f.up_holds_iff hk, Int.cast_le, Int.cast_le, Int.le_floor, Int.ceil_le]
  exact le_total _ _

theorem not_down_and_up (f : Fractional ℚ) (hf : 0 < fractionality f.value) {y : List ℚ}
    (hdown : f.down.Holds y) (hup : f.up.Holds y) : False := by
  obtain ⟨v, hv, _⟩ := id hdown
  have hle := (f.down_holds_iff hv).1 hdown
  have hge := (f.up_holds_iff hv).1 hup
  obtain ⟨hfloor, hceil⟩ := floor_lt_lt_ceil hf
  linarith

theorem not_down_nor_up (f : Fractional ℚ) (hf : 0 < fractionality f.value) {x : List ℚ}
    (hx : x[f.var]? = some f.value) : ¬ f.down.Holds x ∧ ¬ f.up.Holds x := by
  rw [f.down_holds_iff hx, f.up_holds_iff hx, not_le, not_le]
  exact floor_lt_lt_ceil hf

end Fractional

end IntegerPrograms
