import Mathlib
import IntegerPrograms.Cut
import IntegerPrograms.Proofs.Tableau.Solutions

/-!
Gomory cuts in exact arithmetic. A cut is the row it comes from with every entry replaced by its
fractional part. At a whole point whose slacks are whole, the two sides of a row differ from those
of its cut by whole numbers, so the slack of the cut is whole as well, and it cannot be negative
where no variable and no slack is.
-/

set_option autoImplicit false

namespace IntegerPrograms

namespace Cut

section AnyArithmetic

variable {α : Type} [Scalar α] {n m : Nat} {t : Tableau α n m} {A : List (List α)} {b : List α}
  {integers : List Nat}

theorem foldlM_ok_induction {ι κ ε : Type} {f : κ → ι → Except ε κ} {I : List ι → κ → Prop}
    (past : List ι) (hstep : ∀ past acc i next, I past acc → f acc i = .ok next →
      I (past ++ [i]) next)
    {l : List ι} {acc last : κ} (hacc : I past acc) (h : l.foldlM f acc = .ok last) :
    I (past ++ l) last := by
  induction l generalizing past acc with
  | nil =>
    cases h
    simpa using hacc
  | cons i l ih =>
    rw [List.foldlM_cons] at h
    cases hi : f acc i with
    | error e =>
      rw [hi] at h
      cases h
    | ok next =>
      rw [hi] at h
      simpa using ih (past ++ [i]) (hstep past acc i next hacc hi) h

theorem exists_foldlM_ok {ι κ ε : Type} {f : κ → ι → Except ε κ}
    (hstep : ∀ acc i, ∃ next, f acc i = .ok next) (l : List ι) (acc : κ) :
    ∃ last, l.foldlM f acc = .ok last := by
  induction l generalizing acc with
  | nil => exact ⟨acc, rfl⟩
  | cons i l ih =>
    obtain ⟨next, hnext⟩ := hstep acc i
    obtain ⟨last, hlast⟩ := ih next
    exact ⟨last, by rw [List.foldlM_cons, hnext]; exact hlast⟩

theorem addSlack_eq_ok {f : α} {k : Nat} {acc acc' : List α × α}
    (h : addSlack A b f k acc = .ok acc') :
    ∃ row rhs, A[k]? = some row ∧ b[k]? = some rhs ∧
      acc' = (addScaled f acc.1 row, acc.2 + f * rhs) := by
  unfold addSlack at h
  split at h
  next row rhs hrow hrhs =>
    cases h
    exact ⟨row, rhs, hrow, hrhs, rfl⟩
  · cases h

theorem length_addSlack {f : α} {k : Nat} {acc acc' : List α × α}
    (h : addSlack A b f k acc = .ok acc') : acc'.1.length = acc.1.length := by
  obtain ⟨row, rhs, -, -, rfl⟩ := addSlack_eq_ok h
  exact length_addScaled ..

theorem length_expand {row : Fin m} {f : α} {result : List α × α}
    (h : expand t A b row f = .ok result) : result.1.length = n := by
  refine foldlM_ok_induction (I := fun _ acc => acc.1.length = n) [] ?_
    (by simp [ownCoefs]) h
  intro _ acc k next hacc hk
  split at hk
  · cases hk
    exact hacc
  · rw [length_addSlack hk, hacc]

theorem lt_length_of_expand {row : Fin m} {f : α} {result : List α × α}
    (h : expand t A b row f = .ok result) (k : Fin m)
    (hk : share? t row (Tableau.slackCol k) ≠ none) : k.val < A.length ∧ k.val < b.length := by
  refine foldlM_ok_induction (I := fun past _ => ∀ k ∈ past,
    share? t row (Tableau.slackCol k) ≠ none → k.val < A.length ∧ k.val < b.length) [] ?_
    (by simp) h k (List.mem_finRange k) hk
  intro past acc k next hpast hnext
  simp only [List.forall_mem_append, List.forall_mem_singleton]
  refine ⟨hpast, fun hk => ?_⟩
  obtain ⟨fk, hfk⟩ := Option.ne_none_iff_exists'.1 hk
  simp only [hfk] at hnext
  obtain ⟨row, rhs, hrow, hrhs, -⟩ := addSlack_eq_ok hnext
  exact ⟨(List.getElem?_eq_some_iff.1 hrow).1, (List.getElem?_eq_some_iff.1 hrhs).1⟩

theorem exists_expand (t : Tableau α n m) (hA : A.length = m) (hb : b.length = m) (row : Fin m)
    (f : α) : ∃ result, expand t A b row f = .ok result := by
  refine exists_foldlM_ok (fun acc k => ?_) _ _
  cases share? t row (Tableau.slackCol k) with
  | none => exact ⟨acc, rfl⟩
  | some fk =>
    have hrow : A[k.val]? = some A[k.val] := List.getElem?_eq_getElem _
    have hrhs : b[k.val]? = some b[k.val] := List.getElem?_eq_getElem _
    simp only [addSlack, hrow, hrhs]
    exact ⟨_, rfl⟩

/-- A source row has the fraction it is chosen for, no whole number is too close to it, and its basic
variable has to be whole. -/
theorem sourceRow?_spec {row : Fin m} {f : α} (h : sourceRow? t integers = some (row, f)) :
    f = frac (t.rhs row.castSucc) ∧ nearWhole f = false ∧ (t.basic row).val ∈ integers := by
  refine List.foldlRecOn (motive := fun best => best = some (row, f) →
    f = frac _ ∧ nearWhole f = false ∧ (t.basic row).val ∈ integers) _ _ ?_ ?_ h
  · intro hnone
    cases hnone
  intro best hbest i _ hnext
  dsimp only at hnext
  split at hnext
  · exact hbest hnext
  next hkeep =>
    have hsource : nearWhole (frac (t.rhs i.castSucc)) = false ∧ (t.basic i).val ∈ integers := by
      simp only [Bool.or_eq_true, not_or, Bool.not_eq_true, Bool.not_eq_false'] at hkeep
      exact ⟨hkeep.2, List.contains_iff_mem.1 hkeep.1⟩
    cases best with
    | none =>
      obtain ⟨rfl, rfl⟩ : i = row ∧ _ = f := by simpa using hnext
      exact ⟨rfl, hsource⟩
    | some b =>
      simp only at hnext
      split at hnext
      · obtain ⟨rfl, rfl⟩ : i = row ∧ _ = f := by simpa using hnext
        exact ⟨rfl, hsource⟩
      · exact hbest hnext

theorem derive_eq_derived {cut : Cut α} {basic : Nat}
    (h : derive t integers A b = .derived cut basic) :
    ∃ row : Fin m, cut.sourceRow = row ∧ cut.fraction = frac (t.rhs row.castSucc) ∧
      nearWhole cut.fraction = false ∧ expand t A b row cut.fraction = .ok (cut.coefs, cut.rhs) := by
  unfold derive at h
  split at h
  · cases h
  next row f hrow =>
    split at h
    · cases h
    next coefs rhs hexpand =>
      obtain ⟨rfl, -⟩ := Attempt.derived.inj h
      obtain ⟨hf, hnear, -⟩ := sourceRow?_spec hrow
      exact ⟨row, rfl, hf, hnear, hexpand⟩

theorem length_coefs {cut : Cut α} {basic : Nat}
    (h : derive t integers A b = .derived cut basic) : cut.coefs.length = n := by
  obtain ⟨_, _, _, _, hexpand⟩ := derive_eq_derived h
  exact length_expand hexpand

theorem basic_of_derive {cut : Cut α} {basic : Nat}
    (h : derive t integers A b = .derived cut basic) : cut.sourceRow < m ∧ basic ∈ integers := by
  unfold derive at h
  split at h
  · cases h
  next row f hrow =>
    split at h
    · cases h
    · obtain ⟨rfl, rfl⟩ := Attempt.derived.inj h
      exact ⟨row.isLt, (sourceRow?_spec hrow).2.2⟩

theorem derive_ne_missingRow (t : Tableau α n m) (integers : List Nat) (hA : A.length = m)
    (hb : b.length = m) (row : Nat) : derive t integers A b ≠ .missingRow row := by
  unfold derive
  split
  · simp
  next source f _ =>
    obtain ⟨result, hresult⟩ := exists_expand t hA hb source f
    rw [hresult]
    simp

end AnyArithmetic

end Cut

def Whole (v : ℚ) : Prop := ∃ k : ℤ, v = k

/-- Whole, or no nearer to a whole number than the tolerance that cuts go by. -/
def Resolved (v : ℚ) : Prop := Whole v ∨ ∀ k : ℤ, Tolerance.ratio ≤ |v - k|

theorem whole_iff_mem (v : ℚ) : Whole v ↔ v ∈ (Int.castRingHom ℚ).range := by
  rw [Whole, RingHom.mem_range]
  exact exists_congr fun k => eq_comm

theorem whole_iff_fract (v : ℚ) : Whole v ↔ Int.fract v = 0 := by
  rw [Int.fract_eq_zero_iff, Whole, Set.mem_range]
  exact exists_congr fun k => eq_comm

instance (v : ℚ) : Decidable (Whole v) := decidable_of_iff _ (whole_iff_fract v).symm

theorem resolved_iff (v : ℚ) :
    Resolved v ↔ Int.fract v = 0 ∨
      Tolerance.ratio ≤ Int.fract v ∧ Int.fract v ≤ 1 - Tolerance.ratio := by
  rw [Resolved, whole_iff_fract]
  refine or_congr_right ⟨fun h => ?_, fun ⟨hlow, hhigh⟩ k => ?_⟩
  · have hlow := h ⌊v⌋
    have hhigh := h (⌊v⌋ + 1)
    have hfract : v - ⌊v⌋ = Int.fract v := rfl
    rw [hfract, abs_of_nonneg (Int.fract_nonneg v)] at hlow
    push_cast at hhigh
    rw [← sub_sub, hfract, abs_of_neg (by linarith [Int.fract_lt_one v])] at hhigh
    exact ⟨hlow, by linarith⟩
  · have hfloor : v = ⌊v⌋ + Int.fract v := (Int.floor_add_fract v).symm
    rcases le_or_gt k ⌊v⌋ with hk | hk
    · have hcast : (k : ℚ) ≤ ⌊v⌋ := by exact_mod_cast hk
      exact le_trans (by linarith) (le_abs_self _)
    · have hcast : (⌊v⌋ : ℚ) + 1 ≤ k := by exact_mod_cast hk
      exact le_trans (by linarith) (neg_le_abs _)

instance (v : ℚ) : Decidable (Resolved v) := decidable_of_iff _ (resolved_iff v).symm

theorem frac_of_resolved {v : ℚ} (h : Resolved v) : frac v = Int.fract v := by
  have hfloor : ⌊v + Tolerance.floor⌋ = ⌊v⌋ := by
    have hv : v = ⌊v⌋ + Int.fract v := (Int.floor_add_fract v).symm
    have hnonneg := Int.fract_nonneg v
    rw [Int.floor_eq_iff]
    rcases (resolved_iff v).1 h with hz | ⟨_, hhigh⟩
    · rw [hz] at hv
      constructor <;> norm_num [Tolerance.floor_rat] <;> linarith
    · rw [Tolerance.ratio_rat] at hhigh
      constructor <;> norm_num [Tolerance.floor_rat] <;> linarith
  rw [frac, Scalar.floor_rat, hfloor]
  rfl

section Fractions

variable {ι : Type} [Fintype ι] (a : ι → ℚ) (w : ι → ℤ) {β : ℚ}

theorem sum_fract_sub_fract (h : ∑ i, a i * w i = β) :
    ∑ i, Int.fract (a i) * w i - Int.fract β = ((⌊β⌋ - ∑ i, ⌊a i⌋ * w i : ℤ) : ℚ) := by
  have hsplit : ∑ i, Int.fract (a i) * w i = β - ∑ i, (⌊a i⌋ : ℚ) * w i := by
    rw [← h, ← Finset.sum_sub_distrib]
    exact Finset.sum_congr rfl fun i _ => by rw [Int.fract]; ring
  rw [hsplit, Int.fract]
  push_cast
  ring

theorem fract_le_sum_fract (h : ∑ i, a i * w i = β) (hw : ∀ i, 0 ≤ w i) :
    Int.fract β ≤ ∑ i, Int.fract (a i) * w i := by
  have hnonneg : 0 ≤ ∑ i, Int.fract (a i) * w i :=
    Finset.sum_nonneg fun i _ => mul_nonneg (Int.fract_nonneg _) (by exact_mod_cast hw i)
  have hwhole := sum_fract_sub_fract a w h
  have hgt : (-1 : ℚ) < ((⌊β⌋ - ∑ i, ⌊a i⌋ * w i : ℤ) : ℚ) := by
    rw [← hwhole]
    linarith [Int.fract_lt_one β]
  have hge : 0 ≤ ⌊β⌋ - ∑ i, ⌊a i⌋ * w i := by
    have : -1 < ⌊β⌋ - ∑ i, ⌊a i⌋ * w i := by exact_mod_cast hgt
    omega
  have : (0 : ℚ) ≤ ((⌊β⌋ - ∑ i, ⌊a i⌋ * w i : ℤ) : ℚ) := by exact_mod_cast hge
  linarith

end Fractions

/-- At whole points every constraint has a whole slack. -/
def Problem.WholeSlacks (p : Problem ℚ) : Prop :=
  ∀ y, y.length = p.numVars → (∀ v ∈ y, Whole v) → ∀ e ∈ p.excesses y, Whole e

theorem Problem.WholeSlacks.exists_integers {p : Problem ℚ} (hw : p.WholeSlacks) (hp : p.Valid)
    {v : Fin p.numVars → ℚ} (hv : ∀ u ∈ List.ofFn v, Whole u) :
    ∃ (z : Fin p.numVars → ℤ) (s : Fin p.numRows → ℤ),
      (∀ j, v j = z j) ∧ ∀ k, p.limit k - ∑ j, p.coef k j * v j = s k := by
  have hz (j : Fin p.numVars) : Whole (v j) := hv _ (List.mem_ofFn.2 ⟨j, rfl⟩)
  have hs (k : Fin p.numRows) : Whole (∑ j, p.coef k j * v j - p.limit k) := by
    refine hw _ List.length_ofFn hv _ ?_
    rw [excesses_ofFn hp]
    exact List.mem_ofFn.2 ⟨k, rfl⟩
  choose z hz using hz
  choose e he using hs
  refine ⟨z, fun k => -e k, hz, fun k => ?_⟩
  rw [← neg_sub, he, Int.cast_neg]

namespace Cut

variable {n m : Nat}

def share (t : Tableau ℚ n m) (row : Fin m) (j : Fin (n + m + 1)) : ℚ :=
  (share? t row j).getD 0

/-- What an entry counts for in the cut of its row: its fraction, unless that is negligible. -/
def counted (v : ℚ) : ℚ := if Tolerance.ratio ≤ frac v then frac v else 0

theorem share_eq_counted (t : Tableau ℚ n m) (row : Fin m) (j : Fin (n + m + 1)) :
    share t row j = counted (t.get row.castSucc j) := by
  rw [share, share?, counted]
  rcases lt_or_ge (frac (t.get row.castSucc j)) Tolerance.ratio with h | h
  · rw [if_pos h, if_neg (not_le.2 h)]
    rfl
  · rw [if_neg (not_lt.2 h), if_pos h]
    rfl

theorem counted_of_resolved {v : ℚ} (h : Resolved v) : counted v = Int.fract v := by
  rw [counted, frac_of_resolved h]
  rcases (resolved_iff v).1 h with hz | ⟨hlow, _⟩
  · rw [hz, ite_self]
  · rw [if_pos hlow]

theorem dot_addScaled (f : ℚ) {cs y : List ℚ} (h : y.length ≤ cs.length) (as : List ℚ) :
    Scalar.dot (addScaled f cs as) y = Scalar.dot cs y + f * Scalar.dot as y := by
  induction cs generalizing as y with
  | nil =>
    obtain rfl : y = [] := List.length_eq_zero_iff.1 (Nat.le_zero.1 h)
    simp [Scalar.dot_nil_right]
  | cons c cs ih =>
    cases as with
    | nil => simp [addScaled, Scalar.dot_nil_left]
    | cons a as =>
      cases y with
      | nil => simp [Scalar.dot_nil_right]
      | cons v y =>
        have hrest := ih (Nat.le_of_succ_le_succ h) as
        simp only [addScaled, Scalar.dot_cons, hrest]
        ring

def slackOf (A : List (List ℚ)) (b : List ℚ) (k : Nat) (x : List ℚ) : ℚ :=
  match A[k]?, b[k]? with
  | some row, some rhs => rhs - Scalar.dot row x
  | _, _ => 0

theorem dot_ownCoefs (t : Tableau ℚ n m) (row : Fin m) (v : Fin n → ℚ) :
    Scalar.dot (ownCoefs t row) (List.ofFn v) =
      -∑ j, share t row (Tableau.decisionCol j) * v j := by
  rw [ownCoefs, Scalar.dot_ofFn, ← Finset.sum_neg_distrib]
  refine Finset.sum_congr rfl fun j _ => ?_
  rw [share]
  cases share? t row (Tableau.decisionCol j) with
  | none => simp
  | some f => simp

/-- The slack of an expanded cut is the row's fractions applied to the point and the slacks that it
leaves in the system. -/
theorem slack_expand {t : Tableau ℚ n m} {A : List (List ℚ)} {b : List ℚ} {row : Fin m} {f : ℚ}
    {result : List ℚ × ℚ} (h : expand t A b row f = .ok result) (v : Fin n → ℚ) :
    result.2 - Scalar.dot result.1 (List.ofFn v) =
      ∑ j, share t row (Tableau.decisionCol j) * v j +
        ∑ k, share t row (Tableau.slackCol k) * slackOf A b k (List.ofFn v) - f := by
  have hfold := foldlM_ok_induction (I := fun past acc => acc.1.length = n ∧
    acc.2 - Scalar.dot acc.1 (List.ofFn v) = -f - Scalar.dot (ownCoefs t row) (List.ofFn v) +
      (past.map fun k => share t row (Tableau.slackCol k) *
        slackOf A b k (List.ofFn v)).sum) [] ?_ (by simp [ownCoefs]) h
  · rw [hfold.2, dot_ownCoefs, List.nil_append, ← Fin.sum_univ_def]
    ring
  intro past acc k next ⟨hlen, hsum⟩ hk
  rw [List.map_append, List.sum_append, List.map_singleton, List.sum_singleton, ← add_assoc, ← hsum,
    share]
  cases hf : share? t row (Tableau.slackCol k) with
  | none =>
    rw [hf] at hk
    cases hk
    exact ⟨hlen, by simp⟩
  | some fk =>
    rw [hf] at hk
    obtain ⟨a, rhs, hrow, hrhs, rfl⟩ := addSlack_eq_ok hk
    refine ⟨(length_addScaled ..).trans hlen, ?_⟩
    rw [dot_addScaled fk (by simp [hlen]), slackOf, hrow, hrhs, Option.getD_some]
    ring

variable {p : Problem ℚ} {t : Tableau ℚ p.numVars p.numRows} {cut : Cut ℚ} {basic : Nat}
  {integers : List Nat}

theorem slackOf_problem (hp : p.Valid) (k : Fin p.numRows) (v : Fin p.numVars → ℚ) :
    slackOf p.A p.b k (List.ofFn v) = p.limit k - ∑ j, p.coef k j * v j := by
  rw [slackOf, Problem.getElem?_A hp, Problem.getElem?_b]
  exact congrArg (p.limit k - ·) (Scalar.dot_ofFn ..)

/-- The slack of a cut from a resolved row: the fractions of the row's entries, applied to the point
and its slacks, less that of the right-hand side. -/
theorem slack_derived (hp : p.Valid) (h : derive t integers p.A p.b = .derived cut basic)
    (hresolved : ∀ i : Fin p.numRows, i.val = cut.sourceRow →
      ∀ j, Resolved (t.get i.castSucc j)) :
    ∃ row : Fin p.numRows, ∀ v : Fin p.numVars → ℚ,
      cut.rhs - Scalar.dot cut.coefs (List.ofFn v) =
        ∑ j, Int.fract (t.get row.castSucc (Tableau.decisionCol j)) * v j +
          ∑ k, Int.fract (t.get row.castSucc (Tableau.slackCol k)) *
            (p.limit k - ∑ j, p.coef k j * v j) - Int.fract (t.rhs row.castSucc) := by
  obtain ⟨row, hrow, hfraction, -, hexpand⟩ := derive_eq_derived h
  have hentry := hresolved row hrow.symm
  have hrhs : frac (t.rhs row.castSucc) = Int.fract (t.rhs row.castSucc) :=
    frac_of_resolved (hentry _)
  refine ⟨row, fun v => ?_⟩
  rw [slack_expand hexpand, hfraction, hrhs]
  simp only [share_eq_counted, counted_of_resolved (hentry _), slackOf_problem hp]

theorem sum_columns (g : Fin (n + m + 1) → ℚ) (z : Fin n → ℤ) (s : Fin m → ℤ) :
    ∑ j : Fin (n + m), g j.castSucc * (Fin.append z s j : ℤ) =
      ∑ j, g (Tableau.decisionCol j) * z j + ∑ k, g (Tableau.slackCol k) * s k := by
  rw [Fin.sum_univ_add]
  simp only [Fin.append_left, Fin.append_right]
  rfl

/-- At a whole point a cut from a resolved row is off by a whole number, and in the right direction
where the point satisfies the system. -/
theorem whole_violation (hp : p.Valid) (ht : t.Reachable p) (hw : p.WholeSlacks)
    (h : derive t integers p.A p.b = .derived cut basic)
    (hresolved : ∀ i : Fin p.numRows, i.val = cut.sourceRow →
      ∀ j, Resolved (t.get i.castSucc j))
    {y : List ℚ} (hlen : y.length = p.numVars) (hy : ∀ v ∈ y, Whole v) :
    Whole (cut.violation y) ∧ (p.Feasible y → cut.violation y ≤ 0) := by
  obtain ⟨v, rfl⟩ := Problem.exists_ofFn hlen
  obtain ⟨z, s, hz, hs⟩ := hw.exists_integers hp hy
  obtain ⟨row, hcut⟩ := slack_derived hp h hresolved
  have hrow := (ht.solves_iff hp v fun k => s k).2 (fun k => (hs k).symm) row
  have hslack := hcut v
  simp only [hs] at hslack
  simp only [hz] at hrow hslack
  rw [← sum_columns (t.get row.castSucc)] at hrow
  rw [← sum_columns fun j => Int.fract (t.get row.castSucc j)] at hslack
  rw [violation, ← neg_sub, hslack]
  constructor
  · rw [sum_fract_sub_fract _ _ hrow]
    exact ⟨_, (Int.cast_neg _).symm⟩
  · intro hfeasible
    obtain ⟨hlimit, hnonneg⟩ := (Problem.feasible_ofFn hp v).1 hfeasible
    have hle := fract_le_sum_fract _ (Fin.append z s) hrow ?_
    · linarith
    refine Fin.addCases (fun j => ?_) (fun k => ?_)
    · have := hnonneg j
      rw [hz] at this
      simpa using this
    · have : 0 ≤ p.limit k - ∑ j, p.coef k j * v j := sub_nonneg.2 (hlimit k)
      rw [hs] at this
      simpa using this

end Cut

end IntegerPrograms
