import Mathlib
import IntegerPrograms.Proofs.Tableau.Basis

set_option autoImplicit false

namespace IntegerPrograms

section Least

variable {ι : Type} {admits : ℚ → Bool} {key : ι → Option ℚ}

theorem forall_key_snoc {P : ℚ → Prop} (seen : List ι) (i : ι) :
    (∀ j ∈ seen ++ [i], ∀ w, key j = some w → P w) ↔
      (∀ j ∈ seen, ∀ w, key j = some w → P w) ∧ ∀ w, key i = some w → P w := by
  simp only [List.mem_append, List.mem_singleton, or_imp, forall_and, forall_eq]

/-- The invariant of the scan: the best so far is an admitted candidate, and no candidate that was
passed is smaller. -/
structure LeastSoFar (admits : ℚ → Bool) (key : ι → Option ℚ) (seen : List ι)
    (best : Option (ι × ℚ)) : Prop where
  none_of : best = none → ∀ j ∈ seen, ∀ w, key j = some w → admits w = false
  some_of : ∀ i v, best = some (i, v) → key i = some v ∧ admits v = true ∧
    ∀ j ∈ seen, ∀ w, key j = some w → v ≤ w

theorem LeastSoFar.of_none {seen : List ι}
    (h : ∀ j ∈ seen, ∀ w, key j = some w → admits w = false) : LeastSoFar admits key seen none :=
  ⟨fun _ => h, by simp⟩

theorem LeastSoFar.of_some {seen : List ι} {i : ι} {v : ℚ} (hi : key i = some v)
    (ha : admits v = true) (h : ∀ j ∈ seen, ∀ w, key j = some w → v ≤ w) :
    LeastSoFar admits key seen (some (i, v)) := by
  refine ⟨by simp, fun i' v' he => ?_⟩
  obtain ⟨rfl, rfl⟩ : i = i' ∧ v = v' := by simpa using he
  exact ⟨hi, ha, h⟩

theorem LeastSoFar.betterOf (hdown : ∀ v w, v < w → admits w = true → admits v = true)
    {seen : List ι} {best : Option (ι × ℚ)} (h : LeastSoFar admits key seen best) {i : ι} {u : ℚ}
    (hk : key i = some u) :
    LeastSoFar admits key (seen ++ [i]) (betterOf admits best i u) := by
  have hown : ∀ w, key i = some w → u = w := fun w hw => Option.some.inj (hk.symm.trans hw)
  cases best with
  | none =>
    have hseen := h.none_of rfl
    cases ha : admits u with
    | true =>
      rw [IntegerPrograms.betterOf, if_pos ha]
      refine .of_some hk ha ((forall_key_snoc seen i).2 ⟨fun j hj w hw => ?_, fun w hw =>
        (hown w hw).le⟩)
      by_contra hlt
      have hw' := hdown w u (not_le.1 hlt) ha
      simp [hseen j hj w hw] at hw'
    | false =>
      rw [IntegerPrograms.betterOf, if_neg (by simp [ha])]
      exact .of_none ((forall_key_snoc seen i).2 ⟨hseen, fun w hw => hown w hw ▸ ha⟩)
  | some b =>
    obtain ⟨l, v⟩ := b
    obtain ⟨hl, ha, hmin⟩ := h.some_of l v rfl
    by_cases hlt : u < v
    · rw [IntegerPrograms.betterOf, if_pos hlt]
      exact .of_some hk (hdown u v hlt ha) ((forall_key_snoc seen i).2
        ⟨fun j hj w hw => hlt.le.trans (hmin j hj w hw), fun w hw => (hown w hw).le⟩)
    · rw [IntegerPrograms.betterOf, if_neg hlt]
      exact .of_some hl ha ((forall_key_snoc seen i).2
        ⟨hmin, fun w hw => hown w hw ▸ not_lt.1 hlt⟩)

theorem leastSoFar_foldl (hdown : ∀ v w, v < w → admits w = true → admits v = true)
    (l seen : List ι) (best : Option (ι × ℚ)) (h : LeastSoFar admits key seen best) :
    LeastSoFar admits key (seen ++ l)
      (l.foldl (fun best i => (key i).elim best (betterOf admits best i)) best) := by
  induction l generalizing seen best with
  | nil => simpa using h
  | cons i l ih =>
    have hstep : LeastSoFar admits key (seen ++ [i])
        ((key i).elim best (betterOf admits best i)) := by
      cases hk : key i with
      | none =>
        refine ⟨fun hb => ?_, fun i' v hb => ?_⟩
        · exact (forall_key_snoc seen i).2 ⟨h.none_of hb, by simp [hk]⟩
        · obtain ⟨hv, ha, hmin⟩ := h.some_of i' v hb
          exact ⟨hv, ha, (forall_key_snoc seen i).2 ⟨hmin, by simp [hk]⟩⟩
      | some u => exact h.betterOf hdown hk
    simpa using ih (seen ++ [i]) _ hstep

theorem leastSoFar_scan (hdown : ∀ v w, v < w → admits w = true → admits v = true)
    (l : List ι) : LeastSoFar admits key l
      (l.foldl (fun best i => (key i).elim best (betterOf admits best i)) none) := by
  simpa using leastSoFar_foldl hdown l [] none ⟨by simp, by simp⟩

theorem leastBy_none (hdown : ∀ v w, v < w → admits w = true → admits v = true) {l : List ι}
    (h : leastBy admits key l = none) {j : ι} (hj : j ∈ l) {w : ℚ} (hw : key j = some w) :
    admits w = false :=
  (leastSoFar_scan hdown l).none_of (by simpa [leastBy] using h) j hj w hw

theorem leastBy_some (hdown : ∀ v w, v < w → admits w = true → admits v = true) {l : List ι}
    {i : ι} (h : leastBy admits key l = some i) :
    ∃ v, key i = some v ∧ admits v = true ∧ ∀ j ∈ l, ∀ w, key j = some w → v ≤ w := by
  obtain ⟨⟨i', v⟩, hb, rfl⟩ := Option.map_eq_some_iff.1 h
  exact ⟨v, (leastSoFar_scan hdown l).some_of i' v hb⟩

end Least

namespace Tableau

variable {n m : Nat} {t : Tableau ℚ n m}

theorem primalEntering_none (h : t.primalEntering = none) (j : Fin (n + m)) :
    -Tolerance.ratio ≤ t.reducedCost j.castSucc := by
  have hj := leastBy_none (fun v w hvw hw => by
    simp only [decide_eq_true_eq] at hw ⊢
    exact hvw.trans hw) h (List.mem_finRange j) rfl
  simpa using hj

theorem primalEntering_some {k : Fin (n + m)} (h : t.primalEntering = some k) :
    t.reducedCost k.castSucc < -Tolerance.ratio := by
  obtain ⟨v, hv, ha, _⟩ := leastBy_some (fun v w hvw hw => by
    simp only [decide_eq_true_eq] at hw ⊢
    exact hvw.trans hw) h
  obtain rfl := Option.some.inj hv
  simpa using ha

theorem primalLeaving_none {k : Fin (n + m + 1)} (h : t.primalLeaving k = none) (i : Fin m) :
    t.get i.castSucc k ≤ Tolerance.ratio := by
  by_contra hlt
  have hr : t.primalRatio? k i = some (t.rhs i.castSucc / t.get i.castSucc k) := by
    rw [primalRatio?, if_pos (not_le.1 hlt)]
  have := leastBy_none (fun _ _ _ _ => Scalar.belowInfinity_rat _) h (List.mem_finRange i) hr
  simp [Scalar.belowInfinity_rat] at this

theorem primalLeaving_some {k : Fin (n + m + 1)} {r : Fin m} (h : t.primalLeaving k = some r) :
    Tolerance.ratio < t.get r.castSucc k ∧ ∀ i : Fin m, Tolerance.ratio < t.get i.castSucc k →
      t.rhs r.castSucc / t.get r.castSucc k ≤ t.rhs i.castSucc / t.get i.castSucc k := by
  obtain ⟨v, hv, _, hmin⟩ := leastBy_some (fun _ _ _ _ => Scalar.belowInfinity_rat _) h
  unfold primalRatio? at hv
  split at hv
  · obtain rfl := Option.some.inj hv
    refine ⟨‹_›, fun i hi => hmin i (List.mem_finRange i) _ ?_⟩
    rw [primalRatio?, if_pos hi]
  · cases hv

theorem dualLeaving_none (h : t.dualLeaving = none) (i : Fin m) :
    -Tolerance.pivot ≤ t.rhs i.castSucc := by
  have hi := leastBy_none (fun v w hvw hw => by
    simp only [decide_eq_true_eq] at hw ⊢
    exact hvw.trans hw) h (List.mem_finRange i) rfl
  simpa using hi

theorem dualLeaving_some {r : Fin m} (h : t.dualLeaving = some r) :
    t.rhs r.castSucc < -Tolerance.pivot := by
  obtain ⟨v, hv, ha, _⟩ := leastBy_some (fun v w hvw hw => by
    simp only [decide_eq_true_eq] at hw ⊢
    exact hvw.trans hw) h
  obtain rfl := Option.some.inj hv
  simpa using ha

theorem dualEntering_none {l : Fin (m + 1)} (h : t.dualEntering l = none) (j : Fin (n + m)) :
    -Tolerance.pivot ≤ t.get l j.castSucc := by
  by_contra hlt
  have hr : t.dualRatio? l j = some |t.reducedCost j.castSucc / t.get l j.castSucc| := by
    rw [dualRatio?, if_pos (not_le.1 hlt), Scalar.abs_rat]
  have := leastBy_none (fun _ _ _ _ => Scalar.belowInfinity_rat _) h (List.mem_finRange j) hr
  simp [Scalar.belowInfinity_rat] at this

theorem dualEntering_some {l : Fin (m + 1)} {k : Fin (n + m)} (h : t.dualEntering l = some k) :
    t.get l k.castSucc < -Tolerance.pivot ∧
      ∀ j : Fin (n + m), t.get l j.castSucc < -Tolerance.pivot →
        |t.reducedCost k.castSucc / t.get l k.castSucc| ≤
          |t.reducedCost j.castSucc / t.get l j.castSucc| := by
  obtain ⟨v, hv, _, hmin⟩ := leastBy_some (fun _ _ _ _ => Scalar.belowInfinity_rat _) h
  unfold dualRatio? at hv
  split at hv
  · obtain rfl := Option.some.inj hv
    refine ⟨‹_›, fun j hj => ?_⟩
    have := hmin j (List.mem_finRange j) |t.reducedCost j.castSucc / t.get l j.castSucc| (by
      rw [dualRatio?, if_pos hj, Scalar.abs_rat])
    rwa [Scalar.abs_rat] at this
  · cases hv

theorem primalStep_cases (t : Tableau ℚ n m) :
    (t.primalStep = .goal ∧ t.primalEntering = none) ∨
    (∃ k : Fin (n + m), t.primalStep = .blocked k ∧
      t.reducedCost k.castSucc < -Tolerance.ratio ∧
      ∀ i : Fin m, t.get i.castSucc k.castSucc ≤ Tolerance.ratio) ∨
    (∃ (r : Fin m) (k : Fin (n + m)), t.primalStep = .pivot r k ∧
      t.reducedCost k.castSucc < -Tolerance.ratio ∧
      Tolerance.ratio < t.get r.castSucc k.castSucc ∧
      ∀ i : Fin m, Tolerance.ratio < t.get i.castSucc k.castSucc →
        t.rhs r.castSucc / t.get r.castSucc k.castSucc ≤
          t.rhs i.castSucc / t.get i.castSucc k.castSucc) := by
  cases hk : t.primalEntering with
  | none => simp [primalStep, hk]
  | some k =>
    cases hr : t.primalLeaving k.castSucc with
    | none =>
      exact .inr (.inl ⟨k, by simp [primalStep, hk, hr], primalEntering_some hk,
        primalLeaving_none hr⟩)
    | some r =>
      exact .inr (.inr ⟨r, k, by simp [primalStep, hk, hr], primalEntering_some hk,
        primalLeaving_some hr⟩)

theorem dualStep_cases (t : Tableau ℚ n m) :
    (t.dualStep = .goal ∧ t.dualLeaving = none) ∨
    (∃ r : Fin m, t.dualStep = .blocked r ∧ t.rhs r.castSucc < -Tolerance.pivot ∧
      ∀ j : Fin (n + m), -Tolerance.pivot ≤ t.get r.castSucc j.castSucc) ∨
    (∃ (r : Fin m) (k : Fin (n + m)), t.dualStep = .pivot r k ∧
      t.rhs r.castSucc < -Tolerance.pivot ∧
      t.get r.castSucc k.castSucc < -Tolerance.pivot ∧
      ∀ j : Fin (n + m), t.get r.castSucc j.castSucc < -Tolerance.pivot →
        |t.reducedCost k.castSucc / t.get r.castSucc k.castSucc| ≤
          |t.reducedCost j.castSucc / t.get r.castSucc j.castSucc|) := by
  cases hr : t.dualLeaving with
  | none => simp [dualStep, hr]
  | some r =>
    cases hk : t.dualEntering r.castSucc with
    | none =>
      exact .inr (.inl ⟨r, by simp [dualStep, hr, hk], dualLeaving_some hr,
        dualEntering_none hk⟩)
    | some k =>
      exact .inr (.inr ⟨r, k, by simp [dualStep, hr, hk], dualLeaving_some hr,
        dualEntering_some hk⟩)

end Tableau

end IntegerPrograms
