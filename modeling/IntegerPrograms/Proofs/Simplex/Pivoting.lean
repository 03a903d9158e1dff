import Mathlib
import IntegerPrograms.Proofs.Simplex.Run

set_option autoImplicit false

namespace IntegerPrograms

variable {α : Type} [Scalar α] {n m : Nat}

namespace Phase

variable {rule : Tableau α n m → Tableau.Step n m} {t u : Tableau α n m} {cap cap' : Nat}

def Follows (rule : Tableau α n m → Tableau.Step n m) (t u : Tableau α n m) : Prop :=
  ∃ r k, rule t = .pivot r k ∧ u = t.pivot r k.castSucc

theorem run_eq_of_le (h : (run rule cap t).ending ≠ .capped) (hle : cap ≤ cap') :
    run rule cap' t = run rule cap t := by
  fun_induction run rule cap t generalizing cap' with
  | case1 t hr => exact run_of_goal hr cap'
  | case2 t hr => exact absurd rfl h
  | case3 cap t hr => exact run_of_goal hr cap'
  | case4 cap t line hr =>
    obtain ⟨cap', rfl⟩ : ∃ next, cap' = next + 1 := ⟨cap' - 1, by omega⟩
    simp only [run, hr]
  | case5 cap t r k hr rest =>
    rename_i ih
    obtain ⟨cap', rfl⟩ : ∃ next, cap' = next + 1 := ⟨cap' - 1, by omega⟩
    simp only [run, hr]
    rw [ih h (by omega)]

theorem run_eq_of_goal (h : (run rule cap' t).ending = .goal)
    (hle : (run rule cap' t).pivots.length ≤ cap) : run rule cap t = run rule cap' t := by
  fun_induction run rule cap' t generalizing cap with
  | case1 t hr => exact run_of_goal hr cap
  | case3 cap' t hr => exact run_of_goal hr cap
  | case5 cap' t r k hr rest =>
    rename_i ih
    rw [List.length_cons] at hle
    obtain ⟨cap, rfl⟩ : ∃ next, cap = next + 1 := ⟨cap - 1, by omega⟩
    simp only [run, hr]
    rw [ih h (Nat.le_of_succ_le_succ hle)]
  | _ => cases h

theorem length_pivots_of_blocked {line : Nat} (h : (run rule cap t).ending = .blocked line) :
    (run rule cap t).pivots.length < cap := by
  fun_induction run rule cap t with
  | case4 cap t line' hr => exact Nat.succ_pos cap
  | case5 cap t r k hr rest ih => exact Nat.succ_lt_succ (ih h)
  | _ => cases h

theorem length_pivots_of_capped (h : (run rule cap t).ending = .capped) :
    (run rule cap t).pivots.length = cap := by
  fun_induction run rule cap t with
  | case2 t hr => rfl
  | case5 cap t r k hr rest ih => exact congrArg (· + 1) (ih h)
  | _ => cases h

theorem length_trail_run (rule : Tableau α n m → Tableau.Step n m) (cap : Nat)
    (t : Tableau α n m) :
    (t.trail (run rule cap t).pivots).length = (run rule cap t).pivots.length + 1 := by
  fun_induction run rule cap t with
  | case5 cap t r k hr rest ih =>
    rw [Tableau.trail_of, List.length_cons, List.length_cons, ih]
  | _ => rfl

theorem trail_head? (t : Tableau α n m) (records : List (PivotRecord α)) :
    (t.trail records).head? = some t := by
  cases records with
  | nil => rfl
  | cons record rest =>
    rw [Tableau.trail]
    split <;> rfl

theorem isChain_trail_run (rule : Tableau α n m → Tableau.Step n m) (cap : Nat)
    (t : Tableau α n m) : (t.trail (run rule cap t).pivots).IsChain (Follows rule) := by
  fun_induction run rule cap t with
  | case5 cap t r k hr rest ih =>
    rw [Tableau.trail_of, List.isChain_cons]
    refine ⟨fun next hnext => ?_, ih⟩
    rw [trail_head?, Option.mem_some_iff] at hnext
    exact ⟨r, k, hr, hnext.symm⟩
  | _ => exact .singleton _

theorem trail_induction {C I : Tableau α n m → Prop}
    (hstep : ∀ u r k, C u → I u → rule u = .pivot r k → I (u.pivot r k.castSucc)) (cap : Nat)
    (t : Tableau α n m) (hC : ∀ u ∈ t.trail (run rule cap t).pivots, C u) (hI : I t) :
    ∀ u ∈ t.trail (run rule cap t).pivots, I u := by
  fun_induction run rule cap t with
  | case5 cap t r k hr rest ih =>
    rw [Tableau.trail_of, List.forall_mem_cons] at hC ⊢
    exact ⟨hI, ih hC.2 (hstep t r k hC.1 hI hr)⟩
  | _ => exact List.forall_mem_singleton.2 hI

theorem forall_trail_idle {P : Tableau α n m → Prop} (t : Tableau α n m)
    (later : List (PivotRecord α)) :
    (∀ u ∈ t.trail ((idle t).pivots ++ later), P u) ↔
      (∀ u ∈ t.trail (idle t).pivots, P u) ∧ ∀ u ∈ (idle t).final.trail later, P u := by
  simp only [idle, List.nil_append, Tableau.trail, List.forall_mem_singleton]
  exact ⟨fun hall => ⟨hall t (Tableau.mem_trail_self _ _), hall⟩, And.right⟩

theorem forall_trail_append {P : Tableau α n m → Prop} (rule : Tableau α n m → Tableau.Step n m)
    (cap : Nat) (t : Tableau α n m) (later : List (PivotRecord α)) :
    (∀ u ∈ t.trail ((run rule cap t).pivots ++ later), P u) ↔
      (∀ u ∈ t.trail (run rule cap t).pivots, P u) ∧
        ∀ u ∈ (run rule cap t).final.trail later, P u := by
  fun_induction run rule cap t with
  | case5 cap t r k hr rest ih =>
    simp only [List.cons_append, Tableau.trail_of, List.forall_mem_cons]
    rw [ih, and_assoc]
  | _ => exact forall_trail_idle _ later

/-- A phase that starts in a set it can always pivot on within never leaves it and never ends. -/
theorem capped_of_closed {S : Tableau α n m → Prop}
    (hS : ∀ u, S u → ∃ v, Follows rule u v ∧ S v) (ht : S t) (cap : Nat) :
    (run rule cap t).ending = .capped ∧ ∀ u ∈ t.trail (run rule cap t).pivots, S u := by
  induction cap generalizing t with
  | zero =>
    obtain ⟨_, ⟨r, k, hr, _⟩, _⟩ := hS t ht
    simp [run, hr, Tableau.trail, ht]
  | succ cap ih =>
    obtain ⟨_, ⟨r, k, hr, rfl⟩, hnext⟩ := hS t ht
    simp only [run, hr, Tableau.trail_of, List.forall_mem_cons]
    exact ⟨(ih hnext).1, ht, (ih hnext).2⟩

theorem capped_of_repeat (h : ¬ (t.trail (run rule cap t).pivots).Nodup) (cap' : Nat) :
    (run rule cap' t).ending = .capped := by
  rw [List.nodup_iff_getElem?_ne_getElem?] at h
  push Not at h
  obtain ⟨i, j, hij, hj, heq⟩ := h
  have hchain := isChain_trail_run rule cap t
  have hhead := trail_head? t (run rule cap t).pivots
  generalize t.trail (run rule cap t).pivots = l at hj heq hchain hhead
  refine (capped_of_closed (S := fun u => ∃ k < j, l[k]? = some u) ?_ ?_ cap').1
  · rintro u ⟨k, hk, hu⟩
    have hlt : k + 1 < l.length := by omega
    obtain rfl : l[k] = u := by simpa [List.getElem?_eq_getElem (Nat.lt_of_succ_lt hlt)] using hu
    refine ⟨l[k + 1], List.isChain_iff_getElem.1 hchain k hlt, ?_⟩
    rcases Nat.lt_or_ge (k + 1) j with hnext | hlast
    · exact ⟨k + 1, hnext, List.getElem?_eq_getElem hlt⟩
    · obtain rfl : k + 1 = j := by omega
      exact ⟨i, hij, heq.trans (List.getElem?_eq_getElem hlt)⟩
  · exact ⟨0, by omega, by rw [← List.head?_eq_getElem?, hhead]⟩

end Phase

namespace LpRun

variable {t : Tableau α n m} {cap cap' : Nat}

theorem primal_ofTableau (cap : Nat) (t : Tableau α n m) :
    (ofTableau cap t).primal = firstPhase cap t := by
  have hcourse := course cap t
  generalize ofTableau cap t = run at hcourse ⊢
  cases hcourse <;> rfl

theorem dual_ofTableau (cap : Nat) (t : Tableau α n m) :
    (ofTableau cap t).dual = .idle (firstPhase cap t).final ∨
      (firstPhase cap t).ending = .goal ∧ (firstPhase cap t).final.primalEntering = none ∧
        (ofTableau cap t).dual = Phase.run Tableau.dualStep cap (firstPhase cap t).final := by
  have hcourse := course cap t
  generalize ofTableau cap t = run at hcourse ⊢
  cases hcourse with
  | dual h hd hdual => exact .inr ⟨h, hd, hdual⟩
  | _ => exact .inl rfl

theorem forall_trail_iff {P : Tableau α n m → Prop} (cap : Nat) (t : Tableau α n m)
    (later : List (PivotRecord α)) :
    (∀ u ∈ t.trail ((ofTableau cap t).primal.pivots ++ later), P u) ↔
      (∀ u ∈ t.trail (ofTableau cap t).primal.pivots, P u) ∧
        ∀ u ∈ (ofTableau cap t).primal.final.trail later, P u := by
  obtain ⟨rule, hrun⟩ := firstPhase_eq_run t
  rw [primal_ofTableau, hrun]
  exact Phase.forall_trail_append rule cap t later

theorem trail_induction {C I : Tableau α n m → Prop}
    (hprimal : ∀ u r k, C u → I u → u.primalStep = .pivot r k → I (u.pivot r k.castSucc))
    (hdual : ∀ u r k, C u → I u → u.dualStep = .pivot r k → I (u.pivot r k.castSucc))
    (cap : Nat) (t : Tableau α n m)
    (hC : ∀ u ∈ t.trail ((ofTableau cap t).primal.pivots ++ (ofTableau cap t).dual.pivots), C u)
    (hI : I t) :
    ∀ u ∈ t.trail ((ofTableau cap t).primal.pivots ++ (ofTableau cap t).dual.pivots), I u := by
  rw [forall_trail_iff] at hC ⊢
  have hfirst : ∀ u ∈ t.trail (ofTableau cap t).primal.pivots, I u := by
    have hC₁ := hC.1
    rw [primal_ofTableau, firstPhase] at hC₁ ⊢
    split
    · simpa [Phase.idle, Tableau.trail] using hI
    · rw [if_neg ‹_›] at hC₁
      exact Phase.trail_induction hprimal cap t hC₁ hI
  refine ⟨hfirst, ?_⟩
  have hmid : I (ofTableau cap t).primal.final := by
    rw [← List.append_nil (Phase.pivots _), forall_trail_iff] at hfirst
    simpa [Tableau.trail] using hfirst.2
  have hC₂ := hC.2
  rw [primal_ofTableau] at hC₂ hmid ⊢
  rcases dual_ofTableau cap t with hd | ⟨_, _, hd⟩
  · rw [hd]
    simpa [Phase.idle, Tableau.trail] using hmid
  · rw [hd] at hC₂ ⊢
    exact Phase.trail_induction hdual cap _ hC₂ hmid

theorem firstPhase_eq_of_le (h : (firstPhase cap t).ending ≠ .capped) (hle : cap ≤ cap') :
    firstPhase cap' t = firstPhase cap t := by
  obtain ⟨rule, hrun⟩ := firstPhase_eq_run t
  rw [hrun] at h
  rw [hrun, hrun, Phase.run_eq_of_le h hle]

theorem ofTableau_eq_of_le (h : (ofTableau cap t).status ≠ .pivotLimit) (hle : cap ≤ cap') :
    ofTableau cap' t = ofTableau cap t := by
  have hcourse := course cap t
  generalize ofTableau cap t = run at h hcourse ⊢
  cases hcourse with
  | unbounded hend => rw [ofTableau_eq, firstPhase_eq_of_le (by simp [hend]) hle, hend]
  | capped => exact absurd rfl h
  | negative hend hd =>
    rw [ofTableau_eq, firstPhase_eq_of_le (by simp [hend]) hle, hend]
    simp [afterPrimal, hd]
  | dual hend hd hphase =>
    subst hphase
    have huncut : (Phase.run Tableau.dualStep cap (firstPhase cap t).final).ending ≠ .capped := by
      intro hcap
      simp [hcap, dualStatus] at h
    have hsame := Phase.run_eq_of_le huncut hle
    rw [ofTableau_eq, firstPhase_eq_of_le (by simp [hend]) hle, hend]
    simp [afterPrimal, hd, hsame]

theorem firstPhase_eq_of_goal (h : (firstPhase cap' t).ending = .goal)
    (hle : (firstPhase cap' t).pivots.length ≤ cap) : firstPhase cap t = firstPhase cap' t := by
  obtain ⟨rule, hrun⟩ := firstPhase_eq_run t
  rw [hrun] at h hle
  rw [hrun, hrun, Phase.run_eq_of_goal h hle]

theorem ofTableau_eq_of_optimal (h : (ofTableau cap' t).status = .optimal)
    (hprimal : (ofTableau cap' t).primal.pivots.length ≤ cap)
    (hdual : (ofTableau cap' t).dual.pivots.length ≤ cap) : ofTableau cap t = ofTableau cap' t := by
  have hcourse := course cap' t
  generalize ofTableau cap' t = run at h hprimal hdual hcourse ⊢
  cases hcourse with
  | unbounded => cases h
  | capped => cases h
  | negative => cases h
  | dual hgoal hd hphase =>
    subst hphase
    have hsame := Phase.run_eq_of_goal (ending_of_optimal h) hdual
    rw [ofTableau_eq, firstPhase_eq_of_goal hgoal hprimal, hgoal]
    simp [afterPrimal, hd, hsame]

theorem length_primal_le (cap : Nat) (t : Tableau α n m) :
    (ofTableau cap t).primal.pivots.length ≤ cap := by
  obtain ⟨rule, hrun⟩ := firstPhase_eq_run t
  rw [primal_ofTableau, hrun]
  exact Phase.length_pivots_run_le rule cap t

theorem length_firstPhase_of_blocked {line : Nat}
    (h : (firstPhase cap t).ending = .blocked line) : (firstPhase cap t).pivots.length < cap := by
  obtain ⟨rule, hrun⟩ := firstPhase_eq_run t
  rw [hrun] at h ⊢
  exact Phase.length_pivots_of_blocked h

theorem length_firstPhase_of_capped (h : (firstPhase cap t).ending = .capped) :
    (firstPhase cap t).pivots.length = cap := by
  obtain ⟨rule, hrun⟩ := firstPhase_eq_run t
  rw [hrun] at h ⊢
  exact Phase.length_pivots_of_capped h

theorem length_dual_le (cap : Nat) (t : Tableau α n m) :
    (ofTableau cap t).dual.pivots.length ≤ cap := by
  rcases dual_ofTableau cap t with hd | ⟨_, _, hd⟩
  · rw [hd]
    exact Nat.zero_le cap
  · rw [hd]
    exact Phase.length_pivots_run_le Tableau.dualStep cap _

theorem pivots_of_unbounded (h : (ofTableau cap t).status = .unbounded) :
    (ofTableau cap t).dual.pivots.length = 0 ∧ (ofTableau cap t).primal.pivots.length < cap := by
  have hcourse := course cap t
  generalize ofTableau cap t = run at h hcourse ⊢
  cases hcourse with
  | unbounded hblocked => exact ⟨rfl, length_firstPhase_of_blocked hblocked⟩
  | capped => cases h
  | negative => cases h
  | dual => exact absurd h (dualStatus_ne_unbounded _)

theorem pivots_of_infeasible (h : (ofTableau cap t).status = .infeasible) :
    (ofTableau cap t).dual.pivots.length < cap := by
  have hcourse := course cap t
  generalize ofTableau cap t = run at h hcourse ⊢
  cases hcourse with
  | unbounded => cases h
  | capped => cases h
  | negative => cases h
  | dual _ _ hphase =>
    subst hphase
    obtain ⟨line, hend⟩ := ending_of_infeasible h
    exact Phase.length_pivots_of_blocked hend

theorem pivots_of_pivotLimit (h : (ofTableau cap t).status = .pivotLimit) :
    (ofTableau cap t).primal.pivots.length = cap ∧ (ofTableau cap t).dual.pivots.length = 0 ∨
      (ofTableau cap t).dual.pivots.length = cap := by
  have hcourse := course cap t
  generalize ofTableau cap t = run at h hcourse ⊢
  cases hcourse with
  | unbounded => cases h
  | capped hcapped => exact .inl ⟨length_firstPhase_of_capped hcapped, rfl⟩
  | negative => cases h
  | dual _ _ hphase =>
    subst hphase
    exact .inr (Phase.length_pivots_of_capped (ending_of_pivotLimit h))

end LpRun

namespace Problem

variable {p : Problem α} {settings settings' : LpSettings}

theorem solved_eq_of_le (h : (p.solved settings).result.status ≠ .pivotLimit)
    (hle : settings.maxPivots ≤ settings'.maxPivots) : p.solved settings' = p.solved settings := by
  have hrun := LpRun.ofTableau_eq_of_le h hle
  simp only [solved, hrun]

theorem solved_eq_of_optimal (h : (p.solved settings').result.status = .optimal)
    (hprimal : (p.solved settings').result.pivots.primal ≤ settings.maxPivots)
    (hdual : (p.solved settings').result.pivots.dual ≤ settings.maxPivots) :
    p.solved settings = p.solved settings' := by
  have hrun := LpRun.ofTableau_eq_of_optimal h hprimal hdual
  simp only [solved, hrun]

end Problem

end IntegerPrograms
