import Mathlib
import IntegerPrograms.Proofs.Exact
import IntegerPrograms.Simplex

/-!
Runs of the simplex method over any arithmetic: the tableaux a run goes through, what they inherit
from the first one, and that a valid problem always gets an answer.
-/

set_option autoImplicit false

namespace IntegerPrograms

variable {α : Type} [Scalar α] {n m : Nat}

structure Problem.Shaped (n : Nat) (p : Problem α) : Prop where
  vars : p.numVars = n
  rows : p.A.length = p.numRows
  entries : ∀ row ∈ p.A, row.length = n

namespace Problem.Shaped

variable {p : Problem α} {w : Nat}

theorem of_valid (hp : p.Valid) : p.Shaped p.numVars := ⟨rfl, hp.dims.1, hp.dims.2⟩

omit [Scalar α] in
theorem withRow (h : p.Shaped w) {row : List α} (hrow : row.length = w) (rhs : α) :
    (p.withRow row rhs).Shaped w where
  vars := h.vars
  rows := by simp [Problem.withRow, numRows, h.rows]
  entries := by
    intro r hr
    rcases List.mem_append.1 hr with hr | hr
    · exact h.entries r hr
    · rw [List.mem_singleton.1 hr, hrow]

end Problem.Shaped

namespace Tableau

theorem ofProblem?_shaped {p : Problem α} {w : Nat} (hp : p.Shaped w) :
    ofProblem? p = some (slackBasis p) := by
  have hfits : fits p = true := by
    rw [fits, Bool.and_eq_true, List.all_eq_true]
    refine ⟨decide_eq_true hp.rows.le, fun row hm => decide_eq_true ?_⟩
    rw [hp.entries row hm, hp.vars]
    omega
  rw [ofProblem?, if_pos hfits]

def trail (t : Tableau α n m) : List (PivotRecord α) → List (Tableau α n m)
  | [] => [t]
  | record :: rest =>
    match t.recordedPivot? record.row record.col with
    | some (_, next) => t :: next.trail rest
    | none => [t]

theorem mem_trail_self (t : Tableau α n m) (records : List (PivotRecord α)) :
    t ∈ t.trail records := by
  cases records with
  | nil => simp [trail]
  | cons record rest =>
    rw [trail]
    split <;> simp

theorem trail_of (t : Tableau α n m) (r : Fin m) (k : Fin (n + m + 1))
    (rest : List (PivotRecord α)) :
    t.trail (.of t r k :: rest) = t :: (t.pivot r k).trail rest := by
  have h : r.val < m ∧ k.val < n + m + 1 := ⟨r.isLt, k.isLt⟩
  simp [trail, recordedPivot?, PivotRecord.of, h]

end Tableau

theorem leastBy_eq_none {ι : Type} {admits : α → Bool} {key : ι → Option α} {l : List ι}
    (h : ∀ i ∈ l, ∀ v, key i = some v → admits v = false) : leastBy admits key l = none := by
  have hscan : l.foldl (fun best i => (key i).elim best (betterOf admits best i)) none = none := by
    induction l with
    | nil => rfl
    | cons i l ih =>
      have hi : (key i).elim none (betterOf admits none i) = none := by
        cases hk : key i with
        | none => rfl
        | some v => simp [betterOf, h i (by simp) v hk]
      rw [List.foldl_cons, hi]
      exact ih fun j hj => h j (by simp [hj])
  rw [leastBy, hscan]
  rfl

/-- No reduced cost that the test of dual feasibility passes is a candidate to enter. -/
class Tolerance.Graded (α : Type) [Scalar α] : Prop where
  not_lt : ∀ {v : α}, -Tolerance.pivot ≤ v → ¬ v < -Tolerance.ratio

instance : Tolerance.Graded ℚ where
  not_lt := by
    intro v h
    rw [Tolerance.pivot_rat] at h
    rw [Tolerance.ratio_rat, not_lt]
    refine le_trans ?_ h
    norm_num

namespace Tableau

variable {t : Tableau α n m}

theorem primalEntering_of_dualFeasible [Tolerance.Graded α] (h : t.isDualFeasible = true) :
    t.primalEntering = none := by
  refine leastBy_eq_none fun j _ v hv => decide_eq_false ?_
  obtain rfl := Option.some.inj hv
  exact Tolerance.Graded.not_lt (of_decide_eq_true (List.all_eq_true.1 h j (List.mem_finRange j)))

theorem primalStep_goal (h : t.primalStep = .goal) : t.primalEntering = none := by
  cases hk : t.primalEntering with
  | none => rfl
  | some k =>
    simp only [primalStep, hk] at h
    split at h <;> cases h

theorem dualStep_goal (h : t.dualStep = .goal) : t.dualLeaving = none := by
  cases hr : t.dualLeaving with
  | none => rfl
  | some r =>
    simp only [dualStep, hr] at h
    split at h <;> cases h

end Tableau

namespace Phase

variable {rule : Tableau α n m → Tableau.Step n m}

/-- What each pivot of a phase preserves holds in the end. The pivots may count on a condition `C`
on the tableaux of the phase, and the tableaux of later pivots are left to satisfy it. -/
theorem run_induction {C I : Tableau α n m → Prop}
    (hstep : ∀ u r k, C u → I u → rule u = .pivot r k → I (u.pivot r k.castSucc))
    (later : List (PivotRecord α)) (cap : Nat) (t : Tableau α n m)
    (hC : ∀ u ∈ t.trail ((run rule cap t).pivots ++ later), C u) (hI : I t) :
    I (run rule cap t).final ∧ ∀ u ∈ (run rule cap t).final.trail later, C u := by
  fun_induction run rule cap t with
  | case5 cap t r k hr rest ih =>
    simp only [List.cons_append, Tableau.trail_of, List.forall_mem_cons] at hC
    exact ih hC.2 (hstep t r k hC.1 hI hr)
  | _ => exact ⟨hI, hC⟩

theorem run_of_goal {t : Tableau α n m} (h : rule t = .goal) (cap : Nat) :
    run rule cap t = idle t := by
  cases cap <;> simp [run, h]

theorem run_goal {cap : Nat} {t : Tableau α n m} (h : (run rule cap t).ending = .goal) :
    rule (run rule cap t).final = .goal := by
  fun_induction run rule cap t with
  | case1 t hr => exact hr
  | case3 cap t hr => exact hr
  | case5 cap t r k hr rest ih => exact ih h
  | _ => cases h

theorem run_blocked {cap line : Nat} {t : Tableau α n m}
    (h : (run rule cap t).ending = .blocked line) :
    rule (run rule cap t).final = .blocked line := by
  fun_induction run rule cap t with
  | case4 cap t line' hr =>
    obtain rfl : line' = line := by simpa using h
    exact hr
  | case5 cap t r k hr rest ih => exact ih h
  | _ => cases h

end Phase

namespace LpRun

theorem ending_of_optimal {e : PhaseEnd} (h : dualStatus e = .optimal) : e = .goal := by
  cases e <;> simp [dualStatus] at h ⊢

theorem ending_of_infeasible {e : PhaseEnd} (h : dualStatus e = .infeasible) :
    ∃ line, e = .blocked line := by
  cases e <;> simp [dualStatus] at h ⊢

theorem ending_of_pivotLimit {e : PhaseEnd} (h : dualStatus e = .pivotLimit) : e = .capped := by
  cases e <;> simp [dualStatus] at h ⊢

theorem dualStatus_ne_unbounded (e : PhaseEnd) : dualStatus e ≠ .unbounded := by
  cases e <;> simp [dualStatus]

def firstPhase (cap : Nat) (t : Tableau α n m) : Phase α n m :=
  if t.isDualFeasible then .idle t else .run Tableau.primalStep cap t

theorem firstPhase_eq_run (t : Tableau α n m) :
    ∃ rule, ∀ cap, firstPhase cap t = Phase.run rule cap t := by
  by_cases hd : t.isDualFeasible = true
  · exact ⟨fun _ => .goal, fun cap => by rw [firstPhase, if_pos hd, Phase.run_of_goal rfl]⟩
  · exact ⟨Tableau.primalStep, fun cap => by rw [firstPhase, if_neg hd]⟩

theorem ofTableau_eq (cap : Nat) (t : Tableau α n m) :
    ofTableau cap t =
      match (firstPhase cap t).ending with
      | .goal => afterPrimal cap (firstPhase cap t)
      | .blocked _ => ⟨firstPhase cap t, .idle (firstPhase cap t).final, .unbounded⟩
      | .capped => ⟨firstPhase cap t, .idle (firstPhase cap t).final, .pivotLimit⟩ := rfl

/-- Everything a solve from a tableau can be, by what its primal phase comes to. -/
inductive Course (cap : Nat) (t : Tableau α n m) : LpRun α n m → Prop
  | unbounded {line : Nat} (h : (firstPhase cap t).ending = .blocked line) :
      Course cap t ⟨firstPhase cap t, .idle (firstPhase cap t).final, .unbounded⟩
  | capped (h : (firstPhase cap t).ending = .capped) :
      Course cap t ⟨firstPhase cap t, .idle (firstPhase cap t).final, .pivotLimit⟩
  | negative (h : (firstPhase cap t).ending = .goal)
      (hd : (firstPhase cap t).final.primalEntering.isSome = true) :
      Course cap t ⟨firstPhase cap t, .idle (firstPhase cap t).final, .notDualFeasible⟩
  | dual {dual : Phase α n m} (h : (firstPhase cap t).ending = .goal)
      (hd : (firstPhase cap t).final.primalEntering = none)
      (hdual : dual = Phase.run Tableau.dualStep cap (firstPhase cap t).final) :
      Course cap t ⟨firstPhase cap t, dual, dualStatus dual.ending⟩

theorem course (cap : Nat) (t : Tableau α n m) : Course cap t (ofTableau cap t) := by
  rw [ofTableau_eq]
  cases he : (firstPhase cap t).ending with
  | goal =>
    by_cases hd : (firstPhase cap t).final.primalEntering.isSome = true
    · simp only [afterPrimal, if_pos hd]
      exact .negative he hd
    · simp only [afterPrimal, if_neg hd]
      exact .dual he (by simpa using hd) rfl
  | blocked line => exact .unbounded he
  | capped => exact .capped he

section Graded

variable [Tolerance.Graded α] {cap : Nat} {t : Tableau α n m}

theorem firstPhase_goal (h : (firstPhase cap t).ending = .goal) :
    (firstPhase cap t).final.primalEntering = none := by
  by_cases hd : t.isDualFeasible = true
  · rw [firstPhase, if_pos hd]
    exact Tableau.primalEntering_of_dualFeasible hd
  · rw [firstPhase, if_neg hd] at h ⊢
    exact Tableau.primalStep_goal (Phase.run_goal h)

theorem ofTableau_goal (h : (firstPhase cap t).ending = .goal) :
    ofTableau cap t =
      let dual := Phase.run Tableau.dualStep cap (firstPhase cap t).final
      ⟨firstPhase cap t, dual, dualStatus dual.ending⟩ := by
  simp [ofTableau_eq, h, afterPrimal, firstPhase_goal h]

/-- The primal phase leaves the dual phase no negative reduced cost, whichever of the two thresholds
it stopped at. -/
theorem status_ne_notDualFeasible (cap : Nat) (t : Tableau α n m) :
    (ofTableau cap t).status ≠ .notDualFeasible := by
  have hcourse := course cap t
  generalize ofTableau cap t = run at hcourse
  cases hcourse with
  | unbounded => simp
  | capped => simp
  | negative h hd => simp [firstPhase_goal h] at hd
  | @dual dual => cases dual.ending <;> simp [dualStatus]

end Graded

variable {C I : Tableau α n m → Prop}

theorem firstPhase_induction
    (hprimal : ∀ u r k, C u → I u → u.primalStep = .pivot r k → I (u.pivot r k.castSucc))
    (later : List (PivotRecord α)) (cap : Nat) (t : Tableau α n m)
    (hC : ∀ u ∈ t.trail ((firstPhase cap t).pivots ++ later), C u) (hI : I t) :
    I (firstPhase cap t).final ∧ ∀ u ∈ (firstPhase cap t).final.trail later, C u := by
  by_cases hd : t.isDualFeasible
  · rw [firstPhase, if_pos hd] at hC ⊢
    exact ⟨hI, hC⟩
  · rw [firstPhase, if_neg hd] at hC ⊢
    exact Phase.run_induction hprimal later cap t hC hI

theorem final_induction
    (hprimal : ∀ u r k, C u → I u → u.primalStep = .pivot r k → I (u.pivot r k.castSucc))
    (hdual : ∀ u r k, C u → I u → u.dualStep = .pivot r k → I (u.pivot r k.castSucc))
    (cap : Nat) (t : Tableau α n m)
    (hC : ∀ u ∈ t.trail ((ofTableau cap t).primal.pivots ++ (ofTableau cap t).dual.pivots), C u)
    (hI : I t) : I (ofTableau cap t).final := by
  rw [ofTableau_eq] at hC ⊢
  cases h : (firstPhase cap t).ending with
  | goal =>
    simp only [h, afterPrimal] at hC ⊢
    split at hC
    next hd =>
      rw [if_pos hd]
      exact (firstPhase_induction hprimal _ cap t hC hI).1
    next hd =>
      rw [if_neg hd]
      obtain ⟨hmid, hlater⟩ := firstPhase_induction hprimal _ cap t hC hI
      rw [← List.append_nil (Phase.pivots _)] at hlater
      exact (Phase.run_induction hdual [] cap _ hlater hmid).1
  | blocked line =>
    simp only [h] at hC ⊢
    exact (firstPhase_induction hprimal _ cap t hC hI).1
  | capped =>
    simp only [h] at hC ⊢
    exact (firstPhase_induction hprimal _ cap t hC hI).1

end LpRun

namespace Tableau

def answer (t : Tableau α n m) (status : LpStatus) (pivots : PivotCount) : LpResult α where
  status := status
  x := List.ofFn fun j : Fin n => if status.hasSolution then t.value (decisionCol j) else 0
  s := List.ofFn fun k : Fin m => if status.hasSolution then t.value (slackCol k) else 0
  z := List.ofFn fun k : Fin m => t.reducedCost (slackCol k)
  objective := t.objective
  pivots := pivots

theorem extract?_proper {t : Tableau α n m} (h : t.basisProper = true) (status : LpStatus)
    (pivots : PivotCount) : t.extract? status pivots = some (t.answer status pivots) := by
  rw [extract?, h, if_neg (by simp)]
  rfl

theorem extract?_optimal {t : Tableau α n m} {pivots : PivotCount} {answer : LpResult α}
    (h : t.extract? .optimal pivots = some answer) :
    t.basisProper = true ∧ answer = t.answer .optimal pivots := by
  cases hproper : t.basisProper with
  | true => exact ⟨rfl, Option.some.inj (h.symm.trans (extract?_proper hproper _ _))⟩
  | false => simp [extract?, hproper, LpStatus.hasSolution] at h

theorem basisProper_slackBasis (p : Problem α) : (slackBasis p).basisProper = true := by
  refine List.all_eq_true.2 fun i _ => decide_eq_true ?_
  rw [basic_slackBasis]
  exact Nat.add_lt_add_left i.isLt _

theorem basisProper_pivot {t : Tableau α n m} (h : t.basisProper = true) (r : Fin m)
    (k : Fin (n + m)) : (t.pivot r k.castSucc).basisProper = true := by
  refine List.all_eq_true.2 fun i hi => decide_eq_true ?_
  rw [basic_pivot]
  split
  · exact k.isLt
  · exact of_decide_eq_true (List.all_eq_true.1 h i hi)

end Tableau

namespace Problem

variable {p : Problem α}

theorem basisProper_final (p : Problem α) (cap : Nat) :
    (LpRun.ofTableau cap (Tableau.slackBasis p)).final.basisProper = true := by
  refine LpRun.final_induction (C := fun _ => True) (I := fun t => t.basisProper = true) ?_ ?_
    cap _ (fun _ _ => trivial) (Tableau.basisProper_slackBasis p)
  · intro u r k _ hu _
    exact Tableau.basisProper_pivot hu r k
  · intro u r k _ hu _
    exact Tableau.basisProper_pivot hu r k

def solved (p : Problem α) (settings : LpSettings) : Solved α :=
  let run := LpRun.ofTableau settings.maxPivots (Tableau.slackBasis p)
  ⟨p, run, run.final.answer run.status run.pivots⟩

theorem solve?_shaped {w : Nat} (hp : p.Shaped w) (settings : LpSettings) :
    p.solve? settings = some (p.solved settings) := by
  have h := Tableau.extract?_proper (basisProper_final p settings.maxPivots)
  simp [solve?, Tableau.ofProblem?_shaped hp, h, solved]

theorem solve?_valid (hp : p.Valid) (settings : LpSettings) :
    p.solve? settings = some (p.solved settings) :=
  solve?_shaped (.of_valid hp) settings

end Problem

end IntegerPrograms
