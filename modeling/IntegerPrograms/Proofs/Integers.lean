import Mathlib
import IntegerPrograms.Outcome
import IntegerPrograms.Proofs.Exact

set_option autoImplicit false

namespace IntegerPrograms

variable {α : Type} [Scalar α]

namespace MixedProblem

variable {lp : Problem α} {l l' : List Nat} {p q : MixedProblem α}

theorem eq_of_mem_integers (hlp : p.lp = q.lp) (h : ∀ i, i ∈ p.integers ↔ i ∈ q.integers) :
    p = q := by
  have hintegers := p.integers_sorted.eq_of_mem_iff q.integers_sorted h
  cases p
  cases q
  subst hlp hintegers
  rfl

theorem find?_eq_none_iff {n : Nat} :
    l.find? (fun i => decide (n ≤ i)) = none ↔ ∀ i ∈ l, i < n := by
  simp [List.find?_eq_none]

theorem ofProblem_spec (h : ofProblem lp l = .ok p) :
    p.lp = lp ∧ ∀ i, i ∈ p.integers ↔ i ∈ l := by
  rw [ofProblem] at h
  split at h
  · cases h
  split at h
  · cases h
  split at h
  · cases h
  next hfind =>
    obtain rfl := Except.ok.inj h
    refine ⟨rfl, fun i => mem_indexSet.trans (and_iff_right_of_imp fun hi => ?_)⟩
    exact find?_eq_none_iff.1 hfind i hi

theorem exists_ofProblem (hlp : lp.Valid) (hl : l ≠ []) (hlt : ∀ i ∈ l, i < lp.numVars) :
    ∃ p, ofProblem lp l = .ok p := by
  rw [ofProblem]
  split
  next hd => cases hd.symm.trans hlp
  rw [dif_neg hl]
  split
  next hfind => cases hfind.symm.trans (find?_eq_none_iff.2 hlt)
  exact ⟨_, rfl⟩

theorem ofProblem_eq_ok_iff :
    ofProblem lp l = .ok p ↔ p.lp = lp ∧ ∀ i, i ∈ p.integers ↔ i ∈ l := by
  refine ⟨ofProblem_spec, ?_⟩
  rintro ⟨rfl, hmem⟩
  have hl : l ≠ [] := by
    obtain ⟨i, hi⟩ := List.exists_mem_of_ne_nil _ p.integers_ne_nil
    exact List.ne_nil_of_mem ((hmem i).1 hi)
  obtain ⟨q, hq⟩ := exists_ofProblem p.valid hl fun i hi => p.integers_lt i ((hmem i).2 hi)
  obtain ⟨hlp, hmem'⟩ := ofProblem_spec hq
  rw [hq, eq_of_mem_integers hlp fun i => (hmem' i).trans (hmem i).symm]

theorem exists_ofProblem_iff :
    (∃ p, ofProblem lp l = .ok p) ↔ lp.Valid ∧ l ≠ [] ∧ ∀ i ∈ l, i < lp.numVars := by
  constructor
  · rintro ⟨p, hp⟩
    obtain ⟨rfl, hmem⟩ := ofProblem_spec hp
    obtain ⟨i, hi⟩ := List.exists_mem_of_ne_nil _ p.integers_ne_nil
    exact ⟨p.valid, List.ne_nil_of_mem ((hmem i).1 hi),
      fun i hi => p.integers_lt i ((hmem i).2 hi)⟩
  · rintro ⟨hlp, hl, hlt⟩
    exact exists_ofProblem hlp hl hlt

/-- The list is sorted, and of equal neighbours one is kept. -/
theorem integers_eq (h : ofProblem lp l = .ok p) :
    p.integers = (l.mergeSort fun i j => decide (i ≤ j)).destutter (· ≠ ·) := by
  have hsort : (l.mergeSort fun i j => decide (i ≤ j)).Pairwise fun i j => decide (i ≤ j) = true :=
    List.pairwise_mergeSort (by simpa using fun _ _ _ => Nat.le_trans)
      (by simpa using Nat.le_total) l
  have hsorted : (l.mergeSort fun i j => decide (i ≤ j)).Pairwise (· ≤ ·) :=
    hsort.imp of_decide_eq_true
  rw [hsorted.destutter_eq_dedup]
  have hincreasing : (l.mergeSort fun i j => decide (i ≤ j)).dedup.Pairwise (· < ·) :=
    ((hsorted.sublist (List.dedup_sublist _)).and (List.nodup_dedup _)).imp
      fun hij => lt_of_le_of_ne hij.1 hij.2
  refine p.integers_sorted.eq_of_mem_iff hincreasing fun i => ?_
  rw [(ofProblem_spec h).2, List.mem_dedup, List.mem_mergeSort]

theorem toOption_ofProblem (h : ∀ i, i ∈ l' ↔ i ∈ l) :
    (ofProblem lp l').toOption = (ofProblem lp l).toOption := by
  have hiff (p : MixedProblem α) : ofProblem lp l' = .ok p ↔ ofProblem lp l = .ok p := by
    simp only [ofProblem_eq_ok_iff, h]
  cases hl : ofProblem lp l with
  | ok p => rw [(hiff p).2 hl]
  | error e =>
    cases hl' : ofProblem lp l' with
    | ok p => cases hl.symm.trans ((hiff p).1 hl')
    | error e' => rfl

end MixedProblem

namespace Problem

variable {lp : Problem α} {l l' : List Nat}

theorem toOption_mixed (lp : Problem α) (l : List Nat) :
    (lp.mixed l).toOption = (MixedProblem.ofProblem lp l).toOption := by
  rw [mixed]
  cases MixedProblem.ofProblem lp l <;> rfl

theorem toOption_bind {ε β γ : Type} (v : Except ε β) (k : β → Except ε γ) :
    (v >>= k).toOption = v.toOption.bind fun b => (k b).toOption := by
  cases v <;> rfl

/-- All that a solve sees of the list is the program made with it. -/
theorem toOption_solveBy
    (h : (MixedProblem.ofProblem lp l').toOption = (MixedProblem.ofProblem lp l).toOption)
    (method : Method) (settings : SearchSettings α) :
    (lp.solveBy method l' settings).toOption = (lp.solveBy method l settings).toOption := by
  cases method with
  | lp => rfl
  | branchAndBound => simp only [solveBy, toOption_bind, toOption_mixed, h]
  | branchAndCut => simp only [solveBy, toOption_bind, toOption_mixed, h]

end Problem

/-- Only the set of the integer variables matters. A program can be made of a linear program and a
list if and only if the linear program is valid and the list has members, all of them variables. It
then keeps exactly the members, in increasing order. Any other list of the same members makes the same
program, and every method comes to the same outcome with it: the same visits, and with them the same
solution and trace. -/
theorem integers_matter_as_set (lp : Problem α) (l : List Nat) :
    ((∃ p, MixedProblem.ofProblem lp l = .ok p) ↔
      lp.Valid ∧ l ≠ [] ∧ ∀ i ∈ l, i < lp.numVars) ∧
    (∀ p, MixedProblem.ofProblem lp l = .ok p →
      p.lp = lp ∧ p.integers.Pairwise (· < ·) ∧ (∀ i, i ∈ p.integers ↔ i ∈ l) ∧
      p.integers = (l.mergeSort fun i j => decide (i ≤ j)).destutter (· ≠ ·)) ∧
    ∀ l' : List Nat, (∀ i, i ∈ l' ↔ i ∈ l) →
      (∀ p, MixedProblem.ofProblem lp l' = .ok p ↔ MixedProblem.ofProblem lp l = .ok p) ∧
      ∀ (method : Method) (settings : SearchSettings α),
        (lp.solveBy method l' settings).toOption = (lp.solveBy method l settings).toOption := by
  refine ⟨MixedProblem.exists_ofProblem_iff, fun p hp => ?_, fun l' h => ⟨fun p => ?_, ?_⟩⟩
  · obtain ⟨hlp, hmem⟩ := MixedProblem.ofProblem_spec hp
    exact ⟨hlp, p.integers_sorted, hmem, MixedProblem.integers_eq hp⟩
  · simp only [MixedProblem.ofProblem_eq_ok_iff, h]
  · exact Problem.toOption_solveBy (MixedProblem.toOption_ofProblem h)

def posters : Problem ℚ := ⟨[-5, -4], [[6, 4], [1, 2]], [24, 6]⟩

theorem integers_matter_as_set_posters :
    (∃ p, MixedProblem.ofProblem posters [1, 0, 1] = .ok p ∧ p.integers = [0, 1] ∧
      MixedProblem.ofProblem posters [0, 1] = .ok p) ∧
    (posters.solveBy .branchAndCut [0, 1] {}).toOption.isSome = true ∧
    (posters.solveBy .branchAndCut [1, 0, 1] {}).toOption =
      (posters.solveBy .branchAndCut [0, 1] {}).toOption := by
  obtain ⟨hexists, _, hsame⟩ := integers_matter_as_set posters [0, 1]
  obtain ⟨p, hp⟩ := hexists.2 ⟨by decide +kernel, by decide, by decide⟩
  obtain ⟨hmade, hsolved⟩ := hsame [1, 0, 1] (by simp [or_comm])
  have hkept : (MixedProblem.ofProblem posters [0, 1]).toOption.any
      (fun p => decide (p.integers = [0, 1])) = true := by decide +kernel
  rw [hp, Except.toOption, Option.any_some, decide_eq_true_eq] at hkept
  exact ⟨⟨p, (hmade p).2 hp, hkept, hp⟩, by decide +kernel, hsolved .branchAndCut {}⟩

end IntegerPrograms
