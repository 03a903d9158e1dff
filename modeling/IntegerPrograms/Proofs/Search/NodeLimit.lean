import Mathlib
import IntegerPrograms.Proofs.Search.Exactness
import IntegerPrograms.Proofs.Search.Records

/-!
What the node limit does to a search, over any arithmetic. No visit looks at the limit, and a search
that may visit `k + more` nodes is the one that may visit `k`, taken up again where it stopped. So a
larger limit only extends a run, and changes nothing once no node is open.
-/

set_option autoImplicit false

namespace IntegerPrograms

variable {α β : Type}

/-- A run that starts with the visits of another one, all that a limit lets it make. -/
structure SearchRun.Extends (limit : Nat) (run run' : SearchRun α β) : Prop where
  visits : run.visits = run'.visits.take (min limit run'.visits.length)
  closed : run.final.frontier.nodes = [] → run' = run

namespace SearchRun.Extends

variable {ρ : Type} {run run' : SearchRun α β} {limit : Nat}

theorem map_visits (h : run.Extends limit run') (record : Visit α β → ρ) :
    run.visits.map record =
      (run'.visits.map record).take (min limit (run'.visits.map record).length) := by
  rw [List.length_map, ← List.map_take, ← h.visits]

theorem flatMap_visits (h : run.Extends limit run') (records : Visit α β → List ρ) :
    run'.visits.flatMap records =
      run.visits.flatMap records ++ (run'.visits.drop run.visits.length).flatMap records := by
  have hprefix : run.visits <+: run'.visits := by
    rw [h.visits]
    exact List.take_prefix ..
  rw [← List.flatMap_append, List.prefix_iff_eq_append.1 hprefix]

end SearchRun.Extends

namespace Search

variable [Scalar α] {s : Search α β} {t : SearchTree α (Node α β)} {run run' : SearchRun α β}
  {k left : Nat}

def withLimit (s : Search α β) (limit : Nat) : Search α β :=
  { s with settings := { s.settings with maxNodes := limit } }

theorem rounds?_withLimit (limit : Nat) (inc : Incumbent α) (left : Nat) (store : β) :
    (s.withLimit limit).rounds? inc left store = s.rounds? inc left store := by
  induction left generalizing store with
  | zero => rfl
  | succ left ih =>
    simp only [rounds?, withLimit] at ih ⊢
    simp only [ih]
    rfl

theorem visit?_withLimit (limit : Nat) (node : Node α β) :
    (s.withLimit limit).visit? t node = s.visit? t node := by
  simp only [visit?, rounds?_withLimit]
  rfl

theorem explore?_withLimit (limit left : Nat) (t : SearchTree α (Node α β)) :
    (s.withLimit limit).explore? left t = s.explore? left t := by
  induction left generalizing t with
  | zero => rfl
  | succ left ih => simp only [explore?, visit?_withLimit, ih]

theorem run?_withLimit (s : Search α β) (limit : Nat) :
    (s.withLimit limit).run? = s.explore? limit s.start := by
  rw [run?, explore?_withLimit]
  rfl

theorem explore?_of_closed (h : t.pop? = none) (left : Nat) :
    s.explore? left t = some ⟨[], t⟩ := by
  cases left with
  | zero => rfl
  | succ left => simp [explore?, h]

/-- A search that stops at a limit can be taken up again. -/
theorem explore?_add (k left : Nat) (t : SearchTree α (Node α β)) :
    s.explore? (k + left) t = (s.explore? k t).bind fun first =>
      (s.explore? left first.final).map fun rest =>
        ⟨first.visits ++ rest.visits, rest.final⟩ := by
  induction k generalizing t with
  | zero => simp [explore?]
  | succ k ih =>
    rw [Nat.succ_add]
    cases hpop : t.pop? with
    | none => simp [explore?, hpop, explore?_of_closed]
    | some result =>
      obtain ⟨node, t'⟩ := result
      cases hv : s.visit? t' node with
      | none => simp [explore?, hpop, hv]
      | some v =>
        simp only [explore?, hpop, hv, ih, Option.bind_eq_bind, Option.bind_some, Option.bind_assoc]
        cases s.explore? k (t'.afterVisit v) with
        | none => rfl
        | some first => cases hrest : s.explore? left first.final <;> simp [hrest]

theorem length_visits_of_open (h : s.explore? left t = some run)
    (hopen : run.final.frontier.nodes ≠ []) : run.visits.length = left := by
  induction left generalizing t run with
  | zero =>
    obtain rfl : (⟨[], t⟩ : SearchRun α β) = run := by simpa [explore?] using h
    rfl
  | succ left ih =>
    rcases explore?_succ h with ⟨hpop, rfl⟩ | ⟨node, t', v, rest, _, _, hrest, rfl⟩
    · exact absurd ((SearchTree.pop?_eq_none_iff t).1 hpop) hopen
    · rw [List.length_cons, ih hrest hopen]

theorem explore?_extends {k' : Nat} (hle : k ≤ k') (h : s.explore? k t = some run)
    (h' : s.explore? k' t = some run') : run.Extends k run' := by
  obtain ⟨more, rfl⟩ := Nat.exists_eq_add_of_le hle
  rw [explore?_add, h, Option.bind_some, Option.map_eq_some_iff] at h'
  obtain ⟨rest, hrest, rfl⟩ := h'
  by_cases hclosed : run.final.frontier.nodes = []
  · -- Nothing is open, so the search is taken up with nothing to do.
    rw [explore?_of_closed ((SearchTree.pop?_eq_none_iff _).2 hclosed)] at hrest
    obtain rfl := Option.some.inj hrest
    have hwithin : run.visits.length ≤ k := (traversal_of_explore? h).2
    exact ⟨by simp [hwithin], fun _ => by simp⟩
  · have hfull : run.visits.length = k := length_visits_of_open h hclosed
    exact ⟨by simp [← hfull], fun hnil => absurd hnil hclosed⟩

theorem exists_extends (hs : s.Lawful) {limit : Nat} (h : s.settings.maxNodes ≤ limit) :
    ∃ run run', s.run? = some run ∧ (s.withLimit limit).run? = some run' ∧
      run.Extends s.settings.maxNodes run' := by
  obtain ⟨run, hrun⟩ := exists_run hs
  obtain ⟨run', hrun'⟩ : ∃ run', (s.withLimit limit).run? = some run' :=
    exists_run ⟨hs.root, hs.bound, hs.cut⟩
  refine ⟨run, run', hrun, hrun', ?_⟩
  rw [run?_withLimit] at hrun'
  exact explore?_extends h hrun hrun'

end Search

/-- A larger limit on the number of nodes only extends a search, in any arithmetic: the visits are the
first ones under the larger limit, and nothing at all changes if no node was left open. In double
precision so are the records of nodes and cuts. -/
theorem larger_limit_extends :
    (∀ {α : Type} [Scalar α] (p : MixedProblem α) (settings : SearchSettings α) {limit : Nat},
      settings.maxNodes ≤ limit →
      (∃ run run', (branchAndBound p settings).run? = some run ∧
        (branchAndBound p { settings with maxNodes := limit }).run? = some run' ∧
        run.Extends settings.maxNodes run') ∧
      ∃ run run', (branchAndCut p settings).run? = some run ∧
        (branchAndCut p { settings with maxNodes := limit }).run? = some run' ∧
        run.Extends settings.maxNodes run') ∧
    ∀ (p : MixedProblem Float) (settings : SearchSettings Float) {limit : Nat},
      settings.maxNodes ≤ limit →
      (∃ run run', (branchAndBound p settings).run? = some run ∧
        (branchAndBound p { settings with maxNodes := limit }).run? = some run' ∧
        run.Extends settings.maxNodes run' ∧
        Outcome.visitOrder run = (Outcome.visitOrder run').take
          (min settings.maxNodes (Outcome.visitOrder run').length)) ∧
      ∃ run run', (branchAndCut p settings).run? = some run ∧
        (branchAndCut p { settings with maxNodes := limit }).run? = some run' ∧
        run.Extends settings.maxNodes run' ∧
        Outcome.cutVisitOrder run = (Outcome.cutVisitOrder run').take
          (min settings.maxNodes (Outcome.cutVisitOrder run').length) ∧
        Outcome.cuts run' =
          Outcome.cuts run ++ (run'.visits.drop run.visits.length).flatMap Report.cutRecords := by
  refine ⟨fun p settings limit h => ⟨?_, ?_⟩, fun p settings limit h => ⟨?_, ?_⟩⟩
  · exact Search.exists_extends (Search.lawful_branchAndBound p settings) h
  · exact Search.exists_extends (Search.lawful_branchAndCut p settings) h
  · obtain ⟨run, run', hrun, hrun', hextends⟩ :=
      Search.exists_extends (Search.lawful_branchAndBound p settings) h
    exact ⟨run, run', hrun, hrun', hextends, hextends.map_visits _⟩
  · obtain ⟨run, run', hrun, hrun', hextends⟩ :=
      Search.exists_extends (Search.lawful_branchAndCut p settings) h
    exact ⟨run, run', hrun, hrun', hextends, hextends.map_visits _, hextends.flatMap_visits _⟩

theorem larger_limit_extends_workshop :
    (∃ run run', (branchAndBound workshop { maxNodes := 2 }).run? = some run ∧
      (branchAndBound workshop { maxNodes := 4 }).run? = some run' ∧ run.visits.length = 2 ∧
      run'.visits.length = 4 ∧ run.Extends 2 run') ∧
    ∃ run, (branchAndCut workshop { maxNodes := 5, maxCuts := 1 }).run? = some run ∧
      (branchAndCut workshop { maxNodes := 9, maxCuts := 1 }).run? = some run ∧
      run.visits.length = 5 ∧ run.final.frontier.nodes = [] := by
  obtain ⟨run, run', hrun, hrun', hextends⟩ :=
    (larger_limit_extends.1 workshop { maxNodes := 2 } (Nat.le_add_right 2 2)).1
  obtain ⟨closed, closed', hclosed, hclosed', hextends'⟩ :=
    (larger_limit_extends.1 workshop { maxNodes := 5, maxCuts := 1 } (Nat.le_add_right 5 4)).2
  have hlimit : ((branchAndBound workshop { maxNodes := 2 }).run?).any
      (fun run => decide (run.visits.length = 2)) = true := by decide +kernel
  have hlarger : ((branchAndBound workshop { maxNodes := 4 }).run?).any
      (fun run => decide (run.visits.length = 4)) = true := by decide +kernel
  have hdone : ((branchAndCut workshop { maxNodes := 5, maxCuts := 1 }).run?).any (fun run =>
      decide (run.visits.length = 5) && run.final.frontier.isEmpty) = true := by decide +kernel
  rw [hrun, Option.any_some, decide_eq_true_eq] at hlimit
  rw [hrun', Option.any_some, decide_eq_true_eq] at hlarger
  rw [hclosed, Option.any_some, Bool.and_eq_true, decide_eq_true_eq] at hdone
  have hopen : closed.final.frontier.nodes = [] := List.isEmpty_iff.1 hdone.2
  obtain rfl := hextends'.closed hopen
  exact ⟨⟨run, run', hrun, hrun', hlimit, hlarger, hextends⟩, _, hclosed, hclosed', hdone.1, hopen⟩

end IntegerPrograms
