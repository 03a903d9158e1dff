import Mathlib
import IntegerPrograms.Proofs.Search.DepthFirst
import IntegerPrograms.Proofs.Search.WellFormed
import IntegerPrograms.Report.Outcome

set_option autoImplicit false

namespace IntegerPrograms

variable {α β : Type}

def Rounds.relaxations (r : Rounds α β) : List (Solved α) := r.cuts.map (·.solved) ++ [r.last]

section Rounds

variable [Scalar α]

namespace Search

variable {s : Search α β} {inc : Incumbent α} {left : Nat} {store : β} {p : Problem α}
  {r : Rounds α β}

theorem Rounding.length_cuts_le (h : s.Rounding inc left store r) : r.cuts.length ≤ left := by
  induction h with
  | another _ _ _ ih => exact Nat.succ_le_succ ih
  | _ => exact Nat.zero_le _

/-- An attempt fails exactly where a node branches with cuts left to add. -/
theorem Rounding.failed_iff (h : s.Rounding inc left store r) :
    r.failed.isSome = true ↔ r.verdict.status = .branched ∧ r.cuts.length < left := by
  induction h with
  | fathomed _ hv => simp [Verdict.status_eq_branched_iff, hv]
  | capped => simp
  | uncut => simp [Verdict.status]
  | another _ _ _ ih => simpa using ih

/-- Each round solves the system of the one before with the cut of that round in it. -/
theorem Rounding.chained (hs : s.Lawful) (h : s.Rounding inc left store r)
    (hleft : left ≤ s.cutLimit) (hp : s.storage.system? store = some p)
    (hshape : p.Shaped s.problem.lp.numVars) :
    r.relaxations.head?.map (·.problem) = some p ∧
      ∀ i c after, r.cuts[i]? = some c → r.relaxations[i + 1]? = some after →
        after.problem = c.solved.problem.withRow c.cut.coefs c.cut.rhs := by
  refine solved_induction hs (motive := fun p r =>
    r.relaxations.head?.map (·.problem) = some p ∧
      ∀ i c after, r.cuts[i]? = some c → r.relaxations[i + 1]? = some after →
        after.problem = c.solved.problem.withRow c.cut.coefs c.cut.rhs) ?_ ?_ h hleft hp hshape
  · intro p store verdict failed _ _ _
    exact ⟨rfl, by simp⟩
  · intro p cut basic rest _ _ ⟨hhead, hrest⟩
    refine ⟨rfl, fun i c after hc hafter => ?_⟩
    cases i with
    | zero =>
      obtain rfl : (⟨p.solved s.settings.lp, cut, basic⟩ : CutRound α) = c := by simpa using hc
      have hfirst : rest.relaxations.head? = some after := by
        simpa [Rounds.relaxations, List.head?_eq_getElem?] using hafter
      rw [hfirst] at hhead
      exact Option.some.inj hhead
    | succ i => exact hrest i c after (by simpa using hc) (by simpa [Rounds.relaxations] using hafter)

theorem cutsAdded_eq {run : SearchRun α β} (hrun : s.run? = some run) :
    run.final.cutsAdded = (run.visits.map (·.cuts.length)).sum := by
  refine explore?_induction (I := fun past t => t.cutsAdded = (past.map (·.cuts.length)).sum)
    ?_ [] hrun rfl
  intro past t node t' v hpop _ ih
  obtain ⟨_, _, _, _, _, hsame, _⟩ := SearchTree.pop?_eq_some hpop
  rw [SearchTree.cutsAdded_afterVisit, hsame, ih]
  simp

end Search

end Rounds

namespace Report

theorem appliedCuts_getElem? (node : Nat) (last : Solved Float) (round : Nat)
    (cuts : List (CutRound Float)) (i : Nat) (record : CutRecord)
    (h : (appliedCuts node last.result round cuts)[i]? = some record) :
    ∃ c after, cuts[i]? = some c ∧ (cuts.map (·.solved) ++ [last])[i + 1]? = some after ∧
      record = ⟨node, round + i, .applied, cut c.cut.coefs c.cut.rhs,
        improvement c.solved.result after.result⟩ := by
  induction cuts generalizing round i with
  | nil => simp [appliedCuts] at h
  | cons c rest ih =>
    cases i with
    | zero =>
      simp only [appliedCuts, List.getElem?_cons_zero, Option.some.injEq] at h
      subst h
      cases rest with
      | nil => exact ⟨c, last, rfl, rfl, rfl⟩
      | cons next rest => exact ⟨c, next.solved, rfl, rfl, rfl⟩
    | succ i =>
      obtain ⟨d, after, hd, hafter, rfl⟩ := ih (round + 1) i (by simpa [appliedCuts] using h)
      exact ⟨d, after, by simpa using hd, by simpa using hafter, by
        rw [Nat.add_right_comm, Nat.add_assoc]⟩

def rejectedCuts (v : Visit Float β) : List CutRecord :=
  v.failed.toList.map fun attempt =>
    { node := v.node.id, round := v.cuts.length + 1, status := .ofAttempt attempt,
      constraint := notAvailable, improvement := none }

theorem cutRecords_eq (v : Visit Float β) :
    cutRecords v = appliedCuts v.node.id v.last.result 1 v.cuts ++ rejectedCuts v := rfl

theorem CutStatus.ofAttempt_ne_applied (attempt : Cut.Attempt Float) :
    ofAttempt attempt ≠ .applied := by
  cases attempt <;> simp [ofAttempt]

theorem mem_appliedCuts {node round : Nat} {last : Solved Float} {cuts : List (CutRound Float)}
    {record : CutRecord} (h : record ∈ appliedCuts node last.result round cuts) :
    record.node = node ∧ record.status = .applied := by
  obtain ⟨i, hi⟩ := List.mem_iff_getElem?.1 h
  obtain ⟨c, after, _, _, rfl⟩ := appliedCuts_getElem? _ _ _ _ _ _ hi
  exact ⟨rfl, rfl⟩

theorem mem_rejectedCuts {v : Visit Float β} {record : CutRecord} (h : record ∈ rejectedCuts v) :
    record.node = v.node.id ∧ record.status ≠ .applied ∧ record.round = v.cuts.length + 1 ∧
      record.constraint = notAvailable ∧ record.improvement = none := by
  obtain ⟨attempt, _, rfl⟩ := List.mem_map.1 h
  exact ⟨rfl, CutStatus.ofAttempt_ne_applied attempt, rfl, rfl, rfl⟩

theorem node_cutRecords (v : Visit Float β) : ∀ record ∈ cutRecords v, record.node = v.node.id := by
  intro record hrecord
  rw [cutRecords_eq, List.mem_append] at hrecord
  rcases hrecord with hrecord | hrecord
  · exact (mem_appliedCuts hrecord).1
  · exact (mem_rejectedCuts hrecord).1

theorem countP_cutRecords (v : Visit Float β) :
    (cutRecords v).countP (fun record => decide (record.status = .applied)) = v.cuts.length := by
  rw [cutRecords_eq, List.countP_append]
  have happlied : (appliedCuts v.node.id v.last.result 1 v.cuts).countP
      (fun record => decide (record.status = .applied)) = v.cuts.length := by
    rw [List.countP_eq_length.2 fun record h => decide_eq_true (mem_appliedCuts h).2,
      length_appliedCuts]
  have hrejected : (rejectedCuts v).countP
      (fun record => decide (record.status = .applied)) = 0 :=
    List.countP_eq_zero.2 fun record h => by simp [(mem_rejectedCuts h).2.1]
  rw [happlied, hrejected, Nat.add_zero]

theorem filter_cutRecords {visits : List (Visit Float β)}
    (hnodup : (visits.map (·.node.id)).Nodup) {v : Visit Float β} (hv : v ∈ visits) :
    (visits.flatMap cutRecords).filter (·.node = v.node.id) = cutRecords v := by
  have hother {u : Visit Float β} (hne : u.node.id ≠ v.node.id) :
      (cutRecords u).filter (·.node = v.node.id) = [] := by
    rw [List.filter_eq_nil_iff]
    intro record h
    simpa [node_cutRecords u record h] using hne
  induction visits with
  | nil => cases hv
  | cons u rest ih =>
    simp only [List.map_cons, List.nodup_cons, List.mem_map, not_exists, not_and] at hnodup
    rw [List.flatMap_cons, List.filter_append]
    rcases List.mem_cons.1 hv with rfl | hv
    · have hrest : (rest.flatMap cutRecords).filter (·.node = v.node.id) = [] := by
        rw [List.filter_flatMap, List.flatMap_eq_nil_iff]
        exact fun w hw => hother (hnodup.1 w hw)
      have hown : (cutRecords v).filter (·.node = v.node.id) = cutRecords v :=
        List.filter_eq_self.2 fun record h => decide_eq_true (node_cutRecords v record h)
      rw [hrest, hown, List.append_nil]
    · rw [hother fun he => hnodup.1 v hv he.symm, List.nil_append, ih hnodup.2 hv]

/-- The records of the cuts at a node, those applied and those rejected, against what was done
there under a limit on cuts. -/
structure Tells (limit : Nat) (v : Visit Float β) (applied rejected : List CutRecord) : Prop where
  within : (CutNodeRecord.ofVisit v).cutsApplied ≤ limit
  length : applied.length = (CutNodeRecord.ofVisit v).cutsApplied
  applied : ∀ i record, applied[i]? = some record → record.status = .applied ∧
    record.round = i + 1 ∧ ∃ c before after, v.cuts[i]? = some c ∧
      v.relaxations[i]? = some before ∧ v.relaxations[i + 1]? = some after ∧
      after.problem = before.problem.withRow c.cut.coefs c.cut.rhs ∧
      record.constraint = cut c.cut.coefs c.cut.rhs ∧
      record.improvement = if after.result.status = .optimal
        then some (after.result.objective - before.result.objective) else none
  once : rejected.length ≤ 1
  rejected_iff : rejected ≠ [] ↔ (CutNodeRecord.ofVisit v).status = .branched ∧
    (CutNodeRecord.ofVisit v).cutsApplied < limit
  rejected : ∀ record ∈ rejected, record.status ≠ .applied ∧
    record.round = (CutNodeRecord.ofVisit v).cutsApplied + 1 ∧ record.constraint = notAvailable ∧
    record.improvement = none

end Report

structure CutTrace (limit : Nat) (run : SearchRun Float (Problem Float)) : Prop where
  grouped : Outcome.cuts run =
    run.visits.flatMap fun v => (Outcome.cuts run).filter (·.node = v.node.id)
  group : ∀ v ∈ run.visits, ∃ applied rejected,
    (Outcome.cuts run).filter (·.node = v.node.id) = applied ++ rejected ∧
      Report.Tells limit v applied rejected
  applied : (run.visits.map fun v => (Report.CutNodeRecord.ofVisit v).cutsApplied).sum =
    (Outcome.cuts run).countP fun record => decide (record.status = .applied)
  added : (run.visits.map fun v => (Report.CutNodeRecord.ofVisit v).cutsApplied).sum =
    run.solution.cutsAdded
  /-- Filling in each improvement one round late, by the number of its record, comes to the same. -/
  filled : run.trace? = some ((Outcome.cuts run).map (·.improvement))

namespace Search

variable {s : Search Float β} {t t' : SearchTree Float (Node Float β)} {node : Node Float β}
  {p : Problem Float} {v : Visit Float β} {run : SearchRun Float β}

theorem Move.tells (hs : s.Lawful) (h : s.Move t node p t' v) :
    Report.Tells s.cutLimit v (Report.appliedCuts v.node.id v.last.result 1 v.cuts)
      (Report.rejectedCuts v) := by
  have hrounds := h.visited.rounds
  refine ⟨hrounds.length_cuts_le, Report.length_appliedCuts .., ?_, ?_, ?_, ?_⟩
  · intro i record hrecord
    obtain ⟨c, after, hc, hafter, rfl⟩ := Report.appliedCuts_getElem? _ _ _ _ _ _ hrecord
    have hchain := (hrounds.chained hs le_rfl h.system h.shaped).2 i c after hc hafter
    have hbefore : v.relaxations[i]? = some c.solved := by
      rw [Rounds.relaxations, List.getElem?_append_left]
      · simp [hc]
      · simpa using (List.getElem?_eq_some_iff.1 hc).1
    exact ⟨rfl, Nat.add_comm .., c, c.solved, after, hc, hbefore, hafter, hchain, rfl, rfl⟩
  · rw [Report.rejectedCuts, List.length_map]
    exact Option.length_toList_le
  · have hfailed := hrounds.failed_iff
    change Report.rejectedCuts v ≠ [] ↔ v.verdict.status = .branched ∧ v.cuts.length < s.cutLimit
    rw [← hfailed]
    cases hf : v.failed <;> simp [Report.rejectedCuts, hf]
  · exact fun record hrecord => (Report.mem_rejectedCuts hrecord).2

theorem tells (hs : s.Lawful) (hrun : s.run? = some run) :
    ∀ v ∈ run.visits, Report.Tells s.cutLimit v
      (Report.appliedCuts v.node.id v.last.result 1 v.cuts) (Report.rejectedCuts v) :=
  forall_visits hs (fun _ _ _ _ _ hmove => hmove.tells hs) hrun

end Search

theorem Search.cutTrace {s : Search Float (Problem Float)} {run : SearchRun Float (Problem Float)}
    (hs : s.Lawful) (hrun : s.run? = some run) : CutTrace s.cutLimit run := by
  have hgroup : ∀ v ∈ run.visits,
      (Outcome.cuts run).filter (·.node = v.node.id) = Report.cutRecords v :=
    fun v hv => Report.filter_cutRecords (traced hrun).visit_ids_nodup hv
  refine ⟨?_, fun v hv => ?_, ?_, (cutsAdded_eq hrun).symm, ?_⟩
  · exact (List.flatMap_congr hgroup).symm
  · exact ⟨_, _, hgroup v hv, tells hs hrun v hv⟩
  · rw [Outcome.cuts, List.countP_flatMap]
    congr 1
    exact List.map_congr_left fun v _ => (Report.countP_cutRecords v).symm
  · rw [run.trace?_eq, Outcome.cuts, List.map_flatMap]
    simp only [Report.improvement_cutRecords]

/-- The trace of cuts says what branch-and-cut did at every node, whatever the relaxations
answer. -/
theorem branchAndCut_cutTrace (p : MixedProblem Float) (settings : SearchSettings Float) :
    ∃ run, (branchAndCut p settings).run? = some run ∧ CutTrace settings.maxCuts run := by
  have hs := Search.lawful_branchAndCut p settings
  obtain ⟨run, hrun⟩ := Search.exists_run hs
  exact ⟨run, hrun, Search.cutTrace hs hrun⟩

end IntegerPrograms
