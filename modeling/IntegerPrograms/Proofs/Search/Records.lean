import Mathlib
import IntegerPrograms.Proofs.Search.DepthFirst
import IntegerPrograms.Report.Outcome

/-!
The records of the nodes that a search in double precision leaves behind. In the order of the visits
they are a binary tree in depth-first order, cut off at the last one, and the history is the same
records by their ids.
-/

set_option autoImplicit false

namespace IntegerPrograms

namespace Report

/-- What the records of both methods say of a node. -/
structure Record where
  id : Nat
  parent : Option Nat
  objective : Option Float
  status : NodeStatus
  solution : String

def NodeRecord.shared (r : NodeRecord) : Record :=
  ⟨r.id, r.parent, r.objective, r.status, r.solution⟩

def CutNodeRecord.shared (r : CutNodeRecord) : Record :=
  ⟨r.id, r.parent, r.objective, r.status, r.solution⟩

def Record.ofVisit {β : Type} (v : Visit Float β) : Record where
  id := v.node.id
  parent := v.node.parent
  objective := shownObjective v.last.result
  status := v.verdict.status
  solution := shownPoint v.last.result

def withStatus (status : NodeStatus) (order : List Record) : List Record :=
  order.filter fun r => decide (r.status = status)

def branched (order : List Record) : List Record := withStatus .branched order

inductive Below (order : List Record) (id : Nat) : Record → Prop
  | self {r : Record} (hr : r ∈ order) (hid : r.id = id) : Below order id r
  | child {q r : Record} (hq : Below order id q) (hr : r ∈ order)
      (hparent : r.parent = some q.id) : Below order id r

/-- Records that list a binary tree in depth-first order. The `k`-th of them that branched, counted
from zero, is the parent of `2 * (k + 1)`, its down child, and of the id after that. -/
structure DepthFirst (order : List Record) : Prop where
  distinct : (order.map (·.id)).Nodup
  root : ∀ r ∈ order.head?, r.id = 1 ∧ r.parent = none
  parent_iff : ∀ k b, (branched order)[k]? = some b → ∀ r ∈ order,
    (r.parent = some b.id ↔ r.id = 2 * (k + 1) ∨ r.id = 2 * (k + 1) + 1)
  others : ∀ r ∈ order, r.id = 1 ∨
    ∃ k < (branched order).length, r.id = 2 * (k + 1) ∨ r.id = 2 * (k + 1) + 1
  follows : ∀ before b rest, order = before ++ b :: rest → b.status = .branched →
    ∃ k below above others, (branched order)[k]? = some b ∧ rest = below ++ above ++ others ∧
      (∀ r, r ∈ below ↔ Below order (2 * (k + 1)) r) ∧
      (∀ r, r ∈ above ↔ Below order (2 * (k + 1) + 1) r) ∧
      (∀ r ∈ rest.head?, r.id = 2 * (k + 1)) ∧ (∀ r ∈ above.head?, r.id = 2 * (k + 1) + 1) ∧
      (above = [] → others = [])

/-- What a run leaves of its nodes: the order of the visits and the history. -/
structure Chronicle {ρ β : Type} (shared : ρ → Record) (run : SearchRun Float β)
    (order history : List ρ) : Prop where
  tree : DepthFirst (order.map shared)
  explored : order.length = run.solution.explored
  perm : history.Perm order
  sorted : history.Pairwise fun q r => (shared q).id < (shared r).id
  closed : run.final.frontier.nodes = [] →
    order.length = 2 * (branched (order.map shared)).length + 1 ∧
      history.map (fun r => (shared r).id) =
        List.range' 1 (2 * (branched (order.map shared)).length + 1)

section Visits

variable {β : Type} {visits : List (Visit Float β)}

theorem branched_ofVisit :
    branched (visits.map Record.ofVisit) = (branchings visits).map Record.ofVisit :=
  List.filter_map

theorem branched_getElem? {k : Nat} {r : Record}
    (h : (branched (visits.map Record.ofVisit))[k]? = some r) :
    ∃ v, (branchings visits)[k]? = some v ∧ Record.ofVisit v = r := by
  rwa [branched_ofVisit, List.getElem?_map, Option.map_eq_some_iff] at h

theorem map_byId :
    (byId visits).map Record.ofVisit =
      (visits.map Record.ofVisit).mergeSort fun q r => decide (q.id ≤ r.id) :=
  List.map_mergeSort fun _ _ _ _ => rfl

theorem byId_strict (h : (visits.map (·.node.id)).Nodup) :
    (byId visits).Pairwise fun u v => u.node.id < v.node.id := by
  have hdistinct : ((byId visits).map (·.node.id)).Nodup :=
    ((byId_perm visits).map _).nodup_iff.2 h
  exact (byId_sorted visits).imp₂ (fun _ _ => Nat.lt_of_le_of_ne) (List.pairwise_map.1 hdistinct)

theorem below_ofVisit_iff {run : SearchRun Float β} {id : Nat} {r : Record} :
    Below (run.visits.map Record.ofVisit) id r ↔
      ∃ v, run.Below id v ∧ Record.ofVisit v = r := by
  constructor
  · intro h
    induction h with
    | self hr hid =>
      obtain ⟨v, hv, rfl⟩ := List.mem_map.1 hr
      exact ⟨v, .self hv hid, rfl⟩
    | child _ hr hparent ih =>
      obtain ⟨u, hu, rfl⟩ := ih
      obtain ⟨v, hv, rfl⟩ := List.mem_map.1 hr
      exact ⟨v, .child hu hv hparent, rfl⟩
  · rintro ⟨v, h, rfl⟩
    induction h with
    | self hv hid => exact .self (List.mem_map_of_mem hv) hid
    | child _ hv hparent ih => exact .child ih (List.mem_map_of_mem hv) hparent

end Visits

end Report

open Report

namespace Search.Traced

variable {β ρ : Type} {s : Search Float β} {run : SearchRun Float β} {shared : ρ → Record}
  {record : Visit Float β → ρ}

theorem records_follow (h : s.Traced run) {before rest : List Record} {b : Record}
    (hvisits : run.visits.map Record.ofVisit = before ++ b :: rest)
    (hstatus : b.status = .branched) :
    ∃ k below above others, (branched (run.visits.map Record.ofVisit))[k]? = some b ∧
      rest = below ++ above ++ others ∧
      (∀ r, r ∈ below ↔ Report.Below (run.visits.map Record.ofVisit) (2 * (k + 1)) r) ∧
      (∀ r, r ∈ above ↔ Report.Below (run.visits.map Record.ofVisit) (2 * (k + 1) + 1) r) ∧
      (∀ r ∈ rest.head?, r.id = 2 * (k + 1)) ∧ (∀ r ∈ above.head?, r.id = 2 * (k + 1) + 1) ∧
      (above = [] → others = []) := by
  obtain ⟨first, tail, hsplit, rfl, htail⟩ := List.map_eq_append_iff.1 hvisits
  obtain ⟨v, last, rfl, rfl, rfl⟩ := List.map_eq_cons_iff.1 htail
  have hv : v ∈ branchings run.visits := mem_branchings.2 ⟨by simp [hsplit], hstatus⟩
  obtain ⟨k, hk⟩ := List.mem_iff_getElem?.1 hv
  obtain ⟨f, down, up, _, hchildren, _⟩ := h.split (by simp [hsplit]) hstatus
  obtain ⟨hdown, hup⟩ := h.ids_of_split hk hchildren
  obtain ⟨below, above, others, rfl, hbelow, habove, hfirst, hsecond, hdone⟩ :=
    h.follows hsplit hchildren
  rw [hdown] at hbelow
  rw [hup] at habove
  refine ⟨k, below.map .ofVisit, above.map .ofVisit, others.map .ofVisit, ?_, by simp, fun r => ?_,
    fun r => ?_, fun r hr => ?_, fun r hr => ?_, by simpa using hdone⟩
  · rw [branched_ofVisit, List.getElem?_map, hk, Option.map_some]
  · simp only [List.mem_map, below_ofVisit_iff, hbelow]
  · simp only [List.mem_map, below_ofVisit_iff, habove]
  · rw [List.head?_map, Option.mem_map] at hr
    obtain ⟨u, hu, rfl⟩ := hr
    exact (congrArg Node.id (hfirst u hu)).trans hdown
  · rw [List.head?_map, Option.mem_map] at hr
    obtain ⟨u, hu, rfl⟩ := hr
    exact (congrArg Node.id (hsecond u hu)).trans hup

theorem records_depthFirst (h : s.Traced run) :
    Report.DepthFirst (run.visits.map Record.ofVisit) where
  distinct := by
    rw [List.map_map]
    exact h.visit_ids_nodup
  root := by
    intro r hr
    rw [List.head?_map, Option.mem_map] at hr
    obtain ⟨v, hv, rfl⟩ := hr
    exact h.depthFirst.root v hv
  parent_iff := by
    intro k b hb r hr
    obtain ⟨u, hu, rfl⟩ := branched_getElem? hb
    obtain ⟨v, hv, rfl⟩ := List.mem_map.1 hr
    exact h.parent_iff_id hu (run.node_mem hv)
  others := by
    intro r hr
    obtain ⟨v, hv, rfl⟩ := List.mem_map.1 hr
    rw [branched_ofVisit, List.length_map]
    exact h.depthFirst.others v.node (run.node_mem hv)
  follows _ _ _ hvisits hstatus := h.records_follow hvisits hstatus

theorem chronicle (h : s.Traced run) (hrecord : ∀ v, shared (record v) = .ofVisit v) :
    Chronicle shared run (run.visits.map record) ((byId run.visits).map record) := by
  have horder : (run.visits.map record).map shared = run.visits.map Record.ofVisit := by
    rw [List.map_map]
    exact List.map_congr_left fun v _ => hrecord v
  have hid (v : Visit Float β) : (shared (record v)).id = v.node.id := by
    rw [hrecord]
    rfl
  refine ⟨?_, ?_, (byId_perm run.visits).map record, ?_, fun hclosed => ?_⟩
  · rw [horder]
    exact h.records_depthFirst
  · rw [List.length_map]
    exact h.explored.symm
  · rw [List.pairwise_map]
    simpa only [hid] using byId_strict h.visit_ids_nodup
  · obtain ⟨hlength, hhistory⟩ := h.history hclosed
    rw [horder, branched_ofVisit, List.length_map, List.length_map, List.map_map]
    exact ⟨hlength, (List.map_congr_left fun v _ => hid v).trans hhistory⟩

end Search.Traced

/-- Both methods visit a binary tree in depth-first order, in any arithmetic and whatever their
relaxations answer. In double precision the records of their nodes tell of it. -/
theorem searches_depthFirst :
    (∀ {α : Type} [Scalar α] (p : MixedProblem α) (settings : SearchSettings α),
      (∃ run, (branchAndBound p settings).run? = some run ∧
        (branchAndBound p settings).DepthFirst run) ∧
      ∃ run, (branchAndCut p settings).run? = some run ∧
        (branchAndCut p settings).DepthFirst run) ∧
    ∀ (p : MixedProblem Float) (settings : SearchSettings Float),
      (∃ run, (branchAndBound p settings).run? = some run ∧
        Chronicle NodeRecord.shared run (Outcome.visitOrder run) (Outcome.nodes run)) ∧
      ∃ run, (branchAndCut p settings).run? = some run ∧
        Chronicle CutNodeRecord.shared run (Outcome.cutVisitOrder run) (Outcome.cutNodes run) ∧
        ∀ q ∈ Outcome.cutVisitOrder run, ∀ r ∈ Outcome.cutVisitOrder run,
          r.parent = some q.id → r.depth = q.depth + 1 := by
  constructor
  · intro α _ p settings
    obtain ⟨run, hrun, htraced⟩ := Search.exists_traced (Search.lawful_branchAndBound p settings)
    obtain ⟨run', hrun', htraced'⟩ := Search.exists_traced (Search.lawful_branchAndCut p settings)
    exact ⟨⟨run, hrun, htraced.depthFirst⟩, run', hrun', htraced'.depthFirst⟩
  · intro p settings
    obtain ⟨run, hrun, htraced⟩ := Search.exists_traced (Search.lawful_branchAndBound p settings)
    obtain ⟨run', hrun', htraced'⟩ := Search.exists_traced (Search.lawful_branchAndCut p settings)
    refine ⟨⟨run, hrun, htraced.chronicle fun _ => rfl⟩, run', hrun',
      htraced'.chronicle fun _ => rfl, fun q hq r hr hparent => ?_⟩
    obtain ⟨u, hu, rfl⟩ := List.mem_map.1 hq
    obtain ⟨v, hv, rfl⟩ := List.mem_map.1 hr
    exact htraced'.depthFirst.depth u hu v.node (run'.node_mem hv) hparent

end IntegerPrograms
