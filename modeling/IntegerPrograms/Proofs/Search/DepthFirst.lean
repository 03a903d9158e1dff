import Mathlib
import IntegerPrograms.Proofs.Search.Rounds
import IntegerPrograms.Report.Trace

/-!
The order of visits, over any arithmetic and whatever the relaxations answer. A search takes nodes
from a stack, so its visits fall into one stretch for each node of the stack, and a stretch is left
unfinished only if nothing comes after it. With ids given out in pairs, the trace of a run is a
binary tree in depth-first order, cut off at the last visit.
-/

set_option autoImplicit false

namespace IntegerPrograms

variable {α β : Type}

/-- Visits by a stack: each takes the first node out and puts its children in front of the rest.
The last argument is the stack that is left. -/
inductive Traversal : List (Node α β) → List (Visit α β) → List (Node α β) → Prop
  | stop (stack : List (Node α β)) : Traversal stack [] stack
  | visit {v : Visit α β} {rest left : List (Node α β)} {visits : List (Visit α β)}
      (h : Traversal (v.children ++ rest) visits left) :
      Traversal (v.node :: rest) (v :: visits) left

namespace Traversal

variable {stack left front back : List (Node α β)} {visits : List (Visit α β)} {node : Node α β}

theorem nodes_perm (h : Traversal stack visits left) :
    (visits.map (·.node) ++ left).Perm (stack ++ visits.flatMap (·.children)) := by
  induction h with
  | stop stack => simp
  | @visit v rest left visits _ ih =>
    simp only [List.map_cons, List.flatMap_cons, List.cons_append, List.perm_cons]
    refine ih.trans ?_
    rw [← List.append_assoc]
    exact List.perm_append_comm.append_right _

theorem mem_nodes_iff (h : Traversal stack visits left) :
    node ∈ visits.map (·.node) ++ left ↔ node ∈ stack ∨ ∃ v ∈ visits, node ∈ v.children := by
  rw [h.nodes_perm.mem_iff, List.mem_append, List.mem_flatMap]

theorem forall_node {P : Node α β → Prop} (h : Traversal stack visits left)
    (hstack : ∀ node ∈ stack, P node)
    (hchild : ∀ v ∈ visits, P v.node → ∀ child ∈ v.children, P child) :
    ∀ v ∈ visits, P v.node := by
  induction h with
  | stop stack => simp
  | @visit v rest left visits _ ih =>
    simp only [List.forall_mem_cons] at hstack hchild ⊢
    refine ⟨hstack.1, ih ?_ hchild.2⟩
    rw [List.forall_mem_append]
    exact ⟨hchild.1 hstack.1, hstack.2⟩

theorem head_node (h : Traversal (node :: stack) visits left) :
    ∀ v ∈ visits.head?, v.node = node := by
  cases h <;> simp

theorem visits_nil (h : Traversal [] visits left) : visits = [] := by
  cases h
  rfl

theorem after_first {v : Visit α β} (h : Traversal stack (v :: visits) left) :
    ∃ rest, stack = v.node :: rest ∧ Traversal (v.children ++ rest) visits left := by
  cases h with
  | visit h => exact ⟨_, rfl, h⟩

/-- The front of a stack is done with before its back is touched. -/
theorem split (h : Traversal (front ++ back) visits left) :
    ∃ first second leftFront leftBack, visits = first ++ second ∧ left = leftFront ++ leftBack ∧
      Traversal front first leftFront ∧ Traversal back second leftBack ∧
      (leftFront = [] ∨ second = []) := by
  generalize hstack : front ++ back = stack at h
  induction h generalizing front with
  | stop stack => exact ⟨[], [], front, back, rfl, hstack.symm, .stop _, .stop _, .inr rfl⟩
  | @visit v rest left visits h ih =>
    cases front with
    | nil =>
      obtain rfl : back = v.node :: rest := hstack
      exact ⟨[], v :: visits, [], left, rfl, rfl, .stop _, .visit h, .inl rfl⟩
    | cons node front =>
      -- The children go in front of what is left of the front, so the back stays where it is.
      obtain ⟨rfl, rfl⟩ : node = v.node ∧ front ++ back = rest := by simpa using hstack
      obtain ⟨first, second, leftFront, leftBack, rfl, rfl, hfirst, hsecond, hdone⟩ :=
        ih (List.append_assoc v.children front back)
      exact ⟨v :: first, second, leftFront, leftBack, rfl, rfl, .visit hfirst, hsecond, hdone⟩

theorem after {before rest : List (Visit α β)} {v : Visit α β}
    (h : Traversal stack (before ++ v :: rest) left) :
    ∃ back, Traversal (v.children ++ back) rest left := by
  induction before generalizing stack with
  | nil =>
    cases h with
    | visit h => exact ⟨_, h⟩
  | cons u before ih =>
    cases h with
    | visit h => exact ih h

end Traversal

theorem Report.byId_perm (visits : List (Visit α β)) : (byId visits).Perm visits :=
  List.mergeSort_perm ..

theorem Report.byId_sorted (visits : List (Visit α β)) :
    (byId visits).Pairwise fun u v => u.node.id ≤ v.node.id := by
  refine (List.pairwise_mergeSort (fun a b c => ?_) (fun a b => ?_) visits).imp of_decide_eq_true
  · simpa using Nat.le_trans
  · simpa using Nat.le_total ..

def branchings (visits : List (Visit α β)) : List (Visit α β) :=
  visits.filter fun v => decide (v.verdict.status = .branched)

theorem mem_branchings {visits : List (Visit α β)} {v : Visit α β} :
    v ∈ branchings visits ↔ v ∈ visits ∧ v.verdict.status = .branched := by
  simp [branchings]

theorem Verdict.status_eq_branched_iff (verdict : Verdict α) :
    verdict.status = .branched ↔ ∃ f, verdict = .fractional f := by
  cases verdict <;> simp [Verdict.status]

/-- Ids are given out in pairs, in the order of the visits that branched. -/
structure Numbered (visits : List (Visit α β)) : Prop where
  created : (visits.flatMap (·.children)).map (·.id) =
    List.range' 2 (2 * (branchings visits).length)
  pair : ∀ {k b}, (branchings visits)[k]? = some b →
    b.children.map (·.id) = [2 * (k + 1), 2 * (k + 1) + 1]

namespace Numbered

variable {visits : List (Visit α β)} {v : Visit α β}

theorem nil : Numbered ([] : List (Visit α β)) := ⟨rfl, by simp [branchings]⟩

theorem fathomed (h : Numbered visits) (hv : v.verdict.status ≠ .branched)
    (hchildren : v.children = []) : Numbered (visits ++ [v]) := by
  have hsame : branchings (visits ++ [v]) = branchings visits := by simp [branchings, hv]
  refine ⟨?_, ?_⟩
  · rw [hsame, ← h.created]
    simp [hchildren]
  · rw [hsame]
    exact h.pair

theorem branched (h : Numbered visits) (hv : v.verdict.status = .branched)
    (hids : v.children.map (·.id) =
      [2 * ((branchings visits).length + 1), 2 * ((branchings visits).length + 1) + 1]) :
    Numbered (visits ++ [v]) := by
  have hmore : branchings (visits ++ [v]) = branchings visits ++ [v] := by simp [branchings, hv]
  refine ⟨?_, fun {k b} hb => ?_⟩
  · have hrange : List.range' 2 (2 * ((branchings visits).length + 1)) =
        List.range' 2 (2 * (branchings visits).length) ++
          [2 * ((branchings visits).length + 1), 2 * ((branchings visits).length + 1) + 1] := by
      rw [Nat.mul_succ, List.range'_concat, List.range'_concat, List.append_assoc]
      simp
      omega
    rw [hmore, List.length_append, List.length_singleton, hrange, ← h.created, ← hids]
    simp
  · rw [hmore] at hb
    rcases Nat.lt_or_ge k (branchings visits).length with hk | hk
    · rw [List.getElem?_append_left hk] at hb
      exact h.pair hb
    · rw [List.getElem?_append_right hk, List.getElem?_singleton,
        Option.ite_none_right_eq_some] at hb
      obtain rfl : v = b := Option.some.inj hb.2
      rw [hids, show k = (branchings visits).length by omega]

end Numbered

def SearchRun.nodes (run : SearchRun α β) : List (Node α β) :=
  run.visits.map (·.node) ++ run.final.frontier.nodes

theorem SearchRun.node_mem (run : SearchRun α β) {v : Visit α β} (hv : v ∈ run.visits) :
    v.node ∈ run.nodes :=
  List.mem_append_left _ (List.mem_map_of_mem hv)

/-- The visits to a node and, by the links to the parents, to all nodes below it. -/
inductive SearchRun.Below (run : SearchRun α β) (id : Nat) : Visit α β → Prop
  | self {v : Visit α β} (hv : v ∈ run.visits) (hid : v.node.id = id) : Below run id v
  | child {u v : Visit α β} (hu : Below run id u) (hv : v ∈ run.visits)
      (hparent : v.node.parent = some u.node.id) : Below run id v

namespace Search

variable [Scalar α] {s : Search α β} {run : SearchRun α β}

theorem Offspring.link {node child : Node α β} {r : Rounds α β} {id : Nat}
    {children : List (Node α β)} (h : s.Offspring node r id children) (hchild : child ∈ children) :
    child.parent = some node.id ∧ child.depth = node.depth + 1 := by
  cases h with
  | split =>
    rcases List.mem_pair.1 hchild with rfl | rfl
    · exact ⟨rfl, rfl⟩
    · exact ⟨rfl, rfl⟩
  | none => cases hchild

/-- What a run leaves behind: the order of the stack, the children of every visit, and the
counters. -/
structure Traced (s : Search α β) (run : SearchRun α β) : Prop where
  order : Traversal [.root s.storage.root] run.visits run.final.frontier.nodes
  offspring : ∀ v ∈ run.visits, ∃ id, s.Offspring v.node v.toRounds id v.children
  numbered : Numbered run.visits
  explored : run.final.explored = run.visits.length
  within : run.visits.length ≤ s.settings.maxNodes

theorem traversal_of_explore? {left : Nat} {t : SearchTree α (Node α β)}
    (h : s.explore? left t = some run) :
    Traversal t.frontier.nodes run.visits run.final.frontier.nodes ∧ run.visits.length ≤ left := by
  induction left generalizing t run with
  | zero =>
    obtain rfl : (⟨[], t⟩ : SearchRun α β) = run := by simpa [explore?] using h
    exact ⟨.stop _, le_rfl⟩
  | succ left ih =>
    rcases explore?_succ h with ⟨_, rfl⟩ | ⟨node, t', v, rest, hpop, hv, hrest, rfl⟩
    · exact ⟨.stop _, Nat.zero_le _⟩
    · obtain ⟨horder, hlen⟩ := ih hrest
      obtain ⟨rfl, _, _⟩ := visit?_eq_some_iff.1 hv
      rw [SearchTree.nodes_afterVisit] at horder
      rw [(SearchTree.pop?_eq_some hpop).1]
      exact ⟨.visit horder, Nat.succ_le_succ hlen⟩

/-- The next id is twice one more than the branchings so far, and the children of a visit take it
up. -/
theorem Offspring.numbered {past : List (Visit α β)} {v : Visit α β} (h : Numbered past)
    (hc : s.Offspring v.node v.toRounds (2 * ((branchings past).length + 1)) v.children) :
    Numbered (past ++ [v]) ∧
      (if v.children = [] then 2 * ((branchings past).length + 1)
        else 2 * ((branchings past).length + 1) + 2) =
          2 * ((branchings (past ++ [v])).length + 1) := by
  generalize hchildren : v.children = children at hc
  cases hc with
  | split hv =>
    have hbranched : v.verdict.status = .branched := v.verdict.status_eq_branched_iff.2 ⟨_, hv⟩
    refine ⟨h.branched hbranched (by simp [hchildren, Node.child]), ?_⟩
    simp [branchings, hbranched]
    omega
  | none hv =>
    have hbranched : v.verdict.status ≠ .branched := by
      simpa [Verdict.status_eq_branched_iff] using hv
    refine ⟨h.fathomed hbranched hchildren, ?_⟩
    simp [branchings, hbranched]

theorem traced (hrun : s.run? = some run) : s.Traced run := by
  obtain ⟨horder, hlen⟩ := traversal_of_explore? hrun
  have hfinal := explore?_induction (I := fun past t =>
    (∀ v ∈ past, ∃ id, s.Offspring v.node v.toRounds id v.children) ∧ Numbered past ∧
      t.explored = past.length ∧ t.nextId = 2 * ((branchings past).length + 1)) ?_ [] hrun
    ⟨by simp, .nil, rfl, rfl⟩
  · exact ⟨horder, hfinal.1, hfinal.2.1, hfinal.2.2.1, hlen⟩
  intro past t node t' v hpop hv ⟨hoffspring, hnumbered, hexplored, hnext⟩
  obtain ⟨_, _, _, _, hnext', _, hexplored'⟩ := SearchTree.pop?_eq_some hpop
  obtain ⟨rfl, _, hchildren⟩ := visit?_eq_some_iff.1 hv
  rw [hnext', hnext] at hchildren
  obtain ⟨hnumbered', hcount⟩ := hchildren.numbered hnumbered
  refine ⟨?_, hnumbered', ?_, ?_⟩
  · simp only [List.forall_mem_append, List.forall_mem_singleton]
    exact ⟨hoffspring, _, hchildren⟩
  · rw [SearchTree.explored_afterVisit, hexplored', hexplored, List.length_append,
      List.length_singleton]
  · rw [SearchTree.nextId_afterVisit, hnext', hnext, hcount]

theorem exists_traced (hs : s.Lawful) : ∃ run, s.run? = some run ∧ s.Traced run := by
  obtain ⟨run, hrun⟩ := exists_run hs
  exact ⟨run, hrun, traced hrun⟩

namespace Traced

theorem ids_perm (h : s.Traced run) :
    (run.nodes.map (·.id)).Perm (List.range' 1 (2 * (branchings run.visits).length + 1)) := by
  have hperm := h.order.nodes_perm.map (·.id)
  rwa [List.singleton_append, List.map_cons, h.numbered.created] at hperm

theorem ids_nodup (h : s.Traced run) : (run.nodes.map (·.id)).Nodup :=
  h.ids_perm.nodup_iff.2 List.nodup_range'

theorem eq_of_id (h : s.Traced run) {node node' : Node α β} (hn : node ∈ run.nodes)
    (hn' : node' ∈ run.nodes) (hid : node.id = node'.id) : node = node' :=
  List.inj_on_of_nodup_map h.ids_nodup hn hn' hid

theorem visit_ids_nodup (h : s.Traced run) : (run.visits.map (·.node.id)).Nodup := by
  have hall := h.ids_nodup
  rw [SearchRun.nodes, List.map_append, List.map_map] at hall
  exact hall.of_append_left

theorem visit_eq_of_id (h : s.Traced run) {u v : Visit α β} (hu : u ∈ run.visits)
    (hv : v ∈ run.visits) (hid : u.node.id = v.node.id) : u = v :=
  List.inj_on_of_nodup_map h.visit_ids_nodup hu hv hid

theorem not_open (h : s.Traced run) {v : Visit α β} (hv : v ∈ run.visits) :
    v.node ∉ run.final.frontier.nodes := by
  intro hopen
  have hall := h.ids_nodup
  rw [SearchRun.nodes, List.map_append] at hall
  exact List.disjoint_of_nodup_append hall (List.mem_map_of_mem (List.mem_map_of_mem hv))
    (List.mem_map_of_mem hopen)

theorem root_or_child (h : s.Traced run) {node : Node α β} (hn : node ∈ run.nodes) :
    node = .root s.storage.root ∨ ∃ u ∈ run.visits, node ∈ u.children := by
  simpa using h.order.mem_nodes_iff.1 hn

theorem child_mem (h : s.Traced run) {u : Visit α β} (hu : u ∈ run.visits) {node : Node α β}
    (hn : node ∈ u.children) : node ∈ run.nodes :=
  h.order.mem_nodes_iff.2 (.inr ⟨u, hu, hn⟩)

theorem parent_iff (h : s.Traced run) {u : Visit α β} (hu : u ∈ run.visits) {node : Node α β}
    (hn : node ∈ run.nodes) : node.parent = some u.node.id ↔ node ∈ u.children := by
  constructor
  · intro hparent
    rcases h.root_or_child hn with rfl | ⟨w, hw, hchild⟩
    · cases hparent
    · obtain ⟨id, hw'⟩ := h.offspring w hw
      have hid : w.node.id = u.node.id := by
        rw [(hw'.link hchild).1] at hparent
        exact Option.some.inj hparent
      rwa [← h.visit_eq_of_id hw hu hid]
  · intro hchild
    obtain ⟨id, hu'⟩ := h.offspring u hu
    exact (hu'.link hchild).1

/-- The visits to a node and below it are one stretch. -/
theorem below_iff (h : s.Traced run) {node : Node α β} {stretch : List (Visit α β)}
    {left : List (Node α β)} (horder : Traversal [node] stretch left)
    (hstretch : ∀ v ∈ stretch, v ∈ run.visits) (hleft : ∀ n ∈ left, n ∈ run.final.frontier.nodes)
    (v : Visit α β) : v ∈ stretch ↔ run.Below node.id v := by
  constructor
  · intro hv
    refine horder.forall_node (P := fun n => ∀ u ∈ run.visits, u.node = n → run.Below node.id u)
      ?_ ?_ v hv v (hstretch v hv) rfl
    · intro n hn u hu hun
      exact .self hu (by rw [hun, List.mem_singleton.1 hn])
    · intro w hw hbelow child hchild u hu hun
      refine .child (hbelow w (hstretch w hw) rfl) hu ?_
      exact (h.parent_iff (hstretch w hw) (run.node_mem hu)).2 (hun ▸ hchild)
  · -- A node that the stretch gets to and that some visit went to was visited by the stretch.
    have hreached {u : Visit α β} (hu : u ∈ run.visits)
        (hn : u.node ∈ stretch.map (·.node) ++ left) : u ∈ stretch := by
      rcases List.mem_append.1 hn with hn | hn
      · obtain ⟨w, hw, hwn⟩ := List.mem_map.1 hn
        rwa [← h.visit_eq_of_id (hstretch w hw) hu (by rw [hwn])]
      · exact absurd (hleft _ hn) (h.not_open hu)
    have hnode : node ∈ run.nodes := by
      have hn := horder.mem_nodes_iff.2 (.inl (List.mem_singleton_self node))
      rcases List.mem_append.1 hn with hn | hn
      · obtain ⟨w, hw, rfl⟩ := List.mem_map.1 hn
        exact run.node_mem (hstretch w hw)
      · exact List.mem_append_right _ (hleft _ hn)
    intro hv
    induction hv with
    | self hv hid =>
      refine hreached hv (horder.mem_nodes_iff.2 (.inl ?_))
      exact List.mem_singleton.2 (h.eq_of_id (run.node_mem hv) hnode hid)
    | child hu hv hparent ih =>
      refine hreached hv (horder.mem_nodes_iff.2 (.inr ⟨_, ih, ?_⟩))
      exact (h.parent_iff (hstretch _ ih) (run.node_mem hv)).1 hparent

theorem split (h : s.Traced run) {b : Visit α β} (hb : b ∈ run.visits)
    (hstatus : b.verdict.status = .branched) :
    ∃ f down up, b.verdict = .fractional f ∧ b.children = [down, up] ∧
      s.storage.bound? b.store f.down = some down.store ∧
      s.storage.bound? b.store f.up = some up.store := by
  obtain ⟨id, hc⟩ := h.offspring b hb
  generalize hchildren : b.children = children at hc
  cases hc with
  | split hv hdown hup => exact ⟨_, _, _, hv, rfl, hdown, hup⟩
  | none hv =>
    obtain ⟨f, hf⟩ := b.verdict.status_eq_branched_iff.1 hstatus
    exact absurd hf (hv f)

theorem first (h : s.Traced run) : ∀ v ∈ run.visits.head?, v.node = .root s.storage.root :=
  h.order.head_node

theorem eq_singleton (h : s.Traced run) {v : Visit α β} (hv : v ∈ run.visits)
    (hroot : v.node = .root s.storage.root) (hnone : v.children = []) : run.visits = [v] := by
  cases hvisits : run.visits with
  | nil => simp [hvisits] at hv
  | cons first rest =>
    have horder := h.order
    rw [hvisits] at horder
    have hfirst : first.node = .root s.storage.root := horder.head_node first rfl
    obtain rfl : v = first := h.visit_eq_of_id hv (by simp [hvisits]) (by rw [hroot, hfirst])
    obtain ⟨below, hstack, hrest⟩ := horder.after_first
    obtain rfl : below = [] := (List.cons.inj hstack).2.symm
    rw [hnone, List.nil_append] at hrest
    rw [hrest.visits_nil]

/-- After a visit that branched come the visits to the down child and below it, then those to the up
child and below it, then the others. -/
theorem follows (h : s.Traced run) {before rest : List (Visit α β)} {b : Visit α β}
    {down up : Node α β} (hvisits : run.visits = before ++ b :: rest)
    (hchildren : b.children = [down, up]) :
    ∃ below above others, rest = below ++ above ++ others ∧
      (∀ v, v ∈ below ↔ run.Below down.id v) ∧ (∀ v, v ∈ above ↔ run.Below up.id v) ∧
      (∀ v ∈ rest.head?, v.node = down) ∧ (∀ v ∈ above.head?, v.node = up) ∧
      (above = [] → others = []) := by
  have horder := h.order
  rw [hvisits] at horder
  obtain ⟨back, hrest⟩ := horder.after
  rw [hchildren, ← List.singleton_append, List.append_assoc] at hrest
  obtain ⟨below, tail, leftDown, leftTail, hsplit, hleft, hbelow, htail, hdone⟩ := hrest.split
  obtain ⟨above, others, leftUp, leftBack, rfl, rfl, habove, hothers, hdone'⟩ := htail.split
  have hmem (v : Visit α β) (hv : v ∈ rest) : v ∈ run.visits := by simp [hvisits, hv]
  rw [← List.append_assoc] at hsplit
  refine ⟨below, above, others, hsplit, ?_, ?_, hrest.head_node, habove.head_node, ?_⟩
  · refine h.below_iff hbelow (fun v hv => hmem v (by simp [hsplit, hv])) fun n hn => ?_
    simp [hleft, hn]
  · refine h.below_iff habove (fun v hv => hmem v (by simp [hsplit, hv])) fun n hn => ?_
    simp [hleft, hn]
  · rintro rfl
    rcases hdone' with rfl | hnil
    · cases habove
    · exact hnil

theorem mem_ids (h : s.Traced run) {node : Node α β} (hn : node ∈ run.nodes) :
    1 ≤ node.id ∧ node.id ≤ 2 * (branchings run.visits).length + 1 := by
  have hid := h.ids_perm.mem_iff.1 (List.mem_map_of_mem hn)
  rw [List.mem_range'_1] at hid
  omega

theorem ids_of_split (h : s.Traced run) {k : Nat} {b : Visit α β} {down up : Node α β}
    (hb : (branchings run.visits)[k]? = some b) (hchildren : b.children = [down, up]) :
    down.id = 2 * (k + 1) ∧ up.id = 2 * (k + 1) + 1 := by
  have hpair := h.numbered.pair hb
  simpa [hchildren] using hpair

theorem parent_iff_id (h : s.Traced run) {k : Nat} {b : Visit α β} {node : Node α β}
    (hb : (branchings run.visits)[k]? = some b) (hn : node ∈ run.nodes) :
    node.parent = some b.node.id ↔ node.id = 2 * (k + 1) ∨ node.id = 2 * (k + 1) + 1 := by
  obtain ⟨hmem, hstatus⟩ := mem_branchings.1 (List.mem_of_getElem? hb)
  obtain ⟨f, down, up, _, hchildren, _⟩ := h.split hmem hstatus
  obtain ⟨hdown, hup⟩ := h.ids_of_split hb hchildren
  rw [h.parent_iff hmem hn, ← hup, ← hdown, hchildren, List.mem_pair]
  refine or_congr ⟨congrArg _, ?_⟩ ⟨congrArg _, ?_⟩
  · exact h.eq_of_id hn (h.child_mem hmem (by simp [hchildren]))
  · exact h.eq_of_id hn (h.child_mem hmem (by simp [hchildren]))

theorem history (h : s.Traced run) (hclosed : run.final.frontier.nodes = []) :
    run.visits.length = 2 * (branchings run.visits).length + 1 ∧
      (Report.byId run.visits).map (·.node.id) =
        List.range' 1 (2 * (branchings run.visits).length + 1) := by
  have hids := h.ids_perm
  rw [SearchRun.nodes, hclosed, List.append_nil, List.map_map] at hids
  have hsorted : ((Report.byId run.visits).map (·.node.id)).Pairwise (· ≤ ·) :=
    List.pairwise_map.2 (Report.byId_sorted run.visits)
  refine ⟨by simpa using hids.length_eq, ?_⟩
  refine List.Perm.eq_of_pairwise (fun a b _ _ => Nat.le_antisymm) hsorted ?_ ?_
  · exact (List.pairwise_lt_range' 1).imp Nat.le_of_lt
  · exact ((Report.byId_perm run.visits).map _).trans hids

end Traced

/-- The trace of a run is a binary tree in depth-first order. -/
structure DepthFirst (s : Search α β) (run : SearchRun α β) : Prop where
  explored : run.visits.length = run.solution.explored
  distinct : (run.visits.map (·.node.id)).Nodup
  root : ∀ v ∈ run.visits.head?, v.node.id = 1 ∧ v.node.parent = none
  split : ∀ k b, (branchings run.visits)[k]? = some b →
    ∃ f down up, b.verdict = .fractional f ∧ b.children = [down, up] ∧
      s.storage.bound? b.store f.down = some down.store ∧
      s.storage.bound? b.store f.up = some up.store ∧ down ∈ run.nodes ∧ up ∈ run.nodes ∧
      down.id = 2 * (k + 1) ∧ up.id = 2 * (k + 1) + 1
  parent_iff : ∀ k b, (branchings run.visits)[k]? = some b → ∀ node ∈ run.nodes,
    (node.parent = some b.node.id ↔ node.id = 2 * (k + 1) ∨ node.id = 2 * (k + 1) + 1)
  others : ∀ node ∈ run.nodes, node.id = 1 ∨
    ∃ k < (branchings run.visits).length, node.id = 2 * (k + 1) ∨ node.id = 2 * (k + 1) + 1
  follows : ∀ before b rest, run.visits = before ++ b :: rest → b.verdict.status = .branched →
    ∃ down up below above others, b.children = [down, up] ∧ rest = below ++ above ++ others ∧
      (∀ v, v ∈ below ↔ run.Below down.id v) ∧ (∀ v, v ∈ above ↔ run.Below up.id v) ∧
      (∀ v ∈ rest.head?, v.node = down) ∧ (∀ v ∈ above.head?, v.node = up) ∧
      (above = [] → others = [])
  closed : run.final.frontier.nodes = [] →
    run.visits.length = 2 * (branchings run.visits).length + 1 ∧
      (Report.byId run.visits).map (·.node.id) =
        List.range' 1 (2 * (branchings run.visits).length + 1)
  depth : ∀ u ∈ run.visits, ∀ node ∈ run.nodes, node.parent = some u.node.id →
    node.depth = u.node.depth + 1
  bounded : ∀ node ∈ run.nodes, node.id ≤ 2 * s.settings.maxNodes + 1

theorem Traced.depthFirst (h : s.Traced run) : s.DepthFirst run where
  explored := h.explored.symm
  distinct := h.visit_ids_nodup
  root := by
    intro v hv
    rw [h.first v hv]
    exact ⟨rfl, rfl⟩
  split := by
    intro k b hb
    obtain ⟨hmem, hstatus⟩ := mem_branchings.1 (List.mem_of_getElem? hb)
    obtain ⟨f, down, up, hf, hchildren, hdown, hup⟩ := h.split hmem hstatus
    exact ⟨f, down, up, hf, hchildren, hdown, hup, h.child_mem hmem (by simp [hchildren]),
      h.child_mem hmem (by simp [hchildren]), h.ids_of_split hb hchildren⟩
  parent_iff _ _ hb _ hn := h.parent_iff_id hb hn
  others := by
    intro node hn
    have hid := h.mem_ids hn
    by_cases hone : node.id = 1
    · exact .inl hone
    · exact .inr ⟨node.id / 2 - 1, by omega, by omega⟩
  follows := by
    intro before b rest hvisits hstatus
    obtain ⟨f, down, up, _, hchildren, _⟩ := h.split (by simp [hvisits]) hstatus
    obtain ⟨below, above, others, hrest⟩ := h.follows hvisits hchildren
    exact ⟨down, up, below, above, others, hchildren, hrest⟩
  closed := h.history
  depth := by
    intro u hu node hn hparent
    obtain ⟨id, hc⟩ := h.offspring u hu
    exact (hc.link ((h.parent_iff hu hn).1 hparent)).2
  bounded := by
    intro node hn
    have hid := h.mem_ids hn
    have hcount : (branchings run.visits).length ≤ run.visits.length := List.length_filter_le ..
    have hwithin := h.within
    omega

end Search

end IntegerPrograms
