import Mathlib
import IntegerPrograms.Proofs.Search.Exactness
import IntegerPrograms.Proofs.Search.Records

/-!
How nodes store their systems makes no difference. Two searches for the same problem that differ
only in their storage make the same visits in step: their stores hold the same systems, row by row,
at every node. So branch-and-cut without cuts is branch-and-bound, over any arithmetic.
-/

set_option autoImplicit false

namespace IntegerPrograms

variable {α β γ : Type} [Scalar α]

namespace Search

variable {s : Search α β} {s' : Search α γ} {inc : Incumbent α} {left id : Nat} {store : β}
  {store' last' : γ} {r : Rounds α β} {node : Node α β} {node' : Node α γ} {v : Visit α β}
  {v' : Visit α γ} {t u : SearchTree α (Node α β)} {t' u' : SearchTree α (Node α γ)}

/-- Two searches that differ only in their storage. -/
structure Kin (s : Search α β) (s' : Search α γ) : Prop where
  lawful : s.Lawful
  lawful' : s'.Lawful
  problem : s'.problem = s.problem
  settings : s'.settings = s.settings
  cutLimit : s'.cutLimit = s.cutLimit

def SameSystem (s : Search α β) (s' : Search α γ) (store : β) (store' : γ) : Prop :=
  ∃ p, s.storage.system? store = some p ∧ s'.storage.system? store' = some p ∧
    p.Shaped s.problem.lp.numVars

theorem Kin.root (h : s.Kin s') : s.SameSystem s' s.storage.root s'.storage.root := by
  refine ⟨s.problem.lp, h.lawful.root, ?_, .of_valid s.problem.valid⟩
  rw [h.lawful'.root, h.problem]

theorem Kin.relax?_eq (h : s.Kin s') (inc : Incumbent α) (hst : s.SameSystem s' store store') :
    s'.relax? inc store' = s.relax? inc store := by
  obtain ⟨p, hp, hp', _⟩ := hst
  simp only [relax?, hp, hp', h.problem, h.settings]

theorem Kin.attempt_eq (h : s.Kin s') (solved : Solved α) :
    s'.attempt solved = s.attempt solved := by
  rw [attempt, attempt, h.problem]

theorem SameSystem.cut (h : s.Kin s') (hst : s.SameSystem s' store store') (hpos : 0 < s.cutLimit)
    {cut : Cut α} (hcut : cut.coefs.length = s.problem.lp.numVars) :
    s.SameSystem s' (s.storage.cut store cut) (s'.storage.cut store' cut) := by
  obtain ⟨p, hp, hp', hshape⟩ := hst
  exact ⟨_, h.lawful.cut hpos cut hp, h.lawful'.cut (h.cutLimit ▸ hpos) cut hp',
    hshape.withRow hcut _⟩

theorem Rounding.transfer (h : s.Kin s') (hr : s.Rounding inc left store r)
    (hleft : left ≤ s.cutLimit) (hst : s.SameSystem s' store store') :
    ∃ last' : γ, s'.Rounding inc left store' { r with store := last' } ∧
      s.SameSystem s' r.store last' := by
  induction hr generalizing store' with
  | another hrelax ha _ ih =>
    have ⟨p, hp, _, hshape⟩ := hst
    obtain ⟨rfl, _⟩ := solved_of_relax? hp hshape hrelax
    obtain ⟨last', hrest, hlast⟩ := ih (Nat.le_of_succ_le hleft)
      (hst.cut h (Nat.zero_lt_of_lt hleft) (length_cut hshape ha))
    rw [← h.attempt_eq] at ha
    exact ⟨last', .another ((h.relax?_eq inc hst).trans hrelax) ha hrest, hlast⟩
  | fathomed hrelax hv => exact ⟨store', .fathomed ((h.relax?_eq inc hst).trans hrelax) hv, hst⟩
  | capped hrelax => exact ⟨store', .capped ((h.relax?_eq inc hst).trans hrelax), hst⟩
  | uncut hrelax ha =>
    refine ⟨store', ?_, hst⟩
    rw [← h.attempt_eq] at ha ⊢
    exact .uncut ((h.relax?_eq inc hst).trans hrelax) ha

/-- Nodes at the same place in the tree with the same system. -/
structure Twin (s : Search α β) (s' : Search α γ) (node : Node α β) (node' : Node α γ) : Prop where
  id : node'.id = node.id
  parent : node'.parent = node.parent
  depth : node'.depth = node.depth
  parentObjective : node'.parentObjective = node.parentObjective
  store : s.SameSystem s' node.store node'.store

theorem Twin.child (h : s.Twin s' node node') (id : Nat) (objective : α)
    (hst : s.SameSystem s' store store') :
    s.Twin s' (node.child id objective store) (node'.child id objective store') where
  id := rfl
  parent := congrArg some h.id
  depth := congrArg (· + 1) h.depth
  parentObjective := rfl
  store := hst

theorem SameSystem.bound (h : s.Kin s') (hlast : s.SameSystem s' r.store last')
    (hr : s.Settled inc r) {f : Fractional α} (hf : r.verdict = .fractional f) {b : Bound α}
    (hb : b.var = f.var) (hstore : s.storage.bound? r.store b = some store) :
    ∃ store', s'.storage.bound? last' b = some store' ∧ s.SameSystem s' store store' := by
  obtain ⟨store₁, q, hstore₁, hq, hsystem, hshape⟩ := hr.bound h.lawful hf hb
  obtain rfl : store = store₁ := Option.some.inj (hstore.symm.trans hstore₁)
  obtain ⟨p, hp, hp', _⟩ := hlast
  obtain rfl : r.last.problem = p := Option.some.inj (hr.stored.symm.trans hp)
  obtain ⟨store', hstore', hsystem'⟩ := h.lawful'.bound hp' hq
  exact ⟨store', hstore', q, hsystem, hsystem', hshape⟩

theorem Offspring.transfer (h : s.Kin s') (hn : s.Twin s' node node') (hr : s.Settled inc r)
    (hlast : s.SameSystem s' r.store last') {children : List (Node α β)}
    (hc : s.Offspring node r id children) :
    ∃ children', s'.Offspring node' { r with store := last' } id children' ∧
      List.Forall₂ (s.Twin s') children children' := by
  cases hc with
  | @split f down up hv hdown hup =>
    obtain ⟨down', hdown', hsd⟩ := hlast.bound h hr hv (b := f.down) rfl hdown
    obtain ⟨up', hup', hsu⟩ := hlast.bound h hr hv (b := f.up) rfl hup
    exact ⟨_, .split hv hdown' hup', .cons (hn.child _ _ hsd) (.cons (hn.child _ _ hsu) .nil)⟩
  | none hv => exact ⟨[], .none hv, .nil⟩

structure TwinVisit (s : Search α β) (s' : Search α γ) (v : Visit α β) (v' : Visit α γ) :
    Prop where
  node : s.Twin s' v.node v'.node
  cuts : v'.cuts = v.cuts
  last : v'.last = v.last
  verdict : v'.verdict = v.verdict
  failed : v'.failed = v.failed
  children : List.Forall₂ (s.Twin s') v.children v'.children

structure TwinTree (s : Search α β) (s' : Search α γ) (t : SearchTree α (Node α β))
    (t' : SearchTree α (Node α γ)) : Prop where
  nodes : List.Forall₂ (s.Twin s') t.frontier.nodes t'.frontier.nodes
  incumbent : t'.incumbent = t.incumbent
  nextId : t'.nextId = t.nextId
  explored : t'.explored = t.explored
  cutsAdded : t'.cutsAdded = t.cutsAdded
  degraded : t'.degraded = t.degraded
  sawUnbounded : t'.sawUnbounded = t.sawUnbounded

namespace TwinTree

theorem start (h : s.Kin s') : s.TwinTree s' s.start s'.start :=
  ⟨.cons ⟨rfl, rfl, rfl, rfl, h.root⟩ .nil, rfl, rfl, rfl, rfl, rfl, rfl⟩

theorem pop?_none (h : s.TwinTree s' t t') (hpop : t.pop? = none) : t'.pop? = none := by
  have htwins := h.nodes
  rw [SearchTree.pop?_eq_none_iff] at hpop ⊢
  rwa [hpop, List.forall₂_nil_left_iff] at htwins

theorem pop?_some (h : s.TwinTree s' t t') (hpop : t.pop? = some (node, u)) :
    ∃ node' u', t'.pop? = some (node', u') ∧ s.Twin s' node node' ∧ s.TwinTree s' u u' := by
  obtain ⟨hnodes, hinc, hdegraded, hunbounded, hnext, hcuts, hexplored⟩ :=
    SearchTree.pop?_eq_some hpop
  have htwins := h.nodes
  rw [hnodes, List.forall₂_cons_left_iff] at htwins
  obtain ⟨node', rest', hn, hrest, hnodes'⟩ := htwins
  cases hpop' : t'.pop? with
  | none => simp [(SearchTree.pop?_eq_none_iff t').1 hpop'] at hnodes'
  | some result =>
    obtain ⟨first', u'⟩ := result
    obtain ⟨hfirst', hinc', hdegraded', hunbounded', hnext', hcuts', hexplored'⟩ :=
      SearchTree.pop?_eq_some hpop'
    obtain ⟨rfl, rfl⟩ := List.cons.inj (hfirst'.symm.trans hnodes')
    refine ⟨first', u', rfl, hn, hrest, ?_, ?_, ?_, ?_, ?_, ?_⟩
    · rw [hinc', hinc, h.incumbent]
    · rw [hnext', hnext, h.nextId]
    · rw [hexplored', hexplored, h.explored]
    · rw [hcuts', hcuts, h.cutsAdded]
    · rw [hdegraded', hdegraded, h.degraded]
    · rw [hunbounded', hunbounded, h.sawUnbounded]

theorem visit (h : s.Kin s') (ht : s.TwinTree s' t t') (hn : s.Twin s' node node')
    (hv : s.Visited t node v) : ∃ v', s'.Visited t' node' v' ∧ s.TwinVisit s' v v' := by
  obtain ⟨rfl, hrounds, hchildren⟩ := hv
  obtain ⟨p, hp, _, hshape⟩ := hn.store
  have hsettled := hrounds.settled h.lawful le_rfl hp hshape
  obtain ⟨last', hrounds', hlast⟩ := hrounds.transfer h le_rfl hn.store
  obtain ⟨children', hchildren', htwins⟩ := hchildren.transfer h hn hsettled hlast
  rw [← ht.incumbent, ← h.cutLimit] at hrounds'
  rw [← ht.nextId] at hchildren'
  exact ⟨{ v.toRounds with store := last', node := node', children := children' },
    ⟨rfl, hrounds', hchildren'⟩, hn, rfl, rfl, rfl, rfl, htwins⟩

theorem afterVisit (h : s.TwinTree s' t t') (hv : s.TwinVisit s' v v') :
    s.TwinTree s' (t.afterVisit v) (t'.afterVisit v') where
  nodes := by
    rw [SearchTree.nodes_afterVisit, SearchTree.nodes_afterVisit]
    exact List.rel_append hv.children h.nodes
  incumbent := by
    simp only [SearchTree.incumbent_afterVisit, hv.verdict, hv.last, h.incumbent]
  nextId := by
    simp only [SearchTree.nextId_afterVisit, ← List.length_eq_zero_iff, hv.children.length_eq,
      h.nextId]
  explored := by
    rw [SearchTree.explored_afterVisit, SearchTree.explored_afterVisit, h.explored]
  cutsAdded := by
    rw [SearchTree.cutsAdded_afterVisit, SearchTree.cutsAdded_afterVisit, h.cutsAdded, hv.cuts]
  degraded := by
    simp only [SearchTree.degraded_afterVisit, hv.verdict, h.degraded]
  sawUnbounded := by
    simp only [SearchTree.sawUnbounded_afterVisit, hv.verdict, h.sawUnbounded]

theorem solution_eq (h : s.TwinTree s' t t') : t'.solution t'.status = t.solution t.status := by
  have hempty : t'.frontier.isEmpty = t.frontier.isEmpty := by
    rw [Bool.eq_iff_iff, Frontier.isEmpty, Frontier.isEmpty, List.isEmpty_iff_length_eq_zero,
      List.isEmpty_iff_length_eq_zero, h.nodes.length_eq]
  simp only [SearchTree.solution, SearchTree.status, SearchTree.exhausted, SearchTree.interrupted,
    hempty, h.incumbent, h.explored, h.cutsAdded, h.degraded, h.sawUnbounded]

end TwinTree

theorem explore?_twin (h : s.Kin s') (ht : s.TwinTree s' t t') {run : SearchRun α β}
    (hrun : s.explore? left t = some run) :
    ∃ run', s'.explore? left t' = some run' ∧
      List.Forall₂ (s.TwinVisit s') run.visits run'.visits ∧
      s.TwinTree s' run.final run'.final := by
  induction left generalizing t t' run with
  | zero =>
    obtain rfl : (⟨[], t⟩ : SearchRun α β) = run := by simpa [explore?] using hrun
    exact ⟨⟨[], t'⟩, rfl, .nil, ht⟩
  | succ left ih =>
    rcases explore?_succ hrun with ⟨hpop, rfl⟩ | ⟨node, u, v, rest, hpop, hv, hrest, rfl⟩
    · exact ⟨⟨[], t'⟩, by simp [explore?, ht.pop?_none hpop], .nil, ht⟩
    · obtain ⟨node', u', hpop', hn, hu⟩ := ht.pop?_some hpop
      obtain ⟨v', hv', hvisit⟩ := hu.visit h hn (visit?_eq_some_iff.1 hv)
      obtain ⟨rest', hrest', hvisits, hfinal⟩ := ih (hu.afterVisit hvisit) hrest
      refine ⟨{ rest' with visits := v' :: rest'.visits }, ?_, .cons hvisit hvisits, hfinal⟩
      simp [explore?, hpop', visit?_eq_some_iff.2 hv', hrest']

/-- A run does not depend on the storage. -/
theorem run?_twin (h : s.Kin s') :
    ∃ run run', s.run? = some run ∧ s'.run? = some run' ∧
      List.Forall₂ (s.TwinVisit s') run.visits run'.visits ∧ run'.solution = run.solution := by
  obtain ⟨run, hrun⟩ := exists_run h.lawful
  obtain ⟨run', hrun', hvisits, hfinal⟩ := explore?_twin h (.start h) hrun
  rw [← h.settings] at hrun'
  exact ⟨run, run', hrun, hrun', hvisits, hfinal.solution_eq⟩

end Search

theorem kin_of_no_cuts (p : MixedProblem α) {settings : SearchSettings α}
    (h : settings.maxCuts = 0) : (branchAndBound p settings).Kin (branchAndCut p settings) :=
  ⟨Search.lawful_branchAndBound p settings, Search.lawful_branchAndCut p settings, rfl, rfl, h⟩

/-- Runs of both methods that make the same visits. The nodes of the one store the very systems that
the bounds in the nodes of the other stand for, and there is no cut. -/
structure MixedProblem.SameRuns (p : MixedProblem α) (run : SearchRun α (List (Bound α)))
    (run' : SearchRun α (Problem α)) : Prop where
  visits : List.Forall₂ (fun v v' => v'.node.id = v.node.id ∧ v'.node.parent = v.node.parent ∧
    p.lp.withBounds? v.node.store = some v'.node.store ∧ v'.last = v.last ∧
    v'.verdict = v.verdict) run.visits run'.visits
  solution : run'.solution = run.solution
  uncut : ∀ v ∈ run'.visits, v.cuts = [] ∧ v.failed = none
  cutsAdded : run'.solution.cutsAdded = 0

theorem exists_sameRuns (p : MixedProblem α) {settings : SearchSettings α}
    (h : settings.maxCuts = 0) :
    ∃ run run', (branchAndBound p settings).run? = some run ∧
      (branchAndCut p settings).run? = some run' ∧ p.SameRuns run run' := by
  obtain ⟨run, run', hrun, hrun', hvisits, hsolution⟩ := Search.run?_twin (kin_of_no_cuts p h)
  obtain ⟨huncut, hadded⟩ := Search.uncut h hrun'
  refine ⟨run, run', hrun, hrun', hvisits.imp fun v v' hv => ?_, hsolution, huncut, hadded⟩
  obtain ⟨q, hq, hq', _⟩ := hv.node.store
  obtain rfl : v'.node.store = q := Option.some.inj hq'
  exact ⟨hv.node.id, hv.node.parent, hq, hv.last, hv.verdict⟩

open Report

/-- Runs of both methods whose records say the same of every node, and none is of a cut. -/
structure Report.SameRecords (run : SearchRun Float (List (Bound Float)))
    (run' : SearchRun Float (Problem Float)) : Prop where
  order : (Outcome.cutVisitOrder run').map CutNodeRecord.shared =
    (Outcome.visitOrder run).map NodeRecord.shared
  history : (Outcome.cutNodes run').map CutNodeRecord.shared =
    (Outcome.nodes run).map NodeRecord.shared
  cutsApplied : ∀ r ∈ Outcome.cutVisitOrder run', r.cutsApplied = 0
  cuts : Outcome.cuts run' = []

theorem MixedProblem.SameRuns.records {p : MixedProblem Float}
    {run : SearchRun Float (List (Bound Float))} {run' : SearchRun Float (Problem Float)}
    (h : p.SameRuns run run') : SameRecords run run' := by
  have hrecords : run'.visits.map Record.ofVisit = run.visits.map Record.ofVisit := by
    rw [← List.forall₂_eq_eq_eq, List.forall₂_map_left_iff, List.forall₂_map_right_iff]
    refine h.visits.flip.imp fun v' v ⟨hid, hparent, _, hlast, hverdict⟩ => ?_
    simp only [Record.ofVisit, hid, hparent, hlast, hverdict]
  have hbyId : (byId run'.visits).map Record.ofVisit = (byId run.visits).map Record.ofVisit := by
    rw [map_byId, map_byId, hrecords]
  constructor
  · rw [Outcome.cutVisitOrder, Outcome.visitOrder, List.map_map, List.map_map]
    exact hrecords
  · rw [Outcome.cutNodes, Outcome.nodes, List.map_map, List.map_map]
    exact hbyId
  · intro r hr
    obtain ⟨v, hv, rfl⟩ := List.mem_map.1 hr
    exact congrArg List.length (h.uncut v hv).1
  · rw [Outcome.cuts, List.flatMap_eq_nil_iff]
    intro v hv
    obtain ⟨hcuts, hfailed⟩ := h.uncut v hv
    simp [cutRecords, appliedCuts, hcuts, hfailed]

/-- Without cuts, branch-and-cut is branch-and-bound. In any arithmetic it makes the same visits and
returns the same solution, and in double precision it leaves the same records. -/
theorem branchAndCut_without_cuts :
    (∀ {α : Type} [Scalar α] (p : MixedProblem α) (settings : SearchSettings α),
      settings.maxCuts = 0 →
      ∃ run run', (branchAndBound p settings).run? = some run ∧
        (branchAndCut p settings).run? = some run' ∧ p.SameRuns run run') ∧
    ∀ (p : MixedProblem Float) (settings : SearchSettings Float), settings.maxCuts = 0 →
      ∃ run run', (branchAndBound p settings).run? = some run ∧
        (branchAndCut p settings).run? = some run' ∧ p.SameRuns run run' ∧
        SameRecords run run' := by
  refine ⟨fun p settings h => exists_sameRuns p h, fun p settings h => ?_⟩
  obtain ⟨run, run', hrun, hrun', hsame⟩ := exists_sameRuns p h
  exact ⟨run, run', hrun, hrun', hsame, hsame.records⟩

def outOfReach : MixedProblem Float where
  lp := ⟨[1, 1, 1], [[1, 1, 1]], [-1]⟩
  integers := [0, 1, 2]
  valid := by decide +kernel
  integers_ne_nil := by decide
  integers_sorted := by decide
  integers_lt := by decide

theorem branchAndCut_without_cuts_workshop :
    (∃ run run', (branchAndBound workshop { maxCuts := 0 }).run? = some run ∧
      (branchAndCut workshop { maxCuts := 0 }).run? = some run' ∧
      1 < run.visits.length ∧ workshop.SameRuns run run') ∧
    ∃ run run', (branchAndBound outOfReach { maxCuts := 0 }).run? = some run ∧
      (branchAndCut outOfReach { maxCuts := 0 }).run? = some run' ∧
      (Outcome.visitOrder run).map (·.status) = [.infeasible] ∧ SameRecords run run' := by
  obtain ⟨run, run', hrun, hrun', hsame⟩ :=
    branchAndCut_without_cuts.1 workshop { maxCuts := 0 } rfl
  obtain ⟨double, double', hdouble, hdouble', _, hrecords⟩ :=
    branchAndCut_without_cuts.2 outOfReach { maxCuts := 0 } rfl
  have heval : ((branchAndBound workshop { maxCuts := 0 }).run?).any (fun run =>
      decide (1 < run.visits.length)) = true := by decide +kernel
  have hdoubles : ((branchAndBound outOfReach { maxCuts := 0 }).run?).any (fun run =>
      decide ((Outcome.visitOrder run).map (·.status) = [.infeasible])) = true := by
    decide +kernel
  rw [hrun, Option.any_some, decide_eq_true_eq] at heval
  rw [hdouble, Option.any_some, decide_eq_true_eq] at hdoubles
  exact ⟨⟨run, run', hrun, hrun', heval, hsame⟩, double, double', hdouble, hdouble', hdoubles,
    hrecords⟩

end IntegerPrograms
