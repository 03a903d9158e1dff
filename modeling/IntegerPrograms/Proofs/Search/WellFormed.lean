import Mathlib
import IntegerPrograms.Proofs.Finite
import IntegerPrograms.Proofs.Search.Exactness
import IntegerPrograms.Proofs.Search.Rounds
import IntegerPrograms.Proofs.Simplex.Pivoting
import IntegerPrograms.Report.Trace

/-!
What a search relies on, over any arithmetic that rounds finite values to finite ones. Every system
it solves is a valid linear program over the variables of the problem: a bound is at a finite value
because no other value passes for fractional, and a cut that is not finite is not added. So no index
of a tableau, of a point, of a cut or of the trace leaves its range, whatever overflows on the way.
-/

set_option autoImplicit false

namespace IntegerPrograms

variable {α β : Type} [Scalar α] {n m : Nat}

section Solves

theorem Phase.pivots_run_lt (rule : Tableau α n m → Tableau.Step n m) (cap : Nat)
    (t : Tableau α n m) :
    ∀ record ∈ (run rule cap t).pivots, record.row < m ∧ record.col < n + m := by
  fun_induction run rule cap t with
  | case5 cap t r k hr rest ih => exact List.forall_mem_cons.2 ⟨⟨r.isLt, k.isLt⟩, ih⟩
  | _ => exact List.forall_mem_nil _

theorem Phase.final_mem_trail (rule : Tableau α n m → Tableau.Step n m) (cap : Nat)
    (t : Tableau α n m) : (run rule cap t).final ∈ t.trail (run rule cap t).pivots := by
  have hall := (forall_trail_append (P := (· ∈ t.trail (run rule cap t).pivots)) rule cap t []).1
    (by simp)
  exact hall.2 _ (Tableau.mem_trail_self _ _)

theorem LpRun.pivots_ofTableau_lt (cap : Nat) (t : Tableau α n m) :
    ∀ record ∈ (ofTableau cap t).primal.pivots ++ (ofTableau cap t).dual.pivots,
      record.row < m ∧ record.col < n + m := by
  refine List.forall_mem_append.2 ⟨?_, ?_⟩
  · obtain ⟨rule, hrun⟩ := firstPhase_eq_run t
    rw [primal_ofTableau, hrun]
    exact Phase.pivots_run_lt rule cap t
  · rcases dual_ofTableau cap t with hd | ⟨_, _, hd⟩
    · simp [hd, Phase.idle]
    · rw [hd]
      exact Phase.pivots_run_lt _ _ _

theorem LpRun.final_mem_trail (cap : Nat) (t : Tableau α n m) :
    (ofTableau cap t).final ∈
      t.trail ((ofTableau cap t).primal.pivots ++ (ofTableau cap t).dual.pivots) := by
  have hall := (forall_trail_iff (P := (· ∈ t.trail ((ofTableau cap t).primal.pivots ++
    (ofTableau cap t).dual.pivots))) cap t _).1 fun _ hu => hu
  refine hall.2 _ ?_
  rw [primal_ofTableau, final]
  rcases dual_ofTableau cap t with hd | ⟨_, _, hd⟩
  · rw [hd]
    exact Tableau.mem_trail_self _ _
  · rw [hd]
    exact Phase.final_mem_trail _ _ _

/-- A solve of a valid problem over `n` variables: the first tableau has room for the data, pivots
are inside the tableau and keep the right-hand side out of the basis, and the point read off the
last tableau has an entry for every variable. -/
structure Solved.WellFormed (n : Nat) (s : Solved α) : Prop where
  valid : s.problem.Valid
  vars : s.problem.numVars = n
  fits : Tableau.fits s.problem = true
  pivots : ∀ record ∈ s.run.primal.pivots ++ s.run.dual.pivots,
    record.row < s.problem.numRows ∧ record.col < n + s.problem.numRows
  basis : ∀ t ∈ s.tableaux, ∀ i, (t.basic i).val < n + s.problem.numRows
  final : s.run.final ∈ s.tableaux
  point : s.result.x.length = n
  slacks : s.result.s.length = s.problem.numRows ∧ s.result.z.length = s.problem.numRows

theorem Problem.Valid.wellFormed_solved {p : Problem α} (hp : p.Valid) (settings : LpSettings) :
    (p.solved settings).WellFormed p.numVars where
  valid := hp
  vars := rfl
  fits := by
    have hfirst := Tableau.ofProblem?_shaped (.of_valid hp)
    exact (Option.ite_none_right_eq_some.1 hfirst).1
  pivots := LpRun.pivots_ofTableau_lt settings.maxPivots (Tableau.slackBasis p)
  basis := by
    have hproper := LpRun.trail_induction (C := fun _ => True) (I := fun t => t.basisProper = true)
      (fun u r k _ hu _ => Tableau.basisProper_pivot hu r k)
      (fun u r k _ hu _ => Tableau.basisProper_pivot hu r k) settings.maxPivots _
      (fun _ _ => trivial) (Tableau.basisProper_slackBasis p)
    intro t ht i
    exact of_decide_eq_true (List.all_eq_true.1 (hproper t ht) i (List.mem_finRange i))
  final := LpRun.final_mem_trail settings.maxPivots (Tableau.slackBasis p)
  point := List.length_ofFn
  slacks := ⟨List.length_ofFn, List.length_ofFn⟩

end Solves

section Trace

def LpResult.gain? (before after : LpResult α) : Option α :=
  if after.status = .optimal then some (after.objective - before.objective) else none

def CutRound.gains (last : LpResult α) : List (CutRound α) → List (Option α)
  | [] => []
  | c :: rest =>
    c.solved.result.gain? (rest.head?.elim last fun r => r.solved.result) :: gains last rest

def Rounds.gains (r : Rounds α β) : List (Option α) :=
  CutRound.gains r.last.result r.cuts ++ r.failed.toList.map fun _ => none

theorem Report.improvement_cutRecords (v : Visit Float β) :
    (Report.cutRecords v).map (·.improvement) = v.toRounds.gains := by
  have happlied (round : Nat) (cuts : List (CutRound Float)) :
      (Report.appliedCuts v.node.id v.last.result round cuts).map (·.improvement) =
        CutRound.gains v.last.result cuts := by
    induction cuts generalizing round with
    | nil => rfl
    | cons c rest ih =>
      rw [Report.appliedCuts, List.map_cons, ih]
      rfl
  rw [Report.cutRecords, List.map_append, happlied, List.map_map, Rounds.gains]
  rfl

/-- Fills in the gain of the entry with a number, once the relaxation after its cut is solved; fails
if there is no such entry. -/
def fillGain? (trace : List (Option α)) (pending : Option (Nat × α)) (r : LpResult α) :
    Option (List (Option α)) :=
  match pending with
  | none => some trace
  | some (number, before) =>
    if r.status = .optimal then
      if number < trace.length then some (trace.set number (some (r.objective - before))) else none
    else some trace

def CutRound.trace? (last : LpResult α) :
    List (CutRound α) → List (Option α) → Option (Nat × α) → Option (List (Option α))
  | [], trace, pending => fillGain? trace pending last
  | c :: rest, trace, pending => do
    let trace ← fillGain? trace pending c.solved.result
    let trace := trace ++ [none]
    trace? last rest trace (some (trace.length - 1, c.solved.result.objective))

def Rounds.trace? (r : Rounds α β) (trace : List (Option α)) : Option (List (Option α)) :=
  (CutRound.trace? r.last.result r.cuts trace none).map (· ++ r.failed.toList.map fun _ => none)

def SearchRun.trace? (run : SearchRun α β) : Option (List (Option α)) :=
  run.visits.foldlM (fun trace v => v.toRounds.trace? trace) []

theorem fillGain?_last (trace : List (Option α)) (before after : LpResult α) :
    fillGain? (trace ++ [none]) (some ((trace ++ [none]).length - 1, before.objective)) after =
      some (trace ++ [before.gain? after]) := by
  simp only [fillGain?, LpResult.gain?, List.length_append, List.length_singleton,
    Nat.add_sub_cancel]
  split
  · simp
  · rfl

theorem CutRound.trace?_pending (last : LpResult α) (cuts : List (CutRound α))
    (trace : List (Option α)) (before : LpResult α) :
    CutRound.trace? last cuts (trace ++ [none])
        (some ((trace ++ [none]).length - 1, before.objective)) =
      some (trace ++ before.gain? (cuts.head?.elim last fun r => r.solved.result) ::
        CutRound.gains last cuts) := by
  induction cuts generalizing trace before with
  | nil => rw [trace?, fillGain?_last]; rfl
  | cons c rest ih =>
    rw [trace?, fillGain?_last, Option.bind_eq_bind, Option.bind_some, ih]
    simp [gains]

theorem Rounds.trace?_eq (r : Rounds α β) (trace : List (Option α)) :
    r.trace? trace = some (trace ++ r.gains) := by
  rw [Rounds.trace?, gains]
  cases r.cuts with
  | nil => simp [CutRound.trace?, CutRound.gains, fillGain?]
  | cons c rest =>
    rw [CutRound.trace?, fillGain?, Option.bind_eq_bind, Option.bind_some,
      CutRound.trace?_pending]
    simp [CutRound.gains]

theorem SearchRun.trace?_eq (run : SearchRun α β) :
    run.trace? = some (run.visits.flatMap fun v => v.toRounds.gains) := by
  have hfold (visits : List (Visit α β)) (trace : List (Option α)) :
      visits.foldlM (fun trace v => v.toRounds.trace? trace) trace =
        some (trace ++ visits.flatMap fun v => v.toRounds.gains) := by
    induction visits generalizing trace with
    | nil => simp
    | cons v rest ih =>
      rw [List.foldlM_cons, Rounds.trace?_eq, Option.bind_eq_bind, Option.bind_some, ih,
        List.flatMap_cons, List.append_assoc]
  exact hfold run.visits []

end Trace

structure CutRound.WellFormed (p : MixedProblem α) (c : CutRound α) : Prop where
  solved : c.solved.WellFormed p.lp.numVars
  source : c.cut.sourceRow < c.solved.problem.numRows
  basic : c.basic ∈ p.integers
  coefs : c.cut.coefs.length = p.lp.numVars
  finite : c.cut.isFinite = true

structure Rounds.WellFormed (p : MixedProblem α) (r : Rounds α β) : Prop where
  cuts : ∀ c ∈ r.cuts, c.WellFormed p
  last : r.last.WellFormed p.lp.numVars
  rows : ∀ row, r.failed ≠ some (.missingRow row)
  choice : ∀ f, r.verdict = .fractional f →
    f.var ∈ p.integers ∧ f.var < p.lp.numVars ∧ Scalar.isFinite f.value = true

structure SearchRun.WellFormed (p : MixedProblem α) (run : SearchRun α β) : Prop where
  visits : ∀ v ∈ run.visits, v.toRounds.WellFormed p
  trace : run.trace? = some (run.visits.flatMap fun v => v.toRounds.gains)

theorem Cut.Attempt.isFinite_of_usable? {a : Cut.Attempt α} {cut : Cut α} {basic : Nat}
    (h : a.usable? = some (cut, basic)) : cut.isFinite = true := by
  obtain rfl := eq_derived_of_usable? h
  exact (Option.ite_none_right_eq_some.1 h).1

theorem Problem.Valid.withCut {p : Problem α} (hp : p.Valid) {cut : Cut α}
    (hlen : cut.coefs.length = p.numVars) (hfinite : cut.isFinite = true) :
    (p.withRow cut.coefs cut.rhs).Valid := by
  obtain ⟨hrhs, hcoefs⟩ := Bool.and_eq_true_iff.1 hfinite
  exact hp.withRow hlen (List.all_eq_true.1 hcoefs) hrhs

namespace Search

variable {s : Search α β} {inc : Incumbent α} {left : Nat} {store : β} {p : Problem α}
  {r : Rounds α β} {node : Node α β}

theorem Rounding.failed_cases (h : s.Rounding inc left store r) :
    r.failed = none ∨ r.failed = some (s.attempt r.last) := by
  induction h with
  | fathomed => exact .inl rfl
  | capped => exact .inl rfl
  | uncut => exact .inr rfl
  | another _ _ _ ih => exact ih

theorem Rounding.wellFormed_solves (hs : s.Lawful) (h : s.Rounding inc left store r)
    (hleft : left ≤ s.cutLimit) (hp : s.storage.system? store = some p)
    (hshape : p.Shaped s.problem.lp.numVars) (hvalid : p.Valid) :
    (∀ c ∈ r.cuts, c.WellFormed s.problem) ∧ r.last.WellFormed s.problem.lp.numVars := by
  refine solved_induction hs (motive := fun p r => p.numVars = s.problem.lp.numVars → p.Valid →
    (∀ c ∈ r.cuts, c.WellFormed s.problem) ∧ r.last.WellFormed s.problem.lp.numVars)
    ?_ ?_ h hleft hp hshape hshape.vars hvalid
  · intro p store verdict failed _ _ _ hn hvalid
    exact ⟨by simp, hn ▸ hvalid.wellFormed_solved s.settings.lp⟩
  · intro p cut basic rest hlen ha hrest hn hvalid
    have hfinite := Cut.Attempt.isFinite_of_usable? ha
    obtain ⟨hsource, hbasic⟩ := Cut.basic_of_derive (Cut.Attempt.eq_derived_of_usable? ha)
    obtain ⟨hcuts, hlast⟩ := hrest hn (hvalid.withCut hlen hfinite)
    refine ⟨List.forall_mem_cons.2 ⟨?_, hcuts⟩, hlast⟩
    exact ⟨hn ▸ hvalid.wellFormed_solved s.settings.lp, hsource, hbasic, hlen.trans hn, hfinite⟩

theorem Rounding.wellFormed (hround : Scalar.RoundsFinite α) (hs : s.Lawful)
    (h : s.Rounding inc left store r) (hleft : left ≤ s.cutLimit)
    (hp : s.storage.system? store = some p) (hshape : p.Shaped s.problem.lp.numVars)
    (hvalid : p.Valid) : r.WellFormed s.problem := by
  have hsettled := h.settled hs hleft hp hshape
  obtain ⟨hcuts, hlast⟩ := h.wellFormed_solves hs hleft hp hshape hvalid
  refine ⟨hcuts, hlast, fun row hrow => ?_, fun f hf => ?_⟩
  · rcases h.failed_cases with hnone | hattempt
    · cases hnone.symm.trans hrow
    · have hlost := Option.some.inj (hattempt.symm.trans hrow)
      exact Cut.derive_ne_missingRow _ _ hsettled.shaped.rows rfl row hlost
  · obtain ⟨hmem, hlt⟩ := hsettled.choice hf
    exact ⟨hmem, s.problem.integers_lt _ hmem, hround.isFinite_of_lt hlt⟩

def Sane (s : Search α β) (past : List (Visit α β)) (t : SearchTree α (Node α β)) : Prop :=
  (∀ v ∈ past, v.toRounds.WellFormed s.problem) ∧
    ∀ node ∈ t.frontier.nodes, ∀ p, s.storage.system? node.store = some p → p.Valid

theorem sane_start (hs : s.Lawful) : s.Sane [] s.start := by
  refine ⟨by simp, fun node hnode p hp => ?_⟩
  obtain rfl := eq_root_of_mem_start hnode
  obtain rfl : s.problem.lp = p := Option.some.inj (hs.root.symm.trans hp)
  exact s.problem.valid

theorem Sane.move [Scalar.FiniteUnits α] (hround : Scalar.RoundsFinite α) (hs : s.Lawful)
    {past : List (Visit α β)} {t t' : SearchTree α (Node α β)} {v : Visit α β}
    (h : s.Sane past t) (hmove : s.Move t node p t' v) :
    s.Sane (past ++ [v]) (t'.afterVisit v) := by
  obtain ⟨hpast, hopen⟩ := h
  have hvalid : p.Valid := hopen node (by simp [hmove.nodes]) p hmove.system
  have hv : v.toRounds.WellFormed s.problem :=
    hmove.visited.rounds.wellFormed hround hs le_rfl hmove.system hmove.shaped hvalid
  refine ⟨List.forall_mem_append.2 ⟨hpast, by simpa using hv⟩, fun other hother q hq => ?_⟩
  rw [SearchTree.nodes_afterVisit, List.mem_append] at hother
  rcases hother with hchild | hother
  · have hsettled := hmove.settled hs
    obtain ⟨f, b, q', hf, hb, hbound, hsystem, _⟩ :=
      hsettled.child hs hmove.visited.children hchild
    obtain rfl : q = q' := Option.some.inj (hq.symm.trans hsystem)
    have hfinite := Fractional.isFinite_bounds hround (hsettled.choice hf).2 hb
    exact hv.last.valid.withBound? hfinite hbound
  · exact hopen other (by simp [hmove.nodes, hother]) q hq

theorem exists_wellFormed [Scalar.FiniteUnits α] (hround : Scalar.RoundsFinite α)
    (hs : s.Lawful) :
    ∃ run, s.run? = some run ∧ run.WellFormed s.problem := by
  obtain ⟨run, hrun⟩ := exists_run hs
  have hfinal := move_induction hs (I := s.Sane)
    (fun _ _ _ _ _ _ hmove hsane => hsane.move hround hs hmove) hrun (sane_start hs)
  exact ⟨run, hrun, hfinal.1, run.trace?_eq⟩

end Search

/-- Both searches go through to their end under any settings. On the way they solve valid linear
programs only and leave the range of nothing they index. -/
theorem searches_wellFormed [Scalar.FiniteUnits α] (hround : Scalar.RoundsFinite α)
    (p : MixedProblem α) (settings : SearchSettings α) :
    (∃ run, (branchAndBound p settings).run? = some run ∧ run.WellFormed p) ∧
      ∃ run, (branchAndCut p settings).run? = some run ∧ run.WellFormed p :=
  ⟨Search.exists_wellFormed hround (Search.lawful_branchAndBound p settings),
    Search.exists_wellFormed hround (Search.lawful_branchAndCut p settings)⟩

/-- Minimize `-x - 3y` over whole `x`, `y` with `x + y ≤ 600` and `-30x + 7/2 y ≤ 15`. The best `y`
of its relaxation is out of range. -/
def outOfRange : MixedProblem Ranged where
  lp := ⟨[.number (-1), .number (-3)], [[.number (1 / 30), .number (1 / 30)],
    [.number (-30), .number (7 / 2)]], [.number 20, .number 15]⟩
  integers := workshop.integers
  valid := by decide +kernel
  integers_ne_nil := workshop.integers_ne_nil
  integers_sorted := workshop.integers_sorted
  integers_lt := workshop.integers_lt

theorem searches_wellFormed_workshop :
    (∃ run, (branchAndBound workshop { maxNodes := 3, tolerance := -1 }).run? = some run ∧
      run.WellFormed workshop ∧ run.visits.length = 3) ∧
    (∃ run, (branchAndCut workshop { maxNodes := 3 }).run? = some run ∧
      run.WellFormed workshop ∧ run.final.cutsAdded ≠ 0) ∧
    ∃ run, (branchAndCut outOfRange {}).run? = some run ∧ run.WellFormed outOfRange ∧
      ∃ v ∈ run.visits, v.verdict.status = .branched ∧ v.cuts.length = 1 ∧
        ∃ value ∈ v.last.result.x, Scalar.isFinite value = false := by
  obtain ⟨run, hrun, hwell⟩ := (searches_wellFormed Scalar.roundsFinite_rat workshop
    { maxNodes := 3, tolerance := -1 }).1
  obtain ⟨run', hrun', hwell'⟩ := (searches_wellFormed Scalar.roundsFinite_rat workshop
    { maxNodes := 3 }).2
  obtain ⟨lost, hlost, hwell''⟩ :=
    (searches_wellFormed Scalar.roundsFinite_ranged outOfRange {}).2
  have heval : ((branchAndBound workshop { maxNodes := 3, tolerance := -1 }).run?).any
      (fun run => decide (run.visits.length = 3)) = true := by decide +kernel
  have heval' : ((branchAndCut workshop { maxNodes := 3 }).run?).any
      (fun run => decide (run.final.cutsAdded ≠ 0)) = true := by decide +kernel
  have heval'' : ((branchAndCut outOfRange {}).run?).any (fun run => decide
      (∃ v ∈ run.visits, v.verdict.status = .branched ∧ v.cuts.length = 1 ∧
        ∃ value ∈ v.last.result.x, Scalar.isFinite value = false)) = true := by decide +kernel
  rw [hrun, Option.any_some, decide_eq_true_eq] at heval
  rw [hrun', Option.any_some, decide_eq_true_eq] at heval'
  rw [hlost, Option.any_some, decide_eq_true_eq] at heval''
  exact ⟨⟨run, hrun, hwell, heval⟩, ⟨run', hrun', hwell', heval'⟩, lost, hlost, hwell'', heval''⟩

end IntegerPrograms
