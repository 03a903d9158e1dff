import Mathlib
import IntegerPrograms.Proofs.Comparison
import IntegerPrograms.Proofs.Search.NodeLimit

/-!
The incumbents of a search, over any arithmetic that puts its numbers in a linear order. A node gets
as far as the test for whole values only if its relaxation beats the incumbent, so each whole point
that is found takes the place of the one before, and the last one is returned.
-/

set_option autoImplicit false

namespace IntegerPrograms

variable {α β : Type}

def findings (visits : List (Visit α β)) : List (Visit α β) :=
  visits.filter fun v => decide (v.verdict.status = .integral)

theorem findings_snoc (past : List (Visit α β)) (v : Visit α β) :
    findings (past ++ [v]) =
      if v.verdict.status = .integral then findings past ++ [v] else findings past := by
  by_cases hv : v.verdict.status = .integral <;> simp [findings, hv]

def Visit.candidate (v : Visit α β) : Candidate α := ⟨v.last.result.x, v.last.result.objective⟩

def LpResult.shown? (shown : α → α) (r : LpResult α) : Option α :=
  if r.status = .optimal then some (shown r.objective) else none

variable [Scalar α]

/-- No relaxation that a visit ended with was solved to an objective value that is no number. -/
def Numeric (visits : List (Visit α β)) : Prop :=
  ∀ v ∈ visits, v.last.result.status = .optimal → Scalar.IsNumber v.candidate.objective

instance (visits : List (Visit α β)) : Decidable (Numeric visits) :=
  inferInstanceAs (Decidable (∀ v ∈ visits, _ → _))

namespace Extended

def ReachedBy : Extended α → α → Prop
  | .infinity, v => Scalar.reachesInfinity v = true
  | .value bound, v => bound ≤ v

def BeatenBy : Extended α → α → Prop
  | .infinity, v => Scalar.belowInfinity v = true
  | .value bound, v => v < bound

end Extended

namespace Incumbent

variable {inc : Incumbent α} {v : α}

theorem dominates_iff : inc.dominates v = true ↔ inc.objective.ReachedBy v := by
  cases hb : inc.best <;> simp [dominates, objective, hb, Extended.ReachedBy]

theorem improvedBy_iff : inc.improvedBy v = true ↔ inc.objective.BeatenBy v := by
  cases hb : inc.best <;> simp [improvedBy, objective, hb, Extended.BeatenBy]

theorem improvedBy_of_not_dominates (horder : Scalar.OrdersNumbers α)
    (hinc : ∀ c, inc.best = some c → Scalar.IsNumber c.objective) (hv : Scalar.IsNumber v)
    (h : inc.dominates v = false) : inc.improvedBy v = true := by
  cases hb : inc.best with
  | none =>
    cases htop : (Scalar.infinity? : Option α) with
    | none => simp [improvedBy, hb, Scalar.belowInfinity, htop]
    | some top =>
      have hnot : ¬ top ≤ v := by simpa [dominates, hb, Scalar.reachesInfinity, htop] using h
      have hlt : v < top := (horder.lt_iff hv (horder.infinity htop)).2 hnot
      simpa [improvedBy, hb, Scalar.belowInfinity, htop] using hlt
  | some c =>
    have hnot : ¬ c.objective ≤ v := by simpa [dominates, hb] using h
    have hlt : v < c.objective := (horder.lt_iff hv (hinc c hb)).2 hnot
    simpa [improvedBy, hb] using hlt

end Incumbent

/-- The incumbent after some visits: the last whole point found, and each found below the ones
before. -/
structure Standing (past : List (Visit α β)) (inc : Incumbent α) : Prop where
  best : inc.best = (findings past).getLast?.map Visit.candidate
  updates : inc.updates = (findings past).length
  falling : (findings past).Pairwise fun u v => v.candidate.objective < u.candidate.objective
  solved : ∀ v ∈ findings past,
    v.last.result.status = .optimal ∧ Scalar.IsNumber v.candidate.objective

namespace Standing

variable {past : List (Visit α β)} {inc : Incumbent α} {v : Visit α β}

theorem isNumber_best (h : Standing past inc) :
    ∀ c, inc.best = some c → Scalar.IsNumber c.objective := by
  intro c hc
  rw [h.best, Option.map_eq_some_iff] at hc
  obtain ⟨v, hv, rfl⟩ := hc
  exact (h.solved v (List.mem_of_getLast? hv)).2

theorem lt_of_improvedBy (horder : Scalar.OrdersNumbers α) (h : Standing past inc) {a : α}
    (ha : Scalar.IsNumber a) (himp : inc.improvedBy a = true) :
    ∀ u ∈ findings past, a < u.candidate.objective := by
  intro u hu
  cases hlast : (findings past).getLast? with
  | none =>
    rw [List.getLast?_eq_none_iff] at hlast
    rw [hlast] at hu
    cases hu
  | some w =>
    have hw := (h.solved w (List.mem_of_getLast? hlast)).2
    have hlt : a < w.candidate.objective := by
      simpa [Incumbent.improvedBy, h.best, hlast] using himp
    obtain ⟨init, hinit⟩ := List.getLast?_eq_some_iff.1 hlast
    have hfalling := h.falling
    rw [hinit, List.pairwise_append] at hfalling
    have hu' := hu
    rw [hinit, List.mem_append, List.mem_singleton] at hu'
    rcases hu' with hu' | rfl
    · have hbefore := hfalling.2.2 u hu' w (List.mem_singleton_self w)
      exact horder.lt_trans ha hw (h.solved u hu).2 hlt hbefore
    · exact hlt

theorem found (horder : Scalar.OrdersNumbers α) (h : Standing past inc)
    (hv : v.verdict.status = .integral) (ho : v.last.result.status = .optimal)
    (hnum : Scalar.IsNumber v.candidate.objective)
    (himp : inc.improvedBy v.candidate.objective = true) :
    Standing (past ++ [v]) (inc.update v.candidate.x v.candidate.objective) := by
  have hmore : findings (past ++ [v]) = findings past ++ [v] := by rw [findings_snoc, if_pos hv]
  refine ⟨?_, ?_, ?_, ?_⟩
  · rw [hmore, Incumbent.best_update, if_pos himp, List.getLast?_concat]
    rfl
  · simp [hmore, Incumbent.update, himp, h.updates]
  · rw [hmore, List.pairwise_append]
    refine ⟨h.falling, List.pairwise_singleton .., fun u hu w hw => ?_⟩
    rw [List.mem_singleton.1 hw]
    exact h.lt_of_improvedBy horder hnum himp u hu
  · rw [hmore]
    exact List.forall_mem_append.2 ⟨h.solved, List.forall_mem_singleton.2 ⟨ho, hnum⟩⟩

theorem unchanged (h : Standing past inc) (hv : v.verdict.status ≠ .integral) :
    Standing (past ++ [v]) inc := by
  have hsame : findings (past ++ [v]) = findings past := by rw [findings_snoc, if_neg hv]
  exact ⟨hsame ▸ h.best, hsame ▸ h.updates, hsame ▸ h.falling, hsame ▸ h.solved⟩

end Standing

namespace Search

variable {s : Search α β} {t t' : SearchTree α (Node α β)} {node : Node α β} {p : Problem α}
  {past : List (Visit α β)} {v : Visit α β} {run : SearchRun α β} {left : Nat}

theorem Move.standing (horder : Scalar.OrdersNumbers α) (hs : s.Lawful)
    (hmove : s.Move t node p t' v) (hnum : Numeric (past ++ [v]))
    (h : Standing past t.incumbent) : Standing (past ++ [v]) (t'.afterVisit v).incumbent := by
  have hj := (hmove.settled hs).judged
  rw [SearchTree.incumbent_afterVisit, hmove.incumbent]
  cases hv : v.verdict with
  | integral improves =>
    rw [hv] at hj
    cases hj with
    | integral ho hd hsel =>
      have himp := Incumbent.improvedBy_of_not_dominates horder h.isNumber_best
        (hnum v (by simp) ho) hd
      exact h.found horder (by rw [hv]; rfl) ho (hnum v (by simp) ho) himp
  | _ => exact h.unchanged (by simp [hv, Verdict.status])

theorem standing (horder : Scalar.OrdersNumbers α) (hs : s.Lawful)
    (hrun : s.explore? left s.start = some run) (hnum : Numeric run.visits) :
    Standing run.visits run.final.incumbent := by
  refine move_induction hs (I := fun past t => Numeric past → Standing past t.incumbent)
    ?_ hrun (fun _ => ⟨rfl, rfl, .nil, by simp [findings]⟩) hnum
  intro past t node p t' v hmove ih hnum
  exact hmove.standing horder hs hnum (ih fun u hu => hnum u (List.mem_append_left _ hu))

/-- Each visit starts from where the search stands if its limit is the number of visits before. -/
theorem exists_moment (hs : s.Lawful) (hrun : s.run? = some run) :
    ∀ before v after, run.visits = before ++ v :: after →
      ∃ t node p t', s.explore? before.length s.start = some ⟨before, t⟩ ∧
        s.Move t node p t' v := by
  refine (move_induction hs (I := fun past t =>
    s.explore? past.length s.start = some ⟨past, t⟩ ∧ ∀ before v after,
      past = before ++ v :: after → ∃ t node p t',
        s.explore? before.length s.start = some ⟨before, t⟩ ∧ s.Move t node p t' v)
    ?_ hrun ⟨rfl, by simp⟩).2
  intro past t node p t' v hmove ⟨hreached, hpast⟩
  constructor
  · have hvisit := visit?_eq_some_iff.2 hmove.visited
    rw [List.length_append, List.length_singleton, explore?_add, hreached]
    simp [explore?, hmove.pop, hvisit]
  · intro before w after hsplit
    rcases List.eq_nil_or_concat' after with rfl | ⟨init, z, rfl⟩
    · obtain ⟨rfl, hw⟩ := List.append_inj' hsplit rfl
      obtain rfl : v = w := by simpa using hw
      exact ⟨t, node, p, t', hreached, hmove⟩
    · rw [← List.cons_append, ← List.append_assoc] at hsplit
      exact hpast before w init (List.append_inj' hsplit rfl).1

structure Improves (s : Search α β) (shown : α → α) (run : SearchRun α β) : Prop where
  falling : (findings run.visits).Pairwise fun u v =>
    v.candidate.objective < u.candidate.objective
  records : (findings run.visits).Pairwise fun u v => ∃ a b,
    u.last.result.shown? shown = some a ∧ v.last.result.shown? shown = some b ∧ b ≤ a
  updates : run.solution.incumbent.updates = (findings run.visits).length
  point : run.solution.incumbent.x = (findings run.visits).getLast?.elim [] (·.candidate.x)
  objective : run.solution.incumbent.objective =
    (findings run.visits).getLast?.elim .infinity fun v => .value v.candidate.objective
  /-- A visit compares with the incumbent of the search that has made the visits before it. -/
  moments : ∀ before v after, run.visits = before ++ v :: after →
    ∃ t, s.explore? before.length s.start = some ⟨before, t⟩ ∧
      (v.verdict.status = .dominated →
        t.incumbent.objective.ReachedBy v.candidate.objective) ∧
      (v.verdict.status = .branched → t.incumbent.objective.BeatenBy v.candidate.objective)

theorem Move.compared (horder : Scalar.OrdersNumbers α) (hs : s.Lawful)
    (hmove : s.Move t node p t' v) (h : Standing past t.incumbent)
    (hnum : v.last.result.status = .optimal → Scalar.IsNumber v.candidate.objective) :
    (v.verdict.status = .dominated → t.incumbent.objective.ReachedBy v.candidate.objective) ∧
      (v.verdict.status = .branched →
        t.incumbent.objective.BeatenBy v.candidate.objective) := by
  have hj := (hmove.settled hs).judged
  generalize v.verdict = verdict at hj
  cases hj with
  | dominated ho hd => exact ⟨fun _ => Incumbent.dominates_iff.1 hd, by simp [Verdict.status]⟩
  | fractional f ho hd hsel =>
    have himp := Incumbent.improvedBy_of_not_dominates horder h.isNumber_best (hnum ho) hd
    exact ⟨by simp [Verdict.status], fun _ => Incumbent.improvedBy_iff.1 himp⟩
  | _ => simp [Verdict.status]

theorem improves (horder : Scalar.OrdersNumbers α) (shown : α → α)
    (hshown : ∀ {a b : α}, Scalar.IsNumber a → Scalar.IsNumber b → a ≤ b → shown a ≤ shown b)
    (hs : s.Lawful) (hrun : s.run? = some run) (hnum : Numeric run.visits) :
    s.Improves shown run := by
  have h := standing horder hs hrun hnum
  refine ⟨h.falling, ?_, h.updates, ?_, ?_, ?_⟩
  · refine h.falling.imp_of_mem fun {u v} hu hv hlt => ?_
    obtain ⟨hou, hu⟩ := h.solved u hu
    obtain ⟨hov, hv⟩ := h.solved v hv
    exact ⟨_, _, if_pos hou, if_pos hov, hshown hv hu (horder.le_of_lt hv hu hlt)⟩
  · change run.final.incumbent.x = _
    rw [Incumbent.x, h.best]
    cases (findings run.visits).getLast? <;> rfl
  · change run.final.incumbent.objective = _
    rw [Incumbent.objective, h.best]
    cases (findings run.visits).getLast? <;> rfl
  · intro before v after hsplit
    obtain ⟨t, node, p, t', hreached, hmove⟩ := exists_moment hs hrun before v after hsplit
    have hbefore : Numeric before := fun u hu => hnum u (by simp [hsplit, hu])
    have hv := hnum v (by simp [hsplit])
    exact ⟨t, hreached, hmove.compared horder hs (standing horder hs hreached hbefore) hv⟩

end Search

namespace Report

theorem found_ofVisit {visits : List (Visit Float β)} :
    withStatus .integral (visits.map Record.ofVisit) = (findings visits).map Record.ofVisit :=
  List.filter_map

/-- The records of whole points. The values that they were rounded from fall, and the last of them
is of the point that is returned. -/
structure Improves (run : SearchRun Float β) (order : List Record) : Prop where
  falling : (withStatus .integral order).Pairwise fun q r => ∃ a b,
    q.objective = some (roundTo a 4) ∧ r.objective = some (roundTo b 4) ∧ b < a
  shown : (∀ {a b : Float}, Scalar.IsNumber a → Scalar.IsNumber b → a ≤ b →
      roundTo a 4 ≤ roundTo b 4) →
    (withStatus .integral order).Pairwise fun q r => ∃ a b,
      q.objective = some a ∧ r.objective = some b ∧ b ≤ a
  updates : run.solution.incumbent.updates = (withStatus .integral order).length
  last : ∀ r ∈ (withStatus .integral order).getLast?, ∃ v,
    run.solution.incumbent.objective = .value v ∧ r.objective = some (roundTo v 4) ∧
      r.solution = point run.solution.incumbent.x
  unfound : withStatus .integral order = [] →
    run.solution.incumbent.x = [] ∧ run.solution.incumbent.objective = .infinity

theorem improves {run : SearchRun Float β} (h : Standing run.visits run.final.incumbent) :
    Improves run (run.visits.map Record.ofVisit) := by
  have hobjective {v : Visit Float β} (hv : v ∈ findings run.visits) :
      (Record.ofVisit v).objective = some (roundTo v.candidate.objective 4) :=
    if_pos (h.solved v hv).1
  have hpoint {v : Visit Float β} (hv : v ∈ findings run.visits) :
      (Record.ofVisit v).solution = point v.candidate.x :=
    if_pos (h.solved v hv).1
  constructor <;> rw [found_ofVisit]
  · rw [List.pairwise_map]
    exact h.falling.imp_of_mem fun hu hv hlt => ⟨_, _, hobjective hu, hobjective hv, hlt⟩
  · intro hround
    rw [List.pairwise_map]
    refine h.falling.imp_of_mem fun {u v} hu hv hlt => ?_
    have hnum := (h.solved u hu).2
    have hnum' := (h.solved v hv).2
    have hle := Scalar.ordersNumbers_float.le_of_lt hnum' hnum hlt
    exact ⟨_, _, hobjective hu, hobjective hv, hround hnum' hnum hle⟩
  · rw [List.length_map]
    exact h.updates
  · intro r hr
    rw [List.getLast?_map, Option.mem_map] at hr
    obtain ⟨v, hv, rfl⟩ := hr
    have hmem := List.mem_of_getLast? hv
    have hbest : run.final.incumbent.best = some v.candidate := by rw [h.best, hv, Option.map_some]
    refine ⟨v.candidate.objective, ?_, hobjective hmem, ?_⟩
    · exact congrArg (Option.elim · _ _) hbest
    · rw [hpoint hmem]
      exact congrArg point (congrArg (Option.elim · _ _) hbest.symm)
  · intro hnone
    rw [List.map_eq_nil_iff] at hnone
    have hbest : run.final.incumbent.best = none := by
      rw [h.best, hnone]
      rfl
    exact ⟨congrArg (Option.elim · _ _) hbest, congrArg (Option.elim · _ _) hbest⟩

end Report

/-- Both searches improve their incumbent with every whole point they find and return the last one,
provided that no relaxation they solve has an objective value that is no number. In double precision
their records show it. -/
theorem searches_improve :
    (∀ {α : Type} [Scalar α], Scalar.OrdersNumbers α → ∀ shown : α → α,
      (∀ {a b : α}, Scalar.IsNumber a → Scalar.IsNumber b → a ≤ b → shown a ≤ shown b) →
      ∀ (p : MixedProblem α) (settings : SearchSettings α),
        (∃ run, (branchAndBound p settings).run? = some run ∧ (Numeric run.visits →
          (branchAndBound p settings).Improves shown run)) ∧
        ∃ run, (branchAndCut p settings).run? = some run ∧ (Numeric run.visits →
          (branchAndCut p settings).Improves shown run)) ∧
    ∀ (p : MixedProblem Float) (settings : SearchSettings Float),
      (∃ run, (branchAndBound p settings).run? = some run ∧ (Numeric run.visits →
        Report.Improves run ((Outcome.visitOrder run).map Report.NodeRecord.shared))) ∧
      ∃ run, (branchAndCut p settings).run? = some run ∧ (Numeric run.visits →
        Report.Improves run ((Outcome.cutVisitOrder run).map Report.CutNodeRecord.shared)) := by
  constructor
  · intro α _ horder shown hshown p settings
    have hbound := Search.lawful_branchAndBound p settings
    have hcut := Search.lawful_branchAndCut p settings
    obtain ⟨run, hrun⟩ := Search.exists_run hbound
    obtain ⟨run', hrun'⟩ := Search.exists_run hcut
    exact ⟨⟨run, hrun, Search.improves horder shown hshown hbound hrun⟩, run', hrun',
      Search.improves horder shown hshown hcut hrun'⟩
  · intro p settings
    have hbound := Search.lawful_branchAndBound p settings
    have hcut := Search.lawful_branchAndCut p settings
    obtain ⟨run, hrun⟩ := Search.exists_run hbound
    obtain ⟨run', hrun'⟩ := Search.exists_run hcut
    refine ⟨⟨run, hrun, fun hnum => ?_⟩, run', hrun', fun hnum => ?_⟩
    · rw [Outcome.visitOrder, List.map_map]
      exact Report.improves (Search.standing Scalar.ordersNumbers_float hbound hrun hnum)
    · rw [Outcome.cutVisitOrder, List.map_map]
      exact Report.improves (Search.standing Scalar.ordersNumbers_float hcut hrun' hnum)

theorem Scalar.round_mono_rat {a b : ℚ} (h : a ≤ b) : Scalar.round a ≤ Scalar.round b := by
  change (if a.num < 0 then -((⌊-a + mkRat 1 2⌋ : ℤ) : ℚ) else ((⌊a + mkRat 1 2⌋ : ℤ) : ℚ)) ≤
    if b.num < 0 then -((⌊-b + mkRat 1 2⌋ : ℤ) : ℚ) else ((⌊b + mkRat 1 2⌋ : ℤ) : ℚ)
  have half : (0 : ℚ) ≤ mkRat 1 2 := by decide +kernel
  have hnonneg (v : ℚ) (hv : 0 ≤ v) : (0 : ℚ) ≤ ((⌊v⌋ : ℤ) : ℚ) :=
    Int.cast_nonneg (Int.floor_nonneg.2 hv)
  simp only [Rat.num_neg]
  split_ifs with ha hb hb
  · exact neg_le_neg (Int.cast_le.2 (Int.floor_le_floor (by linarith)))
  · have hleft := hnonneg (-a + mkRat 1 2) (by linarith)
    have hright := hnonneg (b + mkRat 1 2) (by linarith)
    linarith
  · linarith
  · exact Int.cast_le.2 (Int.floor_le_floor (by linarith))

def fourDecimals (v : ℚ) : ℚ := Scalar.round (v * 10000) / 10000 + 0

theorem searches_improve_workshop :
    (∃ run, (branchAndBound workshop {}).run? = some run ∧ Numeric run.visits ∧
      (branchAndBound workshop {}).Improves fourDecimals run ∧
      (findings run.visits).map (·.candidate.objective) = [-19, -20]) ∧
    ∃ run, (branchAndCut workshop {}).run? = some run ∧ Numeric run.visits ∧
      (branchAndCut workshop {}).Improves fourDecimals run ∧
      (findings run.visits).map (·.candidate.objective) = [-20] := by
  have hshown {a b : ℚ} (h : a ≤ b) : fourDecimals a ≤ fourDecimals b := by
    have hround : Scalar.round (a * 10000) ≤ Scalar.round (b * 10000) :=
      Scalar.round_mono_rat (by linarith)
    rw [fourDecimals, fourDecimals]
    linarith
  obtain ⟨⟨run, hrun, himproves⟩, run', hrun', himproves'⟩ :=
    searches_improve.1 Scalar.ordersNumbers_rat fourDecimals (fun _ _ => hshown) workshop {}
  have heval : ((branchAndBound workshop {}).run?).any (fun run => decide (Numeric run.visits ∧
      (findings run.visits).map (·.candidate.objective) = [-19, -20])) = true := by
    decide +kernel
  have heval' : ((branchAndCut workshop {}).run?).any (fun run => decide (Numeric run.visits ∧
      (findings run.visits).map (·.candidate.objective) = [-20])) = true := by
    decide +kernel
  rw [hrun, Option.any_some, decide_eq_true_eq] at heval
  rw [hrun', Option.any_some, decide_eq_true_eq] at heval'
  exact ⟨⟨run, hrun, heval.1, himproves heval.1, heval.2⟩, run', hrun', heval'.1,
    himproves' heval'.1, heval'.2⟩

end IntegerPrograms
