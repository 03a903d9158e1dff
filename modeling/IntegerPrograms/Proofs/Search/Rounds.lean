import Mathlib
import IntegerPrograms.Proofs.Cut.Gomory
import IntegerPrograms.Proofs.Search.Branching
import IntegerPrograms.Proofs.Search.Visits
import IntegerPrograms.Proofs.Simplex.Run

/-!
Visits over any arithmetic: everything that the rounds and the children of a node can be. The
systems of a search keep the shape of a linear program over the variables of the problem, so no
visit fails and every search goes through to its end.
-/

set_option autoImplicit false

namespace IntegerPrograms

variable {α β : Type} [Scalar α]

theorem Cut.Attempt.eq_derived_of_usable? {a : Cut.Attempt α} {cut : Cut α} {basic : Nat}
    (h : a.usable? = some (cut, basic)) : a = .derived cut basic := by
  cases a with
  | derived cut' basic' =>
    simp only [usable?, Option.ite_none_right_eq_some, Option.some.injEq, Prod.mk.injEq] at h
    rw [h.2.1, h.2.2]
  | _ => cases h

theorem Bound.exists_row? (b : Bound α) {n : Nat} (h : b.var < n) :
    ∃ row rhs, b.row? n = some (row, rhs) ∧ row.length = n := by
  rw [row?, if_pos h]
  cases b.side with
  | upper => exact ⟨_, _, rfl, length_unitRow ..⟩
  | lower => exact ⟨_, _, rfl, length_unitRow ..⟩

theorem Problem.Shaped.exists_withBound? {p : Problem α} {n : Nat} (h : p.Shaped n) {b : Bound α}
    (hb : b.var < n) : ∃ q, p.withBound? b = some q ∧ q.Shaped n := by
  obtain ⟨row, rhs, hrow, hlen⟩ := b.exists_row? hb
  refine ⟨p.withRow row rhs, ?_, h.withRow hlen rhs⟩
  rw [withBound?, h.vars, hrow]
  rfl

namespace Search

variable {s : Search α β} {inc : Incumbent α} {left : Nat} {store : β} {p : Problem α}
  {r : Rounds α β} {node : Node α β}

/-- A storage that does what it is told: it starts from the problem and appends bounds and, if the
search adds any, cuts. -/
structure Lawful (s : Search α β) : Prop where
  root : s.storage.system? s.storage.root = some s.problem.lp
  bound : ∀ {store p b q}, s.storage.system? store = some p → p.withBound? b = some q →
    ∃ store', s.storage.bound? store b = some store' ∧ s.storage.system? store' = some q
  cut : 0 < s.cutLimit → ∀ {store p} (cut : Cut α), s.storage.system? store = some p →
    s.storage.system? (s.storage.cut store cut) = some (p.withRow cut.coefs cut.rhs)

theorem lawful_branchAndBound (p : MixedProblem α) (settings : SearchSettings α) :
    (branchAndBound p settings).Lawful := by
  refine ⟨rfl, fun {store q b r} hq hr => ⟨store ++ [b], rfl, ?_⟩, fun h => absurd h (lt_irrefl 0)⟩
  change p.lp.withBounds? (store ++ [b]) = some r
  change p.lp.withBounds? store = some q at hq
  rw [Problem.withBounds?_append, hq]
  exact hr

theorem lawful_branchAndCut (p : MixedProblem α) (settings : SearchSettings α) :
    (branchAndCut p settings).Lawful := by
  refine ⟨rfl, fun {store q b r} hq hr => ⟨r, ?_, rfl⟩, fun _ {store q} cut hq => ?_⟩
  · obtain rfl : store = q := Option.some.inj hq
    exact hr
  · obtain rfl : store = q := Option.some.inj hq
    rfl

def attempt (s : Search α β) (solved : Solved α) : Cut.Attempt α :=
  Cut.derive solved.run.final s.problem.integers solved.problem.A solved.problem.b

/-- Everything the rounds at a store can be, with so many cuts left to add. -/
inductive Rounding (s : Search α β) (inc : Incumbent α) : Nat → β → Rounds α β → Prop
  | fathomed {left : Nat} {store : β} {solved : Solved α} {verdict : Verdict α}
      (hrelax : s.relax? inc store = some (solved, verdict))
      (hv : ∀ f, verdict ≠ .fractional f) :
      Rounding s inc left store ⟨[], solved, verdict, none, store⟩
  | capped {store : β} {solved : Solved α} {f : Fractional α}
      (hrelax : s.relax? inc store = some (solved, .fractional f)) :
      Rounding s inc 0 store ⟨[], solved, .fractional f, none, store⟩
  | uncut {left : Nat} {store : β} {solved : Solved α} {f : Fractional α}
      (hrelax : s.relax? inc store = some (solved, .fractional f))
      (ha : (s.attempt solved).usable? = none) :
      Rounding s inc (left + 1) store
        ⟨[], solved, .fractional f, some (s.attempt solved), store⟩
  | another {left : Nat} {store : β} {solved : Solved α} {f : Fractional α} {cut : Cut α}
      {basic : Nat} {rest : Rounds α β}
      (hrelax : s.relax? inc store = some (solved, .fractional f))
      (ha : (s.attempt solved).usable? = some (cut, basic))
      (hrest : Rounding s inc left (s.storage.cut store cut) rest) :
      Rounding s inc (left + 1) store { rest with cuts := ⟨solved, cut, basic⟩ :: rest.cuts }

theorem Rounding.of_rounds? (h : s.rounds? inc left store = some r) :
    s.Rounding inc left store r := by
  induction left generalizing store r with
  | zero =>
    simp only [rounds?, Option.bind_eq_bind, Option.bind_eq_some_iff] at h
    obtain ⟨⟨solved, verdict⟩, hrelax, he⟩ := h
    obtain rfl : ⟨[], solved, verdict, none, store⟩ = r := by simpa using he
    cases verdict with
    | fractional f => exact .capped hrelax
    | _ => exact .fathomed hrelax (by simp)
  | succ left ih =>
    simp only [rounds?, Option.bind_eq_bind, Option.bind_eq_some_iff] at h
    obtain ⟨⟨solved, verdict⟩, hrelax, h⟩ := h
    cases verdict with
    | fractional f =>
      cases ha : (s.attempt solved).usable? with
      | none =>
        have hr : some ⟨[], solved, .fractional f, some (s.attempt solved), store⟩ = some r := by
          rw [attempt] at ha
          simpa [ha, attempt] using h
        obtain rfl := Option.some.inj hr
        exact .uncut hrelax ha
      | some result =>
        obtain ⟨cut, basic⟩ := result
        have hr : ∃ rest, s.rounds? inc left (s.storage.cut store cut) = some rest ∧
            { rest with cuts := ⟨solved, cut, basic⟩ :: rest.cuts } = r := by
          rw [attempt] at ha
          simpa [ha, Option.bind_eq_some_iff] using h
        obtain ⟨rest, hrest, rfl⟩ := hr
        exact .another hrelax ha (ih hrest)
    | _ =>
      obtain rfl := Option.some.inj h
      exact .fathomed hrelax (by simp)

theorem Rounding.rounds?_eq (h : s.Rounding inc left store r) :
    s.rounds? inc left store = some r := by
  induction h with
  | @fathomed left store solved verdict hrelax hv =>
    cases left with
    | zero => simp [rounds?, hrelax]
    | succ left =>
      cases verdict with
      | fractional f => exact absurd rfl (hv f)
      | _ => simp [rounds?, hrelax]
  | capped hrelax => simp [rounds?, hrelax]
  | uncut hrelax ha =>
    simp only [attempt] at ha
    simp [rounds?, hrelax, ha, attempt]
  | another hrelax ha _ ih =>
    simp only [attempt] at ha
    simp [rounds?, hrelax, ha, ih]

theorem relax?_eq {n : Nat} (hp : s.storage.system? store = some p) (hshape : p.Shaped n) :
    s.relax? inc store = (s.problem.judge? s.settings inc (p.solved s.settings.lp).result).map
      (p.solved s.settings.lp, ·) := by
  simp only [relax?, hp, Problem.solve?_shaped hshape, Option.bind_eq_bind, Option.bind_some]
  cases s.problem.judge? s.settings inc (p.solved s.settings.lp).result <;> rfl

theorem exists_verdict (s : Search α β) (inc : Incumbent α)
    (h : p.Shaped s.problem.lp.numVars) :
    ∃ verdict, s.problem.judge? s.settings inc (p.solved s.settings.lp).result = some verdict := by
  have hx : (p.solved s.settings.lp).result.x.length = s.problem.lp.numVars :=
    List.length_ofFn.trans h.vars
  refine s.problem.exists_judge? s.settings inc _ ?_
  rcases s.problem.select?_spec s.settings.branching hx s.settings.tolerance with
    ⟨hsel, _⟩ | ⟨f, hsel, _⟩
  · exact ⟨_, hsel⟩
  · exact ⟨_, hsel⟩

theorem solved_of_relax? {n : Nat} {solved : Solved α} {verdict : Verdict α}
    (hp : s.storage.system? store = some p) (hshape : p.Shaped n)
    (h : s.relax? inc store = some (solved, verdict)) :
    solved = p.solved s.settings.lp ∧ Judged s.problem s.settings inc solved.result verdict := by
  rw [relax?_eq hp hshape] at h
  obtain ⟨verdict', hj, he⟩ := Option.map_eq_some_iff.1 h
  obtain ⟨rfl, rfl⟩ := Prod.mk.inj he
  exact ⟨rfl, MixedProblem.judged_of_judge? hj⟩

theorem optimal_of_relax? {solved : Solved α} {f : Fractional α}
    (h : s.relax? inc store = some (solved, .fractional f)) : solved.result.status = .optimal := by
  simp only [relax?, Option.bind_eq_bind, Option.bind_eq_some_iff] at h
  obtain ⟨_, _, solved', _, verdict, hj, he⟩ := h
  obtain ⟨rfl, hv⟩ : solved' = solved ∧ verdict = .fractional f := by simpa using he
  exact (MixedProblem.judged_of_judge? hj).optimal hv

theorem Rounding.optimal_cuts (h : s.Rounding inc left store r) :
    ∀ c ∈ r.cuts, c.solved.result.status = .optimal := by
  induction h with
  | another hrelax _ _ ih => exact List.forall_mem_cons.2 ⟨optimal_of_relax? hrelax, ih⟩
  | _ => simp

theorem length_cut {n : Nat} {solved : Solved α} {cut : Cut α} {basic : Nat}
    (hshape : solved.problem.Shaped n) (h : (s.attempt solved).usable? = some (cut, basic)) :
    cut.coefs.length = n :=
  (Cut.length_coefs (Cut.Attempt.eq_derived_of_usable? h)).trans hshape.vars

theorem exists_rounds? (hs : s.Lawful) (inc : Incumbent α) (hleft : left ≤ s.cutLimit)
    (hp : s.storage.system? store = some p) (hshape : p.Shaped s.problem.lp.numVars) :
    ∃ r, s.rounds? inc left store = some r := by
  induction left generalizing store p with
  | zero =>
    obtain ⟨verdict, hj⟩ := exists_verdict s inc hshape
    exact ⟨_, by simp [rounds?, relax?_eq hp hshape, hj]; rfl⟩
  | succ left ih =>
    obtain ⟨verdict, hj⟩ := exists_verdict s inc hshape
    have hrelax : s.relax? inc store = some (p.solved s.settings.lp, verdict) := by
      rw [relax?_eq hp hshape, hj]
      rfl
    by_cases hv : ∃ f, verdict = .fractional f
    · obtain ⟨f, rfl⟩ := hv
      cases ha : (s.attempt (p.solved s.settings.lp)).usable? with
      | none => exact ⟨_, (Rounding.uncut hrelax ha).rounds?_eq⟩
      | some result =>
        obtain ⟨cut, basic⟩ := result
        have hlen : cut.coefs.length = s.problem.lp.numVars := length_cut hshape ha
        obtain ⟨rest, hrest⟩ := ih (Nat.le_of_succ_le hleft)
          (hs.cut (Nat.zero_lt_of_lt hleft) cut hp) (hshape.withRow hlen cut.rhs)
        exact ⟨_, (Rounding.another hrelax ha (.of_rounds? hrest)).rounds?_eq⟩
    · exact ⟨_, (Rounding.fathomed hrelax (not_exists.1 hv)).rounds?_eq⟩

/-- Along the rounds at a node: what holds of the last relaxation, and passes back over every cut,
holds of them all. -/
theorem Rounding.solved_induction (hs : s.Lawful) {motive : Problem α → Rounds α β → Prop}
    (hlast : ∀ p store verdict failed, s.storage.system? store = some p →
      p.Shaped s.problem.lp.numVars →
      Judged s.problem s.settings inc (p.solved s.settings.lp).result verdict →
      motive p ⟨[], p.solved s.settings.lp, verdict, failed, store⟩)
    (hcut : ∀ p cut basic rest, cut.coefs.length = p.numVars →
      (s.attempt (p.solved s.settings.lp)).usable? = some (cut, basic) →
      motive (p.withRow cut.coefs cut.rhs) rest →
      motive p { rest with cuts := ⟨p.solved s.settings.lp, cut, basic⟩ :: rest.cuts })
    (h : s.Rounding inc left store r) (hleft : left ≤ s.cutLimit)
    (hp : s.storage.system? store = some p) (hshape : p.Shaped s.problem.lp.numVars) :
    motive p r := by
  induction h generalizing p with
  | another hrelax ha _ ih =>
    obtain ⟨rfl, _⟩ := solved_of_relax? hp hshape hrelax
    have hlen := length_cut hshape ha
    refine hcut p _ _ _ (hlen.trans hshape.vars.symm) ha (ih (Nat.le_of_succ_le hleft) ?_ ?_)
    · exact hs.cut (Nat.zero_lt_of_lt hleft) _ hp
    · exact hshape.withRow hlen _
  | fathomed hrelax _ =>
    obtain ⟨rfl, hj⟩ := solved_of_relax? hp hshape hrelax
    exact hlast p _ _ _ hp hshape hj
  | capped hrelax =>
    obtain ⟨rfl, hj⟩ := solved_of_relax? hp hshape hrelax
    exact hlast p _ _ _ hp hshape hj
  | uncut hrelax _ =>
    obtain ⟨rfl, hj⟩ := solved_of_relax? hp hshape hrelax
    exact hlast p _ _ _ hp hshape hj

/-- The last relaxation of a node is that of the system the store has come to. -/
structure Settled (s : Search α β) (inc : Incumbent α) (r : Rounds α β) : Prop where
  stored : s.storage.system? r.store = some r.last.problem
  shaped : r.last.problem.Shaped s.problem.lp.numVars
  solved : r.last = r.last.problem.solved s.settings.lp
  judged : Judged s.problem s.settings inc r.last.result r.verdict

theorem Rounding.settled (hs : s.Lawful) (h : s.Rounding inc left store r)
    (hleft : left ≤ s.cutLimit) (hp : s.storage.system? store = some p)
    (hshape : p.Shaped s.problem.lp.numVars) : s.Settled inc r := by
  refine solved_induction hs (motive := fun _ r => s.Settled inc r) ?_ ?_ h hleft hp hshape
  · intro p store verdict failed hp hshape hj
    exact ⟨hp, hshape, rfl, hj⟩
  · intro p cut basic rest _ _ hrest
    exact ⟨hrest.stored, hrest.shaped, hrest.solved, hrest.judged⟩

theorem Settled.length_x (h : s.Settled inc r) :
    r.last.result.x.length = s.problem.lp.numVars := by
  rw [h.solved]
  exact List.length_ofFn.trans h.shaped.vars

theorem Settled.select?_eq (h : s.Settled inc r) {f : Fractional α}
    (hf : r.verdict = .fractional f) :
    s.problem.select? s.settings.branching r.last.result.x s.settings.tolerance =
      some (some f) := by
  have hj := h.judged
  rw [hf] at hj
  cases hj with
  | fractional _ _ _ hs => exact hs

theorem Settled.choice (h : s.Settled inc r) {f : Fractional α} (hf : r.verdict = .fractional f) :
    f.var ∈ s.problem.integers ∧ s.settings.tolerance < fractionality f.value := by
  obtain ⟨hmem, _, hlt⟩ := MixedProblem.select?_some (h.select?_eq hf)
  exact ⟨hmem, hlt⟩

theorem Settled.optimal (h : s.Settled inc r) {f : Fractional α} (hf : r.verdict = .fractional f) :
    r.last.result.status = .optimal :=
  h.judged.optimal hf

theorem Settled.bound (hs : s.Lawful) (h : s.Settled inc r) {f : Fractional α}
    (hf : r.verdict = .fractional f) {b : Bound α} (hb : b.var = f.var) :
    ∃ store q, s.storage.bound? r.store b = some store ∧ r.last.problem.withBound? b = some q ∧
      s.storage.system? store = some q ∧ q.Shaped s.problem.lp.numVars := by
  have hvar : b.var < s.problem.lp.numVars := hb ▸ s.problem.integers_lt _ (h.choice hf).1
  obtain ⟨q, hq, hshape⟩ := h.shaped.exists_withBound? hvar
  obtain ⟨store, hstore, hsystem⟩ := hs.bound h.stored hq
  exact ⟨store, q, hstore, hq, hsystem, hshape⟩

/-- Everything the children of a node can be: two that the bounds of the choice tell apart, or none
of a node that was fathomed. -/
inductive Offspring (s : Search α β) (node : Node α β) (r : Rounds α β) (id : Nat) :
    List (Node α β) → Prop
  | split {f : Fractional α} {down up : β} (hv : r.verdict = .fractional f)
      (hdown : s.storage.bound? r.store f.down = some down)
      (hup : s.storage.bound? r.store f.up = some up) :
      Offspring s node r id [node.child id r.last.result.objective down,
        node.child (id + 1) r.last.result.objective up]
  | none (hv : ∀ f, r.verdict ≠ .fractional f) : Offspring s node r id []

theorem Offspring.of_children? {id : Nat} {children : List (Node α β)}
    (h : s.children? node r (id, id + 1) = some children) : s.Offspring node r id children := by
  cases hv : r.verdict with
  | fractional f =>
    simp only [children?, hv, Option.bind_eq_bind, Option.bind_eq_some_iff] at h
    obtain ⟨down, hdown, up, hup, he⟩ := h
    obtain rfl := Option.some.inj he
    exact .split hv hdown hup
  | _ =>
    obtain rfl : [] = children := by simpa [children?, hv] using h
    exact .none (by simp [hv])

theorem Offspring.children?_eq {id : Nat} {children : List (Node α β)}
    (h : s.Offspring node r id children) : s.children? node r (id, id + 1) = some children := by
  cases h with
  | split hv hdown hup => simp [children?, hv, hdown, hup]
  | none hv =>
    cases hv' : r.verdict with
    | fractional f => exact absurd hv' (hv f)
    | _ => simp [children?, hv']

structure Visited (s : Search α β) (t : SearchTree α (Node α β)) (node : Node α β)
    (v : Visit α β) : Prop where
  node_eq : v.node = node
  rounds : s.Rounding t.incumbent s.cutLimit node.store v.toRounds
  children : s.Offspring node v.toRounds t.nextId v.children

theorem visit?_eq_some_iff {t : SearchTree α (Node α β)} {v : Visit α β} :
    s.visit? t node = some v ↔ s.Visited t node v := by
  constructor
  · intro h
    simp only [visit?, Option.bind_eq_bind, Option.bind_eq_some_iff] at h
    obtain ⟨r, hr, children, hc, he⟩ := h
    obtain rfl := Option.some.inj he
    exact ⟨rfl, .of_rounds? hr, .of_children? hc⟩
  · rintro ⟨rfl, hr, hc⟩
    have hchildren : s.children? v.node v.toRounds t.childIds.1 = some v.children := hc.children?_eq
    simp [visit?, hr.rounds?_eq, hchildren]

def Ready (s : Search α β) (node : Node α β) : Prop :=
  ∃ p, s.storage.system? node.store = some p ∧ p.Shaped s.problem.lp.numVars

theorem exists_visit? (hs : s.Lawful) (t : SearchTree α (Node α β)) (h : s.Ready node) :
    ∃ v, s.visit? t node = some v := by
  obtain ⟨p, hp, hshape⟩ := h
  obtain ⟨r, hr⟩ := exists_rounds? hs t.incumbent le_rfl hp hshape
  have hsettled := (Rounding.of_rounds? hr).settled hs le_rfl hp hshape
  have hvisit {children : List (Node α β)} (hc : s.Offspring node r t.nextId children) :
      s.visit? t node = some { r with node, children } :=
    visit?_eq_some_iff.2 ⟨rfl, .of_rounds? hr, hc⟩
  by_cases hv : ∃ f, r.verdict = .fractional f
  · obtain ⟨f, hf⟩ := hv
    obtain ⟨down, _, hdown, _⟩ := hsettled.bound hs hf (b := f.down) rfl
    obtain ⟨up, _, hup, _⟩ := hsettled.bound hs hf (b := f.up) rfl
    exact ⟨_, hvisit (.split hf hdown hup)⟩
  · exact ⟨_, hvisit (.none (not_exists.1 hv))⟩

theorem Settled.child (hs : s.Lawful) (h : s.Settled inc r) {id : Nat}
    {children : List (Node α β)} (hc : s.Offspring node r id children) {child : Node α β}
    (hchild : child ∈ children) :
    ∃ f b q, r.verdict = .fractional f ∧ (b = f.down ∨ b = f.up) ∧
      r.last.problem.withBound? b = some q ∧ s.storage.system? child.store = some q ∧
      q.Shaped s.problem.lp.numVars := by
  cases hc with
  | @split f down up hv hdown hup =>
    obtain ⟨store, q, hd, hq, hsystem, hshape⟩ := h.bound hs hv (b := f.down) rfl
    obtain rfl : down = store := Option.some.inj (hdown.symm.trans hd)
    obtain ⟨store', q', hu, hq', hsystem', hshape'⟩ := h.bound hs hv (b := f.up) rfl
    obtain rfl : up = store' := Option.some.inj (hup.symm.trans hu)
    rcases List.mem_pair.1 hchild with rfl | rfl
    · exact ⟨f, f.down, q, hv, .inl rfl, hq, hsystem, hshape⟩
    · exact ⟨f, f.up, q', hv, .inr rfl, hq', hsystem', hshape'⟩
  | none => cases hchild

/-- A move of a search: the node that comes out, its system and its visit. -/
structure Move (s : Search α β) (t : SearchTree α (Node α β)) (node : Node α β) (p : Problem α)
    (t' : SearchTree α (Node α β)) (v : Visit α β) : Prop where
  pop : t.pop? = some (node, t')
  system : s.storage.system? node.store = some p
  shaped : p.Shaped s.problem.lp.numVars
  visited : s.Visited t' node v

namespace Move

variable {t t' : SearchTree α (Node α β)} {v : Visit α β}

theorem nodes (h : s.Move t node p t' v) : t.frontier.nodes = node :: t'.frontier.nodes :=
  (SearchTree.pop?_eq_some h.pop).1

theorem incumbent (h : s.Move t node p t' v) : t'.incumbent = t.incumbent :=
  (SearchTree.pop?_eq_some h.pop).2.1

theorem settled (hs : s.Lawful) (h : s.Move t node p t' v) : s.Settled t.incumbent v.toRounds := by
  rw [← h.incumbent]
  exact h.visited.rounds.settled hs le_rfl h.system h.shaped

end Move

theorem eq_root_of_mem_start (h : node ∈ s.start.frontier.nodes) :
    node = .root s.storage.root := by
  simpa [start, SearchTree.push, Frontier.push] using h

def AllReady (s : Search α β) (t : SearchTree α (Node α β)) : Prop :=
  ∀ node ∈ t.frontier.nodes, s.Ready node

theorem allReady_start (hs : s.Lawful) : s.AllReady s.start := by
  intro node hnode
  obtain rfl := eq_root_of_mem_start hnode
  exact ⟨_, hs.root, .of_valid s.problem.valid⟩

theorem AllReady.move {t t' : SearchTree α (Node α β)} {v : Visit α β} (h : s.AllReady t)
    (hpop : t.pop? = some (node, t')) (hv : s.visit? t' node = some v) :
    ∃ p, s.Move t node p t' v := by
  obtain ⟨p, hp, hshape⟩ := h node (by simp [(SearchTree.pop?_eq_some hpop).1])
  exact ⟨p, hpop, hp, hshape, visit?_eq_some_iff.1 hv⟩

theorem AllReady.afterVisit (hs : s.Lawful) {t t' : SearchTree α (Node α β)} {v : Visit α β}
    (h : s.AllReady t) (hmove : s.Move t node p t' v) : s.AllReady (t'.afterVisit v) := by
  intro other hother
  rw [SearchTree.nodes_afterVisit, List.mem_append] at hother
  rcases hother with hchild | hother
  · obtain ⟨_, _, q, _, _, _, hsystem, hshape⟩ :=
      (hmove.settled hs).child hs hmove.visited.children hchild
    exact ⟨q, hsystem, hshape⟩
  · exact h other (by simp [hmove.nodes, hother])

/-- A search over any arithmetic goes through to its end. -/
theorem exists_run (hs : s.Lawful) : ∃ run, s.run? = some run := by
  refine exists_explore? (I := s.AllReady) ?_ _ (allReady_start hs)
  intro t node t' hpop ht
  obtain ⟨v, hv⟩ := exists_visit? hs t' (ht node (by simp [(SearchTree.pop?_eq_some hpop).1]))
  obtain ⟨p, hmove⟩ := ht.move hpop hv
  exact ⟨v, hv, ht.afterVisit hs hmove⟩

theorem uncut (hlimit : s.cutLimit = 0) {run : SearchRun α β} (hrun : s.run? = some run) :
    (∀ v ∈ run.visits, v.cuts = [] ∧ v.failed = none) ∧ run.final.cutsAdded = 0 := by
  refine explore?_induction (I := fun past t => (∀ v ∈ past, v.cuts = [] ∧ v.failed = none) ∧
    t.cutsAdded = 0) ?_ [] hrun ⟨by simp, rfl⟩
  intro past t node t' v hpop hv ⟨hpast, hadded⟩
  obtain ⟨_, hrounds, _⟩ := visit?_eq_some_iff.1 hv
  have hnone : v.cuts = [] ∧ v.failed = none := by
    rw [hlimit] at hrounds
    generalize v.toRounds = r at hrounds
    cases hrounds <;> exact ⟨rfl, rfl⟩
  obtain ⟨_, _, _, _, _, hsame, _⟩ := SearchTree.pop?_eq_some hpop
  simp only [List.forall_mem_append, List.forall_mem_singleton]
  refine ⟨⟨hpast, hnone⟩, ?_⟩
  rw [SearchTree.cutsAdded_afterVisit, hsame, hadded, hnone.1, List.length_nil]

/-- What each move preserves, of the visits so far and the tree, holds in the end. -/
theorem move_induction (hs : s.Lawful) {I : List (Visit α β) → SearchTree α (Node α β) → Prop}
    (hstep : ∀ past t node p t' v, s.Move t node p t' v → I past t →
      I (past ++ [v]) (t'.afterVisit v))
    {left : Nat} {run : SearchRun α β} (hrun : s.explore? left s.start = some run)
    (hI : I [] s.start) : I run.visits run.final := by
  have hstart : s.AllReady s.start ∧ I [] s.start := ⟨allReady_start hs, hI⟩
  have hfinal := explore?_induction (I := fun past t => s.AllReady t ∧ I past t) ?_ [] hrun hstart
  · exact hfinal.2
  intro past t node t' v hpop hv ⟨hready, ht⟩
  obtain ⟨p, hst⟩ := hready.move hpop hv
  exact ⟨hready.afterVisit hs hst, hstep past t node p t' v hst ht⟩

/-- Down the tree: what holds of the root and passes from a node to its children holds of every
node, and of every visit what follows from it at its node. -/
theorem node_induction (hs : s.Lawful) {P : Node α β → Problem α → Prop} {Q R : Visit α β → Prop}
    (hroot : P (.root s.storage.root) s.problem.lp)
    (hstep : ∀ t node p t' v, s.Move t node p t' v → P node p → Q v →
      R v ∧ ∀ child ∈ v.children, ∃ q, s.storage.system? child.store = some q ∧ P child q)
    {run : SearchRun α β} (hrun : s.run? = some run) (hQ : ∀ v ∈ run.visits, Q v) :
    (∀ v ∈ run.visits, R v) ∧ ∀ node ∈ run.final.frontier.nodes,
      ∃ q, s.storage.system? node.store = some q ∧ P node q := by
  refine move_induction hs (I := fun past t => (∀ v ∈ past, Q v) → (∀ v ∈ past, R v) ∧
    ∀ node ∈ t.frontier.nodes, ∃ q, s.storage.system? node.store = some q ∧ P node q) ?_ hrun ?_ hQ
  · intro past t node p t' v hmove ih hQ
    simp only [List.forall_mem_append, List.forall_mem_singleton] at hQ ⊢
    obtain ⟨hpast, hopen⟩ := ih hQ.1
    rw [hmove.nodes, List.forall_mem_cons] at hopen
    obtain ⟨⟨q, hq, hnode⟩, hrest⟩ := hopen
    obtain rfl : p = q := Option.some.inj (hmove.system.symm.trans hq)
    obtain ⟨hv, hchildren⟩ := hstep t node p t' v hmove hnode hQ.2
    rw [SearchTree.nodes_afterVisit, List.forall_mem_append]
    exact ⟨⟨hpast, hv⟩, hchildren, hrest⟩
  · intro _
    refine ⟨by simp, fun node hnode => ?_⟩
    obtain rfl := eq_root_of_mem_start hnode
    exact ⟨_, hs.root, hroot⟩

theorem forall_visits (hs : s.Lawful) {P : Visit α β → Prop}
    (hmove : ∀ t node p t' v, s.Move t node p t' v → P v) {run : SearchRun α β}
    (hrun : s.run? = some run) : ∀ v ∈ run.visits, P v := by
  refine move_induction hs (I := fun past _ => ∀ v ∈ past, P v) ?_ hrun (by simp)
  intro past t node p t' v h ih
  exact List.forall_mem_append.2 ⟨ih, List.forall_mem_singleton.2 (hmove t node p t' v h)⟩

end Search

end IntegerPrograms
