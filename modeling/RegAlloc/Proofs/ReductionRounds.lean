import RegAlloc.Proofs.ColoringCorrectness

/-!
# The rounds of a reduction

A reduction is a loop.  While a node is active it makes a **round**: it takes out every node that
can be simplified, one after the other; if there is none, it makes one other step.  `Rounds` is this
loop as a relation, without any budget: a derivation of it is a loop that came to its end, and it
lists the steps of each round.

Two things about the loop have to be shown.

* **It ends.**  `Reduction.run` stops when its budget is spent, so a run proves nothing about the
  loop unless it is known to have stopped for the other reason.  `exists_rounds` groups the steps of
  such a run into rounds.  Each round makes at least one step (`Round.ne_nil`) and each step spends
  two of the weight of the graph, so **there are at most as many rounds as there are nodes and pairs
  of nodes joined by a move**.
* **It ends in one way** (`Rounds.unique`), so what is said about that run is said about the loop.

A node goes on the stack when it is simplified or spilled.  Nothing is ever taken off, so the stack
is the record of these steps read backwards (`stack_run`), and at the end it holds every node that
was not merged, once.
-/

namespace RegAlloc

/-- The node that a step puts on the stack. -/
def Step.pushed? : Step → Option NodeId
  | .simplify n | .spill n _ => some n
  | .constrain _ _ | .merge _ _ | .freeze _ => none

namespace InterferenceGraph

variable {g : InterferenceGraph} {n u v : NodeId} {k : Nat}

/-! ## Pairs of nodes joined by a move -/

/-- The pairs of nodes joined by a move, each with its smaller node first. -/
def movePairs (g : InterferenceGraph) : Finset (NodeId × NodeId) :=
  (Finset.range g.size ×ˢ Finset.range g.size).filter fun p => p.1 < p.2 ∧ g.hasMove p.1 p.2 = true

theorem mem_movePairs (hg : g.WellFormed) :
    (u, v) ∈ g.movePairs ↔ u < v ∧ v ∈ g.moves.neighbors u := by
  rw [movePairs, Finset.mem_filter, Finset.mem_product, Finset.mem_range, Finset.mem_range]
  constructor
  · rintro ⟨-, hlt, hmove⟩
    exact ⟨hlt, hasMove_iff.mp hmove⟩
  · rintro ⟨hlt, hmove⟩
    refine ⟨⟨?_, ?_⟩, hlt, hasMove_iff.mpr hmove⟩
    · exact hg.moves_size ▸ Adjacency.lt_size_of_mem_neighbors hmove
    · exact hg.moves_size ▸ hg.moves.lt_size hmove

/-- Every move has two ends. -/
theorem totalDegree_le_movePairs (hg : g.WellFormed) :
    g.moves.totalDegree ≤ 2 * g.movePairs.card := by
  have hends : g.moves.ends ⊆
      g.movePairs.image (fun p => ⟨p.1, p.2⟩) ∪ g.movePairs.image fun p => ⟨p.2, p.1⟩ := by
    rintro ⟨a, b⟩ hab
    have hmove := Adjacency.mem_ends.mp hab
    rw [Finset.mem_union, Finset.mem_image, Finset.mem_image]
    rcases Nat.lt_or_gt_of_ne (hg.moves.ne hmove) with hlt | hlt
    · exact Or.inr ⟨(b, a), (mem_movePairs hg).mpr ⟨hlt, hg.moves.symm hmove⟩, rfl⟩
    · exact Or.inl ⟨(a, b), (mem_movePairs hg).mpr ⟨hlt, hmove⟩, rfl⟩
  calc g.moves.totalDegree
      = g.moves.ends.card := g.moves.totalDegree_eq_card
    _ ≤ _ := (Finset.card_le_card hends).trans (Finset.card_union_le _ _)
    _ ≤ g.movePairs.card + g.movePairs.card :=
        Nat.add_le_add Finset.card_image_le Finset.card_image_le
    _ = 2 * g.movePairs.card := (Nat.two_mul _).symm

theorem weight_le (hg : g.WellFormed) : g.weight ≤ 2 * (g.size + g.movePairs.card) := by
  have hnodes := g.card_activeSet_le
  have hmoves := totalDegree_le_movePairs hg
  rw [weight]
  omega

theorem isReduced_iff : g.isReduced = true ↔ ∀ n, g.isActive n = false := by
  rw [isReduced, List.isEmpty_iff, List.eq_nil_iff_forall_not_mem]
  simp only [mem_activeNodes, Bool.not_eq_true]

theorem simplifiable?_of_isReduced (hg : g.isReduced = true) : g.simplifiable? k = none := by
  rw [isReduced, List.isEmpty_iff] at hg
  rw [simplifiable?, hg, List.find?_nil]

end InterferenceGraph

namespace Reduction

open InterferenceGraph

variable {k : Nat} {policy : SpillPolicy} {r r' r₁ r₂ final : Reduction} {step : Step}
variable {steps s₁ s₂ : List Step} {rounds : List (List Step)}

/-! ## The loop -/

/-- Simplify as long as that is possible. -/
inductive Simplifies (k : Nat) : Reduction → List Step → Reduction → Prop
  /-- No node can be simplified. -/
  | done {r : Reduction} (stuck : r.graph.simplifiable? k = none) : Simplifies k r [] r
  /-- Take a node out and go on. -/
  | step {r r' : Reduction} {n : NodeId} {steps : List Step}
      (first : r.graph.simplifiable? k = some n)
      (rest : Simplifies k (r.apply (.simplify n)) steps r') :
      Simplifies k r (.simplify n :: steps) r'

/-- **One round of the loop,** with the steps it makes. -/
inductive Round (k : Nat) (policy : SpillPolicy) : Reduction → List Step → Reduction → Prop
  /-- Some node can be simplified, and then all that can be are. -/
  | simplify {r r' : Reduction} {n : NodeId} {steps : List Step}
      (first : r.graph.simplifiable? k = some n)
      (rest : Simplifies k (r.apply (.simplify n)) steps r') :
      Round k policy r (.simplify n :: steps) r'
  /-- No node can be simplified, and one other step is made. -/
  | single {r : Reduction} {step : Step} (stuck : r.graph.simplifiable? k = none)
      (next : r.next? k policy = some step) : Round k policy r [step] (r.apply step)
  /-- There is nothing to do. -/
  | idle {r : Reduction} (stuck : r.graph.simplifiable? k = none)
      (next : r.next? k policy = none) : Round k policy r [] r

/-- **The loop that makes rounds while a node is active,** with the steps of each round. -/
inductive Rounds (k : Nat) (policy : SpillPolicy) :
    Reduction → List (List Step) → Reduction → Prop
  /-- No node is active. -/
  | done {r : Reduction} (reduced : r.graph.isReduced = true) : Rounds k policy r [] r
  /-- A node is active; make a round and go on. -/
  | next {r r' final : Reduction} {steps : List Step} {rounds : List (List Step)}
      (active : r.graph.isReduced = false) (round : Round k policy r steps r')
      (rest : Rounds k policy r' rounds final) : Rounds k policy r (steps :: rounds) final

/-! ## The loop ends in one way -/

theorem Simplifies.unique (h₁ : Simplifies k r s₁ r₁) (h₂ : Simplifies k r s₂ r₂) :
    s₁ = s₂ ∧ r₁ = r₂ := by
  induction h₁ generalizing s₂ with
  | done hstuck =>
      cases h₂ with
      | done => exact ⟨rfl, rfl⟩
      | step first => cases hstuck.symm.trans first
  | step hfirst hrest ih =>
      cases h₂ with
      | done stuck => cases stuck.symm.trans hfirst
      | step first rest =>
          cases hfirst.symm.trans first
          obtain ⟨rfl, rfl⟩ := ih rest
          exact ⟨rfl, rfl⟩

theorem Round.unique (h₁ : Round k policy r s₁ r₁) (h₂ : Round k policy r s₂ r₂) :
    s₁ = s₂ ∧ r₁ = r₂ := by
  cases h₁ with
  | simplify hfirst hrest =>
      cases h₂ with
      | simplify first rest =>
          cases hfirst.symm.trans first
          obtain ⟨rfl, rfl⟩ := hrest.unique rest
          exact ⟨rfl, rfl⟩
      | single stuck => cases stuck.symm.trans hfirst
      | idle stuck => cases stuck.symm.trans hfirst
  | single hstuck hnext =>
      cases h₂ with
      | simplify first => cases hstuck.symm.trans first
      | single _ next =>
          cases hnext.symm.trans next
          exact ⟨rfl, rfl⟩
      | idle _ next => cases next.symm.trans hnext
  | idle hstuck hnext =>
      cases h₂ with
      | simplify first => cases hstuck.symm.trans first
      | single _ next => cases hnext.symm.trans next
      | idle => exact ⟨rfl, rfl⟩

/-- **The loop ends in one way.** -/
theorem Rounds.unique {more : List (List Step)} (h₁ : Rounds k policy r rounds r₁)
    (h₂ : Rounds k policy r more r₂) : rounds = more ∧ r₁ = r₂ := by
  induction h₁ generalizing more with
  | done hreduced =>
      cases h₂ with
      | done => exact ⟨rfl, rfl⟩
      | next active => cases active.symm.trans hreduced
  | next hactive hround hrest ih =>
      cases h₂ with
      | done reduced => cases hactive.symm.trans reduced
      | next active round rest =>
          obtain ⟨rfl, rfl⟩ := hround.unique round
          obtain ⟨rfl, rfl⟩ := ih rest
          exact ⟨rfl, rfl⟩

/-! ## The loop ends -/

theorem isReduced_of_next?_eq_none (h : r.next? k policy = none) : r.graph.isReduced = true :=
  isReduced_iff.mpr (isActive_of_next?_eq_none h)

/-- Every step needs an active node. -/
theorem isReduced_eq_false (hs : step.Allowed k r.graph) : r.graph.isReduced = false := by
  have hexists : ∃ n, r.graph.isActive n = true := by
    cases hs with
    | simplify active => exact ⟨_, active⟩
    | constrain left => exact ⟨_, left⟩
    | merge left => exact ⟨_, left⟩
    | freeze active => exact ⟨_, active⟩
    | spill active => exact ⟨_, active⟩
  obtain ⟨n, hn⟩ := hexists
  rw [Bool.eq_false_iff]
  intro hreduced
  cases (isReduced_iff.mp hreduced n).symm.trans hn

/-- The next step is to simplify whenever that is possible. -/
theorem next?_of_simplifiable? {n : NodeId} (h : r.graph.simplifiable? k = some n) :
    r.next? k policy = some (.simplify n) := by
  rw [next?, h]

/-- **A round makes a step** as long as a node is active. -/
theorem Round.ne_nil (hactive : r.graph.isReduced = false) (h : Round k policy r steps r') :
    steps ≠ [] := by
  cases h with
  | simplify => exact List.cons_ne_nil _ _
  | single => exact List.cons_ne_nil _ _
  | idle stuck next => cases hactive.symm.trans (isReduced_of_next?_eq_none next)

theorem Rounds.length_le (h : Rounds k policy r rounds final) :
    rounds.length ≤ rounds.flatten.length := by
  induction h with
  | done => exact Nat.le_refl 0
  | next hactive hround hrest ih =>
      have hpos := List.length_pos_iff.mpr (hround.ne_nil hactive)
      rw [List.length_cons, List.flatten_cons, List.length_append]
      omega

/-- One more step before a loop: it joins the first round if both simplify, and is a round of its
own otherwise. -/
theorem Rounds.cons (hnext : r.next? k policy = some step)
    (h : Rounds k policy (r.apply step) rounds final) :
    ∃ more, more.flatten = step :: rounds.flatten ∧ Rounds k policy r more final := by
  have hactive := isReduced_eq_false (next?_allowed hnext)
  cases hfirst : r.graph.simplifiable? k with
  | none => exact ⟨[step] :: rounds, rfl, .next hactive (.single hfirst hnext) h⟩
  | some n =>
      cases hnext.symm.trans (next?_of_simplifiable? hfirst)
      cases hagain : (r.apply (.simplify n)).graph.simplifiable? k with
      | none =>
          exact ⟨[.simplify n] :: rounds, rfl, .next hactive (.simplify hfirst (.done hagain)) h⟩
      | some m =>
          cases h with
          | done reduced => cases hagain.symm.trans (simplifiable?_of_isReduced reduced)
          | next active round rest =>
              cases round with
              | simplify first tail =>
                  exact ⟨_ :: _, rfl, .next hactive (.simplify hfirst (.step first tail)) rest⟩
              | single stuck => cases stuck.symm.trans hagain
              | idle stuck => cases stuck.symm.trans hagain

/-- **The steps of a run that leaves no node active are those of the loop.** -/
theorem exists_rounds {budget : Nat} (hend : (run k policy budget r).2.graph.isReduced = true) :
    ∃ rounds, rounds.flatten = (run k policy budget r).1 ∧
      Rounds k policy r rounds (run k policy budget r).2 := by
  induction budget generalizing r with
  | zero => exact ⟨[], rfl, .done hend⟩
  | succ budget ih =>
      cases hnext : r.next? k policy with
      | none =>
          rw [run_succ_none budget hnext]
          exact ⟨[], rfl, .done (isReduced_of_next?_eq_none hnext)⟩
      | some step =>
          rw [run_succ_some budget hnext] at hend ⊢
          obtain ⟨rounds, hflat, hrounds⟩ := ih hend
          obtain ⟨more, hmore, hrounds⟩ := hrounds.cons hnext
          exact ⟨more, hmore.trans (congrArg _ hflat), hrounds⟩

/-- A run makes at most half as many steps as the graph weighs. -/
theorem length_run_le (hg : r.graph.WellFormed) (budget : Nat) :
    2 * (run k policy budget r).1.length ≤ r.graph.weight := by
  induction budget generalizing r with
  | zero => exact Nat.zero_le _
  | succ budget ih =>
      cases hnext : r.next? k policy with
      | none =>
          rw [run_succ_none budget hnext]
          exact Nat.zero_le _
      | some step =>
          have hs := next?_allowed hnext
          have hspent := weight_apply hg hs
          have hrest := ih (wellFormed_apply hg hs)
          rw [run_succ_some budget hnext, List.length_cons]
          omega

/-! ## The stack -/

/-- **The stack is the record of the steps that put a node on it,** read backwards. -/
theorem stack_run (budget : Nat) (r : Reduction) :
    (run k policy budget r).2.stack =
      ((run k policy budget r).1.filterMap Step.pushed?).reverse ++ r.stack := by
  induction budget generalizing r with
  | zero => rfl
  | succ budget ih =>
      cases hnext : r.next? k policy with
      | none =>
          rw [run_succ_none budget hnext]
          rfl
      | some step =>
          rw [run_succ_some budget hnext, ih (r.apply step), List.filterMap_cons]
          cases step with
          | simplify n => simp [Step.pushed?, apply]
          | constrain u v => rfl
          | merge u v => rfl
          | freeze n => rfl
          | spill n degree => simp [Step.pushed?, apply]

/-- At the end of a reduction every node that was not merged is on the stack, once. -/
theorem Stacked.count_eq_one (hr : r.Stacked) (hend : r.graph.isReduced = true) {n : NodeId}
    (hn : n < r.graph.size) (hm : r.graph.isMerged n = false) : r.stack.count n = 1 := by
  refine List.count_eq_one_of_mem hr.nodup ((hr.mem_iff n).mpr ?_)
  rcases hasStatus_cases hn with hs | hs | hs
  · cases (isReduced_iff.mp hend n).symm.trans hs
  · exact hs
  · cases hm.symm.trans hs

/-- No merged node is on the stack. -/
theorem Stacked.notMem_of_isMerged (hr : r.Stacked) {n : NodeId} (hn : r.graph.isMerged n = true) :
    n ∉ r.stack := by
  intro hmem
  exact absurd (hasStatus_unique hn ((hr.mem_iff n).mp hmem)) (by simp)

end Reduction

namespace ColoringRun

open InterferenceGraph

variable {g : InterferenceGraph}

/-- **The reduction of a fresh graph ends, soon, and with every node accounted for.**  For any
number of registers, policy and costs: the loop comes to its end, in exactly one way; it makes at
most as many rounds as there are nodes and pairs of nodes joined by a move; the steps of these
rounds are those of the run; and then no node is active.  The stack is the record of the nodes that
were put on it; every node that was not merged was put there exactly once, and no merged node
ever. -/
theorem reduction_rounds (hg : g.Fresh) (k : Nat) (policy : SpillPolicy) (costs : SpillCosts) :
    let run := color k policy g costs
    let pushes := run.steps.filterMap Step.pushed?
    (∃ rounds, (∀ more final, Reduction.Rounds k policy (.start g costs) more final ↔
        more = rounds ∧ final = run.reduction) ∧
      rounds.flatten = run.steps ∧ rounds.length ≤ g.size + g.movePairs.card) ∧
    (∀ n, run.graph.isActive n = false) ∧
    run.reduction.stack = pushes.reverse ∧
    (∀ n, n < g.size → run.graph.isMerged n = false → pushes.count n = 1) ∧
    ∀ n, run.graph.isMerged n = true → n ∉ pushes := by
  intro run pushes
  have htracks := tracks_color k policy costs hg
  have hdone : ∀ n, run.graph.isActive n = false := Reduction.isActive_reduce hg.wellFormed costs
  have hreduced : run.graph.isReduced = true := isReduced_iff.mpr hdone
  have hstack : run.reduction.stack = pushes.reverse :=
    (Reduction.stack_run _ (.start g costs)).trans (List.append_nil _)
  refine ⟨?_, hdone, hstack, fun n hn hm => ?_, fun n hm => ?_⟩
  · obtain ⟨rounds, hflat, hrounds⟩ := Reduction.exists_rounds hreduced
    refine ⟨rounds, fun more final => ⟨fun h => h.unique hrounds, ?_⟩, hflat, ?_⟩
    · rintro ⟨rfl, rfl⟩
      exact hrounds
    · have hsteps : 2 * run.steps.length ≤ g.weight := Reduction.length_run_le hg.wellFormed _
      have hlength : rounds.length ≤ run.steps.length := by
        rw [show run.steps = rounds.flatten from hflat.symm]
        exact hrounds.length_le
      have hweight := weight_le hg.wellFormed
      omega
  · have hcount : run.reduction.stack.count n = 1 :=
      htracks.stacked.count_eq_one hreduced (htracks.size ▸ hn) hm
    rwa [hstack, List.count_reverse] at hcount
  · have hmem : n ∉ run.reduction.stack := htracks.stacked.notMem_of_isMerged hm
    rwa [hstack, List.mem_reverse] at hmem

/-- With three registers, the middle of three nodes in a row is simplified; then the ends are
merged, and what they have become is simplified.  There are three nodes and one move, so four rounds
would have been allowed. -/
theorem reduction_rounds_threeInARow :
    let run := color 3 .lowestCost threeInARow SpillCosts.unknown
    threeInARow.size + threeInARow.movePairs.card = 4 ∧
      run.steps = [.simplify 1, .merge 0 2, .simplify 0] ∧
      (∃ rounds, Reduction.Rounds 3 .lowestCost (.start threeInARow SpillCosts.unknown) rounds
        run.reduction ∧ rounds.length ≤ 4) ∧
      run.reduction.stack = [0, 1] ∧ (run.steps.filterMap Step.pushed?).count 1 = 1 ∧
      2 ∉ run.steps.filterMap Step.pushed? := by
  intro run
  have hbound : threeInARow.size + threeInARow.movePairs.card = 4 := by decide +kernel
  have hsteps : run.steps = [.simplify 1, .merge 0 2, .simplify 0] := by decide +kernel
  obtain ⟨⟨rounds, hrounds, -, hlength⟩, -, hstack, hkept, hmerged⟩ :=
    reduction_rounds fresh_threeInARow 3 .lowestCost SpillCosts.unknown
  refine ⟨hbound, hsteps, ⟨rounds, (hrounds _ _).mpr ⟨rfl, rfl⟩, hbound ▸ hlength⟩, ?_, ?_, ?_⟩
  · rw [show run.reduction.stack = _ from hstack, hsteps]
    rfl
  · exact hkept 1 (by decide +kernel) (by decide +kernel)
  · exact hmerged 2 (by decide +kernel)

end ColoringRun

end RegAlloc
