import RegAlloc.Proofs.Degeneracy
import RegAlloc.Proofs.InterferenceRelation

/-!
# The spill policy matters under pressure only

Policy and costs decide one thing: which node is given up when no other step is left.  Everything
else looks at the graph.  So two reductions of one graph under different policies, with whatever
costs, go in lockstep until one of them makes a spill step; and if one comes to its end without a
potential spill, the other has made the same steps.

The relation that carries the two runs is `SameBesidesCosts`.  Costs are kept up to date in both, by
every merge, but no step that the two make together reads them.  A spill step cannot go unnoticed,
because potential spills are never forgotten (`mem_potential_run`).
-/

namespace RegAlloc

namespace Reduction

open InterferenceGraph

variable {k : Nat} {p q : SpillPolicy} {r r' : Reduction}

/-- The two states are the same, up to the costs. -/
structure SameBesidesCosts (r r' : Reduction) : Prop where
  graph : r'.graph = r.graph
  stack : r'.stack = r.stack
  potential : r'.potential = r.potential
  merges : r'.merges = r.merges

/-- **A step does not read the costs.** -/
theorem SameBesidesCosts.apply (h : SameBesidesCosts r r') (step : Step) :
    SameBesidesCosts (r.apply step) (r'.apply step) := by
  obtain ⟨graph, costs, stack, potential, merges⟩ := r
  obtain ⟨graph', costs', stack', potential', merges'⟩ := r'
  obtain ⟨rfl, rfl, rfl, rfl⟩ := h
  cases step with
  | simplify n => exact ⟨rfl, rfl, rfl, rfl⟩
  | constrain u v => exact ⟨rfl, rfl, rfl, rfl⟩
  | merge u v => exact ⟨rfl, rfl, rfl, rfl⟩
  | freeze n => exact ⟨rfl, rfl, rfl, rfl⟩
  | spill n degree => exact ⟨rfl, rfl, rfl, rfl⟩

/-- Where nobody is left to be given up, no policy finds anybody. -/
theorem victim?_of_activeNodes_eq_nil {g : InterferenceGraph} (hg : g.activeNodes = [])
    (policy : SpillPolicy) (costs : SpillCosts) : g.victim? policy costs = none := by
  cases policy with
  | firstFound => rw [victim?, hg, List.head?_nil]
  | lowestCost =>
      rw [victim?, hg]
      rfl

/-- **Two policies choose the same step,** unless one of them spills. -/
theorem next?_eq_or_spill (h : SameBesidesCosts r r') :
    r'.next? k q = r.next? k p ∨ ∃ n degree, r.next? k p = some (.spill n degree) := by
  rw [next?, next?, h.graph]
  cases r.graph.simplifiable? k with
  | some n => exact Or.inl rfl
  | none =>
      cases r.graph.firstMoveStep? k with
      | some step => exact Or.inl rfl
      | none =>
          cases r.graph.freezable? k with
          | some n => exact Or.inl rfl
          | none =>
              cases hvictim : r.graph.victim? p r.costs with
              | some n => exact Or.inr ⟨n, r.graph.degree n, rfl⟩
              | none =>
                  have hnobody := activeNodes_of_victim?_eq_none hvictim
                  rw [victim?_of_activeNodes_eq_nil hnobody]
                  exact Or.inl rfl

/-- A potential spill is never forgotten. -/
theorem mem_potential_run {n : NodeId} (hn : n ∈ r.potential) (budget : Nat) :
    n ∈ (run k p budget r).2.potential := by
  refine run_induction (P := fun r => n ∈ r.potential) (fun {r step} hr _ => ?_) budget hn
  cases step with
  | simplify m => exact hr
  | constrain u v => exact hr
  | merge u v => exact hr
  | freeze m => exact hr
  | spill m degree => exact IdSet.mem_insert.mpr (Or.inr hr)

/-- **Runs without a spill step go in lockstep:** if one run has no potential spill at its end, the
other makes the same steps and ends in the same state. -/
theorem run_eq_of_calm {budget : Nat} (h : SameBesidesCosts r r')
    (hcalm : ∀ n, n ∉ (run k p budget r).2.potential) :
    (run k q budget r').1 = (run k p budget r).1 ∧
      SameBesidesCosts (run k p budget r).2 (run k q budget r').2 := by
  induction budget generalizing r r' with
  | zero => exact ⟨rfl, h⟩
  | succ budget ih =>
      rcases next?_eq_or_spill (k := k) (p := p) (q := q) h with heq | ⟨n, degree, hspill⟩
      · cases hnext : r.next? k p with
        | none =>
            rw [run_succ_none budget hnext, run_succ_none budget (heq.trans hnext)]
            exact ⟨rfl, h⟩
        | some step =>
            rw [run_succ_some budget hnext] at hcalm ⊢
            rw [run_succ_some budget (heq.trans hnext)]
            obtain ⟨hsteps, hend⟩ := ih (h.apply step) hcalm
            exact ⟨congrArg (step :: ·) hsteps, hend⟩
      · -- the node that is spilled would be a potential spill at the end
        rw [run_succ_some budget hspill] at hcalm
        have hnow : n ∈ (r.apply (.spill n degree)).potential :=
          IdSet.mem_insert.mpr (Or.inl rfl)
        exact absurd (mem_potential_run hnow budget) (hcalm n)

end Reduction

namespace ColoringRun

open InterferenceGraph Reduction

variable {g : InterferenceGraph} {k : Nat} {p q : SpillPolicy} {costs costs' : SpillCosts}

/-- The result of a colouring does not mention costs. -/
theorem result_congr {run run' : ColoringRun}
    (hsame : SameBesidesCosts run.reduction run'.reduction)
    (hselection : run'.selection = run.selection) : run'.result = run.result := by
  unfold result assignments ColoringRun.graph
  rw [hsame.graph, hsame.potential, hsame.merges, hselection]

/-- **Without a potential spill the policy does not matter.** -/
theorem result_eq_of_calm (hg : g.Fresh)
    (hcalm : (color k p g costs).result.potentialSpills = []) :
    (color k q g costs').result = (color k p g costs).result := by
  have hstart : SameBesidesCosts (Reduction.start g costs) (Reduction.start g costs') :=
    ⟨rfl, rfl, rfl, rfl⟩
  obtain ⟨-, hsame⟩ := run_eq_of_calm (q := q) hstart ((potentialSpills_eq_nil hg).mp hcalm)
  refine result_congr hsame ?_
  show Selection.ofStack k _ _ = Selection.ofStack k _ _
  rw [hsame.graph, hsame.stack]

end ColoringRun

namespace FlowGraph

open InterferenceGraph

/-- The registers of a procedure under another policy, if there is no potential spill. -/
theorem allocate_of_calm {g : FlowGraph} {table : SymbolTable} {isField : SymbolId → Bool}
    {k : Nat} {pin : Bool} {p q : SpillPolicy} {coloring : Coloring}
    (hcalm : coloring.potentialSpills = [])
    (h : g.allocate table isField ⟨k, p, pin⟩ = .ok coloring) :
    g.allocate table isField ⟨k, q, pin⟩ = .ok coloring := by
  obtain ⟨hcheck, hspilled, rfl⟩ := allocate_eq_ok.mp h
  have hresult : (ProcedureRun.ofFlow isField ⟨k, q, pin⟩ g).result =
      (ProcedureRun.ofFlow isField ⟨k, p, pin⟩ g).result :=
    ColoringRun.result_eq_of_calm (fresh_interference isField ⟨k, p, pin⟩ g) hcalm
  rw [← hresult] at hspilled ⊢
  exact allocate_eq_ok.mpr ⟨hcheck, hspilled, rfl⟩

/-- **The spill policy matters under pressure only.**  For every procedure, symbol table, choice of
fields, number of registers and treatment of the receiver: a result without potential spills is the
result under one policy if and only if it is the result under the other, with the same registers,
the same number of merges and the same lists of spills. -/
theorem allocate_policy_irrelevant (g : FlowGraph) (table : SymbolTable)
    (isField : SymbolId → Bool) (k : Nat) (pin : Bool) (coloring : Coloring)
    (hcalm : coloring.potentialSpills = []) :
    g.allocate table isField ⟨k, .firstFound, pin⟩ = .ok coloring ↔
      g.allocate table isField ⟨k, .lowestCost, pin⟩ = .ok coloring :=
  ⟨allocate_of_calm hcalm, allocate_of_calm hcalm⟩

end FlowGraph

/-- The method that counts up needs no spill step with three registers, so the costs that its loop
gives to its symbols change nothing: the field has register `2` and one copy vanishes under either
policy. -/
theorem Program.allocate_policy_irrelevant_countUp :
    ∃ coloring, coloring.potentialSpills = [] ∧ coloring.color? 4 = some 2 ∧
      coloring.merges = 1 ∧
      countUpFlow.allocate ∅ (· == 4) ⟨3, .firstFound, false⟩ = .ok coloring ∧
      countUpFlow.allocate ∅ (· == 4) ⟨3, .lowestCost, false⟩ = .ok coloring := by
  have hcalm : (ProcedureRun.ofFlow (· == 4) ⟨3, .firstFound, false⟩
      countUpFlow).result.potentialSpills = [] := by decide +kernel
  have hok : countUpFlow.allocate ∅ (· == 4) ⟨3, .firstFound, false⟩ =
      .ok (ProcedureRun.ofFlow (· == 4) ⟨3, .firstFound, false⟩ countUpFlow).result :=
    FlowGraph.allocate_eq_ok.mpr ⟨rfl, by decide +kernel, rfl⟩
  exact ⟨_, hcalm, by decide +kernel, by decide +kernel, hok,
    (FlowGraph.allocate_policy_irrelevant countUpFlow ∅ (· == 4) 3 false _ hcalm).mp hok⟩

end RegAlloc
