import RegAlloc.Allocation.Log
import RegAlloc.Proofs.ColoringCorrectness

/-!
# Who can be left without a register

A node leaves the graph by a simplify step or by a spill step, and only the latter makes it a
**spill candidate**.  This file says that nobody else is ever left without a register.

The count that a simplify step checks is taken when the node leaves.  Merges that come later change
the neighbours of the node, so what is counted is not what is met when the node has its turn; that
it cannot grow is the law `Reduction.Admits` of the reduction.  What remains is to follow a
simplified node through the rest of the run: it stays on the stack and never becomes a candidate
(`Settled`), because later steps only take out nodes that are still active.
-/

namespace RegAlloc

namespace Reduction

variable {origin : InterferenceGraph} {k : Nat} {policy : SpillPolicy} {r : Reduction} {step : Step}
variable {n : NodeId}

/-- Node `n` waits on the stack and is no spill candidate. -/
def Settled (n : NodeId) (r : Reduction) : Prop := n ∈ r.stack ∧ n ∉ r.potential

/-- What is settled stays settled: a later step takes out another node, if any. -/
theorem Settled.apply (hn : r.Settled n) (hr : r.Stacked) (hs : step.Allowed k r.graph) :
    (r.apply step).Settled n := by
  obtain ⟨hmem, hpot⟩ := hn
  cases hs with
  | simplify active unmarked low => exact ⟨List.mem_cons_of_mem _ hmem, hpot⟩
  | constrain left right move conflict => exact ⟨hmem, hpot⟩
  | merge left right move free safe => exact ⟨hmem, hpot⟩
  | freeze active marked low stuck => exact ⟨hmem, hpot⟩
  | @spill m active high stuck =>
      refine ⟨List.mem_cons_of_mem m hmem, fun hnew => ?_⟩
      rcases IdSet.mem_insert.mp hnew with rfl | hold
      · exact hr.notMem_of_isActive active hmem
      · exact hpot hold

/-- A node that is simplified is settled. -/
theorem settled_simplify (hr : r.Stacked) (hn : r.graph.isActive n = true) :
    (r.apply (.simplify n)).Settled n :=
  ⟨List.mem_cons_self, fun hpot => hr.notMem_of_isActive hn (hr.potential n hpot)⟩

/-- **Every node that a run simplifies is settled at its end.** -/
theorem settled_run {budget : Nat} (hr : r.Tracks origin k)
    (hn : Step.simplify n ∈ (run k policy budget r).1) : (run k policy budget r).2.Settled n := by
  induction budget generalizing r with
  | zero => exact absurd hn List.not_mem_nil
  | succ budget ih =>
      cases hnext : r.next? k policy with
      | none =>
          rw [run_succ_none budget hnext] at hn
          exact absurd hn List.not_mem_nil
      | some step =>
          rw [run_succ_some budget hnext] at hn ⊢
          have hs := next?_allowed hnext
          rcases List.mem_cons.mp hn with rfl | hn
          · cases hs with
            | simplify active unmarked low =>
                have hnow := settled_simplify hr.stacked active
                have hallowed : Step.Allowed k r.graph (.simplify n) :=
                  Step.Allowed.simplify active unmarked low
                exact Tracks.run_induction (fun htracks h hs => h.apply htracks.stacked hs) budget
                  (hr.apply hallowed) hnow
          · exact ih (hr.apply hs) hn

end Reduction

namespace ColoringRun

open InterferenceGraph

variable {g : InterferenceGraph} {k : Nat} {policy : SpillPolicy} {costs : SpillCosts} {n : NodeId}

/-- The warning that a node unexpectedly found no register is about spilled nodes that were no
candidates. -/
theorem noFreeColor_mem_log (run : ColoringRun) :
    Event.noFreeColor n ∈ run.log ↔
      n ∈ run.selection.spilled ∧ n ∉ run.reduction.potential := by
  rw [log, List.mem_append, List.mem_map]
  constructor
  · rintro (hstep | ⟨m, hm, he⟩)
    · obtain ⟨step, -, he⟩ := List.mem_filterMap.mp hstep
      cases step <;> simp [Step.event?] at he
    · cases he
      obtain ⟨hmem, hpot⟩ := List.mem_filter.mp hm
      exact ⟨hmem, of_decide_eq_true hpot⟩
  · rintro ⟨hmem, hpot⟩
    exact Or.inr ⟨n, List.mem_filter.mpr ⟨hmem, decide_eq_true hpot⟩, rfl⟩

/-- **Only spill candidates are spilled.**  In every colouring of a fresh graph a spilled symbol is
one of the potential spills; every node that was simplified has a turn in the service and finds a
free register then, whatever happened to the graph after it left; and the warning for a simplified
node without a register is never logged. -/
theorem simplified_finds_register (hg : g.Fresh) (k : Nat) (policy : SpillPolicy)
    (costs : SpillCosts) :
    let run := color k policy g costs
    (∀ s ∈ run.result.spilled, s ∈ run.result.potentialSpills) ∧
    (∀ n, Step.simplify n ∈ run.steps → ∃ served below c,
      run.reduction.stack = served ++ n :: below ∧
        (Selection.ofStack k run.graph served).free? k run.graph n = some c) ∧
    ∀ n, Event.noFreeColor n ∉ run.log := by
  have htracks := tracks_color k policy costs hg
  have hpotential : ∀ n, n ∈ (color k policy g costs).selection.spilled →
      n ∈ (color k policy g costs).reduction.potential :=
    fun _ hn => Selection.mem_potential_of_mem_spilled htracks hn
  refine ⟨fun s hs => ?_, fun n hn => ?_, fun n hwarn => ?_⟩
  · obtain ⟨n, hn, hsymbol⟩ := List.mem_filterMap.mp hs
    exact List.mem_filterMap.mpr ⟨n, hpotential n hn, hsymbol⟩
  · obtain ⟨hmem, hpot⟩ := Reduction.settled_run (Reduction.Tracks.start hg k costs) hn
    obtain ⟨served, below, hstack⟩ := List.append_of_mem hmem
    obtain ⟨c, hc⟩ := Selection.exists_free_of_notMem_potential htracks hstack hpot
    exact ⟨served, below, c, hstack, hc⟩
  · obtain ⟨hmem, hpot⟩ := (noFreeColor_mem_log _).mp hwarn
    exact hpot (hpotential n hmem)

/-- With one register the middle of three nodes in a row is spilled, and it was a candidate.  With
three registers it is simplified, its two neighbours are merged after that, and it finds a register
in the end. -/
theorem simplified_finds_register_threeInARow :
    (color 1 .firstFound threeInARow SpillCosts.unknown).result.spilled = [8] ∧
      8 ∈ (color 1 .firstFound threeInARow SpillCosts.unknown).result.potentialSpills ∧
      (color 3 .lowestCost threeInARow SpillCosts.unknown).steps =
        [.simplify 1, .merge 0 2, .simplify 0] ∧
      ∃ served below c,
        (color 3 .lowestCost threeInARow SpillCosts.unknown).reduction.stack =
            served ++ 1 :: below ∧
          (Selection.ofStack 3 (color 3 .lowestCost threeInARow SpillCosts.unknown).graph
            served).free? 3 (color 3 .lowestCost threeInARow SpillCosts.unknown).graph 1 =
              some c := by
  have hspilled : (color 1 .firstFound threeInARow SpillCosts.unknown).result.spilled = [8] := by
    decide +kernel
  have hsteps : (color 3 .lowestCost threeInARow SpillCosts.unknown).steps =
      [.simplify 1, .merge 0 2, .simplify 0] := by
    decide +kernel
  refine ⟨hspilled, ?_, hsteps, ?_⟩
  · refine (simplified_finds_register fresh_threeInARow 1 .firstFound SpillCosts.unknown).1 8 ?_
    rw [hspilled]
    exact List.mem_singleton_self 8
  · refine (simplified_finds_register fresh_threeInARow 3 .lowestCost SpillCosts.unknown).2.1 1 ?_
    rw [hsteps]
    exact List.mem_cons_self

end ColoringRun

end RegAlloc
