import RegAlloc.Coloring.Basic
import RegAlloc.Proofs.SelectionLaws

/-!
# Colourings are proper

This file puts the reduction and the service together and says what the outcome means for the graph
that was given, in terms of symbols.

* `color_lt`: registers are below `k`.
* `color_ne`: symbols whose nodes interfere **in the given graph** get different registers.  The
  service compares representatives in the reduced graph; that this suffices is the quotient law of
  the reduction.
* `exists_color_iff`: a symbol has a register if and only if its representative was not spilled.
  This is where termination enters: if the reduction stopped early, there would be nodes that are
  neither served nor spilled.
-/

namespace RegAlloc

namespace ColoringRun

open InterferenceGraph

variable {g : InterferenceGraph} {k : Nat} {policy : SpillPolicy} {costs : SpillCosts}
variable {n : NodeId} {s t : SymbolId} {c d : Nat}

/-! ## Nodes and symbols -/

/-- The outcome by symbol says what the service says by node. -/
theorem color?_result (r : ColoringRun) (hg : r.graph.WellFormed) :
    r.result.color? s = some c ↔
      ∃ n, r.graph.symbol? n = some s ∧ r.selection.color? n = some c := by
  have hentry : ∀ (n : NodeId) (e : SymbolId × Nat),
      (do let s ← r.graph.symbol? n; let c ← r.selection.color? n; return (s, c)) = some e ↔
        r.graph.symbol? n = some e.1 ∧ r.selection.color? n = some e.2 := by
    rintro n ⟨s, c⟩
    cases r.graph.symbol? n <;> cases r.selection.color? n <;> simp
  -- no two nodes stand for one symbol, so no register is overwritten
  have hdistinct : r.assignments.Pairwise fun d e => d.1 ≠ e.1 := by
    rw [assignments, List.pairwise_filterMap]
    refine List.nodup_range.imp fun hne d hd e he heq => hne ?_
    rw [hentry] at hd he
    exact hg.symbols hd.1 (heq ▸ he.1)
  rw [Coloring.color?, result, IdMap.get?_insertList_empty hdistinct, assignments,
    List.mem_filterMap]
  constructor
  · rintro ⟨n, -, hn⟩
    exact ⟨n, (hentry n _).mp hn⟩
  · rintro ⟨n, hn⟩
    exact ⟨n, List.mem_range.mpr (lt_size_of_symbol? hn.1), (hentry n _).mpr hn⟩

/-- At a given node the two agree. -/
theorem color?_result_of_symbol? (r : ColoringRun) (hg : r.graph.WellFormed)
    (hn : r.graph.symbol? n = some s) : r.result.color? s = r.selection.color? n := by
  refine Option.ext fun c => ?_
  rw [r.color?_result hg]
  constructor
  · rintro ⟨m, hm, hc⟩
    rwa [hg.symbols hm hn] at hc
  · exact fun hc => ⟨n, hn, hc⟩

theorem mem_spilled_result (r : ColoringRun) (hg : r.graph.WellFormed)
    (hn : r.graph.symbol? n = some s) : s ∈ r.result.spilled ↔ n ∈ r.selection.spilled := by
  rw [result, List.mem_filterMap]
  constructor
  · rintro ⟨m, hm, hs⟩
    rwa [hg.symbols hs hn] at hm
  · exact fun hmem => ⟨n, hmem, hn⟩

/-! ## Colouring a fresh graph -/

section Fresh

variable (hg : g.Fresh) (k policy costs)

include hg

theorem tracks_color : (color k policy g costs).reduction.Tracks g k :=
  Reduction.Tracks.reduce hg k policy costs

theorem serves_color :
    (color k policy g costs).selection.Serves k (color k policy g costs).graph
      (color k policy g costs).reduction.stack :=
  Selection.serves_ofStack (tracks_color k policy costs hg)

theorem symbol?_color (n : NodeId) : (color k policy g costs).graph.symbol? n = g.symbol? n :=
  (tracks_color k policy costs hg).symbol? n

theorem color?_color (hn : g.symbol? n = some s) :
    (color k policy g costs).result.color? s = (color k policy g costs).selection.color? n :=
  color?_result_of_symbol? _ (tracks_color k policy costs hg).wellFormed
    ((symbol?_color k policy costs hg n).trans hn)

/-- Only symbols of the graph get registers. -/
theorem exists_symbol_of_color (hc : (color k policy g costs).result.color? s = some c) :
    ∃ n, g.symbol? n = some s := by
  obtain ⟨n, hn, -⟩ := (color?_result _ (tracks_color k policy costs hg).wellFormed).mp hc
  exact ⟨n, (symbol?_color k policy costs hg n).symm.trans hn⟩

/-- **Registers are below `k`.** -/
theorem color_lt (hc : (color k policy g costs).result.color? s = some c) : c < k := by
  obtain ⟨n, -, hn⟩ := (color?_result _ (tracks_color k policy costs hg).wellFormed).mp hc
  exact (serves_color k policy costs hg).lt hn

/-- **Symbols that interfere get different registers.** -/
theorem color_ne {u v : NodeId} (huv : g.interferes u v = true) (hu : g.symbol? u = some s)
    (hv : g.symbol? v = some t) (hc : (color k policy g costs).result.color? s = some c)
    (hd : (color k policy g costs).result.color? t = some d) : c ≠ d := by
  have hserves := serves_color k policy costs hg
  rw [color?_color k policy costs hg hu, ← hserves.color?_representative] at hc
  rw [color?_color k policy costs hg hv, ← hserves.color?_representative] at hd
  have hmem : v ∈ g.neighbors u := of_decide_eq_true huv
  refine hserves.apart ?_ hc hd
  exact ((tracks_color k policy costs hg).quotient _ _).mpr ⟨u, v, hmem, rfl, rfl⟩

/-- Every representative had its turn. -/
theorem representative_mem_stack (hn : n < g.size) :
    (color k policy g costs).graph.representative n ∈
      (color k policy g costs).reduction.stack := by
  have htracks := tracks_color k policy costs hg
  have hlt : n < (color k policy g costs).graph.size := htracks.size ▸ hn
  rcases hasStatus_cases (htracks.forest.representative_lt hlt) with hs | hs | hs
  · have hdone : ∀ m, (color k policy g costs).graph.isActive m = false :=
      Reduction.isActive_reduce hg.wellFormed costs
    exact absurd ((hdone _).symm.trans hs) (by simp)
  · exact (htracks.stacked.mem_iff _).mpr hs
  · exact absurd ((htracks.forest.isMerged_representative n).symm.trans hs) (by simp)

/-- **A symbol has a register if and only if its representative was not spilled.** -/
theorem exists_color_iff (hn : g.symbol? n = some s)
    (ht : (color k policy g costs).graph.symbol?
      ((color k policy g costs).graph.representative n) = some t) :
    (∃ c, (color k policy g costs).result.color? s = some c) ↔
      t ∉ (color k policy g costs).result.spilled := by
  have hserves := serves_color k policy costs hg
  rw [mem_spilled_result _ (tracks_color k policy costs hg).wellFormed ht, hserves.mem_spilled,
    color?_color k policy costs hg hn, ← hserves.color?_representative n]
  have hturn := representative_mem_stack k policy costs hg (lt_size_of_symbol? hn)
  rw [← Option.isSome_iff_exists, ← Option.ne_none_iff_isSome]
  exact ⟨fun hc e => hc e.2, fun hc e => hc ⟨hturn, e⟩⟩

/-- The representative of a node has a symbol. -/
theorem exists_symbol_representative (hn : g.symbol? n = some s) :
    ∃ t, (color k policy g costs).graph.symbol?
      ((color k policy g costs).graph.representative n) = some t := by
  have htracks := tracks_color k policy costs hg
  refine symbol?_eq_some_of_lt (htracks.forest.representative_lt ?_)
  exact htracks.size ▸ lt_size_of_symbol? hn

/-- If nothing was spilled, every symbol has a register. -/
theorem exists_color_of_isComplete (hcomplete : (color k policy g costs).result.isComplete = true)
    (hn : g.symbol? n = some s) : ∃ c, (color k policy g costs).result.color? s = some c := by
  obtain ⟨t, ht⟩ := exists_symbol_representative k policy costs hg hn
  refine (exists_color_iff k policy costs hg hn ht).mpr ?_
  rw [Coloring.isComplete, List.isEmpty_iff] at hcomplete
  rw [hcomplete]
  exact List.not_mem_nil

end Fresh

end ColoringRun

/-! ## The colouring theorem -/

/-- **Colouring a fresh graph is sound and accounts for every node.**  For any number of registers,
policy and costs: registers are below `k`; nodes that interfere in the given graph never hold the
same one; of every node, either its symbol has a register or the symbol of its representative is
listed as spilled, and never both; so a complete colouring gives every node's symbol a register. -/
theorem ColoringRun.fresh_coloring_sound {g : InterferenceGraph} (hg : g.Fresh) (k : Nat)
    (policy : SpillPolicy) (costs : SpillCosts) :
    let run := ColoringRun.color k policy g costs
    (∀ s c, run.result.color? s = some c → c < k) ∧
    (∀ u v s t c d, g.interferes u v = true → g.symbol? u = some s → g.symbol? v = some t →
      run.result.color? s = some c → run.result.color? t = some d → c ≠ d) ∧
    (∀ n s, g.symbol? n = some s →
      Xor (∃ c, run.result.color? s = some c)
        (∃ t ∈ run.result.spilled, run.graph.symbol? (run.graph.representative n) = some t)) ∧
    (run.result.isComplete = true →
      ∀ n s, g.symbol? n = some s → ∃ c, run.result.color? s = some c) := by
  refine ⟨fun s c hc => color_lt k policy costs hg hc,
    fun u v s t c d huv hu hv hc hd => color_ne k policy costs hg huv hu hv hc hd,
    fun n s hn => ?_, fun hcomplete n s hn => exists_color_of_isComplete k policy costs hg
      hcomplete hn⟩
  obtain ⟨t, ht⟩ := exists_symbol_representative k policy costs hg hn
  have hiff := exists_color_iff k policy costs hg hn ht
  rw [xor_iff_iff_not, hiff, not_iff_not]
  constructor
  · exact fun hmem => ⟨t, hmem, ht⟩
  · rintro ⟨t', hmem, ht'⟩
    rw [ht] at ht'
    cases ht'
    exact hmem

/-- Three nodes in a row: the middle one interferes with both ends, and a move joins the ends. -/
def InterferenceGraph.threeInARow : InterferenceGraph :=
  (Edit.performAll? ∅ [.addNode 7, .addNode 8, .addNode 9, .addConflict 0 1, .addConflict 1 2,
    .addMove 0 2]).getD ∅

theorem InterferenceGraph.fresh_threeInARow : InterferenceGraph.threeInARow.Fresh :=
  ⟨[.addNode 7, .addNode 8, .addNode 9, .addConflict 0 1, .addConflict 1 2, .addMove 0 2],
    by decide, by decide +kernel⟩

/-- With one register the middle node is spilled, and the theorem tells the two kinds apart. -/
theorem ColoringRun.fresh_coloring_sound_threeInARow :
    let run := ColoringRun.color 1 .firstFound InterferenceGraph.threeInARow SpillCosts.unknown
    run.result.spilled = [8] ∧ run.result.color? 7 = some 0 ∧
      Xor (∃ c, run.result.color? 8 = some c)
        (∃ t ∈ run.result.spilled, run.graph.symbol? (run.graph.representative 1) = some t) :=
  ⟨by decide +kernel, by decide +kernel,
    (ColoringRun.fresh_coloring_sound InterferenceGraph.fresh_threeInARow 1 .firstFound
      SpillCosts.unknown).2.2.1 1 8 (by decide +kernel)⟩

/-- A chain of two copies whose ends interfere. -/
def InterferenceGraph.tornChain : InterferenceGraph :=
  (Edit.performAll? ∅ [.addNode 4, .addNode 5, .addNode 6, .addMove 0 1, .addMove 1 2,
    .addConflict 0 2]).getD ∅

theorem InterferenceGraph.fresh_tornChain : InterferenceGraph.tornChain.Fresh :=
  ⟨[.addNode 4, .addNode 5, .addNode 6, .addMove 0 1, .addMove 1 2, .addConflict 0 2], by decide,
    by decide +kernel⟩

end RegAlloc
