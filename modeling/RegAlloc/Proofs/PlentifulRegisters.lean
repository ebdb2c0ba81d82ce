import RegAlloc.Proofs.Degeneracy

/-!
# A register for every node

If there are at least as many registers as nodes, no node has as many active neighbours as there are
registers: nothing has to be spilled, every merge is safe, and the reduction gives up no move that
could be carried out.  What remains to be shown is that **every move is settled in the end**: its
two nodes have been merged, or they stand for classes that interfere.

Moves leave the graph in several ways, and a move that was settled must stay settled while later
merges change the classes of its nodes.  `SettlesMoves` says what becomes of an original move: its
nodes have one representative, or their representatives interfere, or a move between the
representatives is still there.  The last case is empty at the end because of the second half of the
invariant, **only active nodes have moves**: a node is simplified only without moves, a merge hands
the moves of a node on, and it is freezing and spilling that would leave a move behind; neither is
ever allowed here (`not_freeze_of_size_le`, `not_spill_of_size_le`).
-/

namespace RegAlloc

namespace InterferenceGraph

variable {origin g : InterferenceGraph} {k : Nat} {u v n : NodeId}

/-! ## Few nodes -/

/-- A node has fewer neighbours than there are nodes. -/
theorem degree_lt_size (hg : g.WellFormed) (hn : n < g.size) : g.degree n < g.size := by
  have hsub : (g.activeNeighbors n).toFinset ⊆ (Finset.range g.size).erase n := by
    intro m hm
    have hmem : m ∈ g.neighbors n := (IdSet.mem_filter.mp (IdSet.mem_toFinset.mp hm)).1
    exact Finset.mem_erase.mpr
      ⟨hg.conflicts.ne hmem, Finset.mem_range.mpr (hg.lt_size_of_neighbor hmem)⟩
  calc g.degree n
      = (g.activeNeighbors n).toFinset.card := (IdSet.card_toFinset _).symm
    _ ≤ ((Finset.range g.size).erase n).card := Finset.card_le_card hsub
    _ < (Finset.range g.size).card := Finset.card_erase_lt_of_mem (Finset.mem_range.mpr hn)
    _ = g.size := Finset.card_range _

/-- A graph is degenerate for as many registers as it has nodes. -/
theorem degenerate_of_size_le (hg : g.WellFormed) (hk : g.size ≤ k) : g.Degenerate k := by
  rintro S hS ⟨n, hn⟩
  refine ⟨n, hn, ?_⟩
  have hproper : (S.filter fun m => g.interferes n m = true) ⊂ S := by
    refine Finset.filter_ssubset.mpr ⟨n, hn, fun hself => ?_⟩
    exact hg.conflicts.irrefl n (interferes_iff.mp hself)
  calc (S.filter fun m => g.interferes n m = true).card
      < S.card := Finset.card_lt_card hproper
    _ ≤ (Finset.range g.size).card := Finset.card_le_card hS
    _ = g.size := Finset.card_range _
    _ ≤ k := hk

/-- No neighbour counts as significant. -/
theorem size_significantNeighbors (hg : g.WellFormed) (hk : g.size ≤ k) (u v : NodeId) :
    (g.significantNeighbors k u v).size = 0 := by
  rw [← IdSet.card_toFinset, Finset.card_eq_zero]
  refine Finset.eq_empty_of_forall_notMem fun m hm => ?_
  obtain ⟨hmem, hguard⟩ := IdSet.mem_filter.mp (IdSet.mem_toFinset.mp hm)
  have hlt : m < g.size := by
    rcases IdSet.mem_union.mp hmem with h | h
    · exact hg.lt_size_of_neighbor (IdSet.mem_filter.mp h).1
    · exact hg.lt_size_of_neighbor (IdSet.mem_filter.mp h).1
  have hhigh : k ≤ g.degree m := of_decide_eq_true (Bool.and_eq_true_iff.mp hguard).2
  have hlow := degree_lt_size hg hlt
  omega

/-! ## What becomes of a move -/

/-- **Every original move is settled or still there,** and only active nodes have moves. -/
structure SettlesMoves (origin g : InterferenceGraph) : Prop where
  /-- The nodes of a move are in one class, or their classes interfere, or a move joins them. -/
  outcome : ∀ {x y : NodeId}, y ∈ origin.moves.neighbors x →
    g.representative x = g.representative y ∨
      g.representative y ∈ g.neighbors (g.representative x) ∨
      g.representative y ∈ g.moves.neighbors (g.representative x)
  /-- Nodes that have left the graph have no moves. -/
  active : ∀ {a b : NodeId}, b ∈ g.moves.neighbors a → g.isActive b = true

theorem SettlesMoves.of_untouched (hg : g.WellFormed) (hu : g.Untouched) : SettlesMoves g g where
  outcome {x y} hy := by
    rw [hu.representative, hu.representative]
    exact Or.inr (Or.inr hy)
  active hb := hu.isActive _ (hg.moves_size ▸ hg.moves.lt_size hb)

/-- A node without moves may leave. -/
theorem SettlesMoves.takeOut (hm : SettlesMoves origin g) (hg : g.WellFormed)
    (hn : g.isActive n = true) (hunmarked : g.isMoveRelated n = false) :
    SettlesMoves origin (g.takeOut n) where
  outcome {x y} hy := by
    rw [representative_takeOut, representative_takeOut]
    exact hm.outcome hy
  active {a b} hb := by
    have hbn : b ≠ n := by
      rintro rfl
      have hmarked := (hg.marked b).mpr ⟨a, hg.moves.symm hb⟩
      exact absurd (hunmarked.symm.trans hmarked) (by simp)
    rw [isActive, hasStatus_takeOut (lt_size_of_isActive hn), if_neg hbn]
    exact hm.active hb

/-- A move between nodes that interfere may go. -/
theorem SettlesMoves.removeMove (hm : SettlesMoves origin g) (hg : g.WellFormed)
    (hconf : v ∈ g.neighbors u) : SettlesMoves origin (g.removeMove u v) where
  outcome {x y} hy := by
    have hrep := (sameNodes_removeMove g u v).representative
    rw [hrep, hrep, neighbors, conflicts_removeMove, moves_removeMove,
      Adjacency.mem_neighbors_unlink]
    rcases hm.outcome hy with h | h | h
    · exact Or.inl h
    · exact Or.inr (Or.inl h)
    · by_cases hdropped : g.representative y ∈ g.neighbors (g.representative x)
      · exact Or.inr (Or.inl hdropped)
      · -- the move that is dropped is between nodes that interfere, so it is another one
        refine Or.inr (Or.inr ⟨h, ?_, ?_⟩)
        · rintro ⟨hx, hy⟩
          exact hdropped (hx.symm ▸ hy.symm ▸ hconf)
        · rintro ⟨hx, hy⟩
          exact hdropped (hx.symm ▸ hy.symm ▸ hg.conflicts.symm hconf)
  active {a b} hb := by
    rw [moves_removeMove, Adjacency.mem_neighbors_unlink] at hb
    rw [(sameNodes_removeMove g u v).isActive]
    exact hm.active hb.1

/-- **What is settled stays settled through a merge,** and so does what is still to be settled:
conflicts and moves between classes go over to the classes that these become. -/
theorem SettlesMoves.merge (hm : SettlesMoves origin g) (hg : g.WellFormed) (hf : g.MergeForest)
    (hu : g.isActive u = true) (hv : g.isActive v = true) (huv : u ≠ v) :
    SettlesMoves origin (g.merge u v) where
  outcome {x y} hy := by
    have hrep := hf.representative_merge huv (lt_size_of_isActive hv) (isMerged_of_isActive hu)
      (isMerged_of_isActive hv)
    have hlt := lt_size_of_isActive hu
    rw [hrep, hrep, neighbors, conflicts_merge huv, moves_merge huv,
      Adjacency.mem_neighbors_merge hg.conflicts huv (hg.conflicts_size ▸ hlt),
      Adjacency.mem_neighbors_merge hg.moves huv (hg.moves_size ▸ hlt)]
    by_cases hone :
        Adjacency.rename u v (g.representative x) = Adjacency.rename u v (g.representative y)
    · exact Or.inl hone
    · rcases hm.outcome hy with h | h | h
      · exact Or.inl (congrArg _ h)
      · exact Or.inr (Or.inl ⟨hone, _, _, h, rfl, rfl⟩)
      · exact Or.inr (Or.inr ⟨hone, _, _, h, rfl, rfl⟩)
  active {a b} hb := by
    rw [moves_merge huv, Adjacency.mem_neighbors_merge hg.moves huv
      (hg.moves_size ▸ lt_size_of_isActive hu)] at hb
    obtain ⟨-, a', b', hb', -, rfl⟩ := hb
    refine (isActive_merge huv (lt_size_of_isActive hv)).mpr ⟨Adjacency.rename_ne huv b', ?_⟩
    exact isActive_rename hu (hm.active hb')

end InterferenceGraph

namespace Reduction

open InterferenceGraph

variable {origin : InterferenceGraph} {k : Nat} {policy : SpillPolicy} {r : Reduction} {step : Step}

/-! ## The steps that are never made -/

/-- A node has moves to active nodes only, and one of them could be settled instead. -/
theorem not_freeze_of_size_le (hr : r.Tracks origin k) (hm : SettlesMoves origin r.graph)
    (hk : origin.size ≤ k) (n : NodeId) : ¬ Step.Allowed k r.graph (.freeze n) := by
  intro hs
  cases hs with
  | freeze active marked low stuck =>
      obtain ⟨m, hmove⟩ := (hr.wellFormed.marked n).mp marked
      have hsafe := (firstMoveStep?_eq_none stuck hr.wellFormed active (hm.active hmove) hmove).2
      rw [size_significantNeighbors hr.wellFormed (hr.size ▸ hk)] at hsafe
      exact absurd low (by omega)

/-- No active node has many neighbours. -/
theorem not_spill_of_size_le (hr : r.Tracks origin k) (hk : origin.size ≤ k) (n : NodeId)
    (degree : Nat) : ¬ Step.Allowed k r.graph (.spill n degree) := by
  intro hs
  cases hs with
  | spill active high stuck =>
      have hlow := degree_lt_size hr.wellFormed (lt_size_of_isActive active)
      have hhigh := high n active
      have hsize := hr.size
      omega

theorem settlesMoves_apply (hr : r.Tracks origin k) (hm : SettlesMoves origin r.graph)
    (hk : origin.size ≤ k) (hs : step.Allowed k r.graph) :
    SettlesMoves origin (r.apply step).graph := by
  have hg := hr.wellFormed
  cases hs with
  | simplify active unmarked low => exact hm.takeOut hg active unmarked
  | constrain left right move conflict => exact hm.removeMove hg conflict
  | merge left right move free safe =>
      exact hm.merge hg hr.forest left right (hg.moves.ne move).symm
  | freeze active marked low stuck =>
      exact absurd (.freeze active marked low stuck) (not_freeze_of_size_le hr hm hk _)
  | spill active high stuck =>
      exact absurd (.spill active high stuck) (not_spill_of_size_le hr hk _ _)

/-- **Every move is settled at the end of a reduction with plenty of registers.** -/
theorem settlesMoves_reduce (hg : origin.Fresh) (hk : origin.size ≤ k) (policy : SpillPolicy)
    (costs : SpillCosts) : SettlesMoves origin (reduce k policy origin costs).2.graph :=
  Tracks.run_induction (P := fun r => SettlesMoves origin r.graph)
    (fun hr hm hs => settlesMoves_apply hr hm hk hs) _ (Tracks.start hg k costs)
    (SettlesMoves.of_untouched hg.wellFormed hg.untouched)

end Reduction

namespace ColoringRun

open InterferenceGraph

variable {g : InterferenceGraph}

/-- **With plenty of registers every possible copy vanishes.**  Colour a fresh graph with at least
as many registers as it has nodes: the nodes of every move of the given graph have the same
representative, or their representatives interfere in the reduced graph; no node is a potential
spill; and the symbol of every node has a register. -/
theorem moves_settled_of_size_le (hg : g.Fresh) (k : Nat) (hk : g.size ≤ k) (policy : SpillPolicy)
    (costs : SpillCosts) :
    let run := color k policy g costs
    let rep := run.graph.representative
    (∀ u v, g.hasMove u v = true →
      rep u = rep v ∨ run.graph.interferes (rep u) (rep v) = true) ∧
    run.result.potentialSpills = [] ∧
    ∀ n, n < g.size → ∃ s c, g.symbol? n = some s ∧ run.result.color? s = some c := by
  intro run rep
  have hmoves : SettlesMoves g run.graph := Reduction.settlesMoves_reduce hg hk policy costs
  have hdegenerate := degenerate_of_size_le hg.wellFormed hk
  have hpot : ∀ n, n ∉ run.reduction.potential :=
    Reduction.notMem_potential_of_degenerate hg hdegenerate policy costs
  refine ⟨fun u v hmove => ?_, (potentialSpills_eq_nil hg).mpr hpot, fun n hn => ?_⟩
  · rcases hmoves.outcome (of_decide_eq_true hmove) with h | h | h
    · exact Or.inl h
    · exact Or.inr (interferes_iff.mpr h)
    · -- a move that is left would join active nodes, and there are none
      have hdone : run.graph.isActive (rep v) = false :=
        Reduction.isActive_reduce hg.wellFormed costs _
      exact absurd (hdone.symm.trans (hmoves.active h)) (by simp)
  · obtain ⟨s, hs⟩ := symbol?_eq_some_of_lt hn
    have hcomplete : run.result.isComplete = true :=
      List.isEmpty_iff.mpr (spilled_eq_nil hg hpot)
    obtain ⟨c, hc⟩ := exists_color_of_isComplete k policy costs hg hcomplete hs
    exact ⟨s, c, hs, hc⟩

end ColoringRun

/-- With three registers the first copy of the torn chain is carried out, and that makes the second
one hopeless, although its own two nodes do not interfere. -/
theorem ColoringRun.moves_settled_of_size_le_tornChain :
    let run := ColoringRun.color 3 .firstFound InterferenceGraph.tornChain SpillCosts.unknown
    run.steps = [.merge 0 1, .constrain 0 2, .simplify 0, .simplify 2] ∧
      run.graph.representative 1 ≠ run.graph.representative 2 ∧
      InterferenceGraph.tornChain.interferes 1 2 = false ∧
      run.graph.interferes (run.graph.representative 1) (run.graph.representative 2) = true ∧
      run.result.potentialSpills = [] ∧
      ∃ s c, InterferenceGraph.tornChain.symbol? 1 = some s ∧ run.result.color? s = some c := by
  intro run
  have hapart : run.graph.representative 1 ≠ run.graph.representative 2 := by decide +kernel
  obtain ⟨hmoves, hspills, hcolors⟩ := ColoringRun.moves_settled_of_size_le
    InterferenceGraph.fresh_tornChain 3 (by decide +kernel) .firstFound SpillCosts.unknown
  refine ⟨by decide +kernel, hapart, by decide +kernel, ?_, hspills, hcolors 1 (by decide +kernel)⟩
  exact (hmoves 1 2 (by decide +kernel)).resolve_left hapart

end RegAlloc
