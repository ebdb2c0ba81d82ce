import RegAlloc.Coloring.Reduction
import RegAlloc.Proofs.MergeForest

/-!
# The steps of a reduction

`Reduction.next?` looks for a step in five ways, one after the other.  What a proof needs to know
about the outcome is not how it was found but **what it required of the graph**, and that is
`Step.Allowed`: one constructor per kind of step, with the guards that held.  `next?_allowed` is the
only place where the search is opened; every invariant of the reduction is a case split on `Allowed`
and a use of `run_induction`.

A step either takes a node out of the graph or spends a move.  `InterferenceGraph.weight` counts an
active node twice and a move once per end, and each step spends at least two (`weight_apply`), so
the budget that `reduce` grants is never exhausted: at the end no node is active
(`isActive_reduce`).
-/

namespace RegAlloc

/-- **What a step requires of the graph** it is applied to. -/
inductive Step.Allowed (k : Nat) (g : InterferenceGraph) : Step → Prop
  /-- A node without moves and with few neighbours may be taken out. -/
  | simplify {n : NodeId} (active : g.isActive n = true) (unmarked : g.isMoveRelated n = false)
      (low : g.degree n < k) : Allowed k g (.simplify n)
  /-- A move between nodes that interfere is hopeless. -/
  | constrain {u v : NodeId} (left : g.isActive u = true) (right : g.isActive v = true)
      (move : v ∈ g.moves.neighbors u) (conflict : v ∈ g.neighbors u) : Allowed k g (.constrain u v)
  /-- Two nodes joined by a move may be merged if that is safe. -/
  | merge {u v : NodeId} (left : g.isActive u = true) (right : g.isActive v = true)
      (move : v ∈ g.moves.neighbors u) (free : v ∉ g.neighbors u)
      (safe : (g.significantNeighbors k u v).size < k) : Allowed k g (.merge u v)
  /-- The moves of a node with few neighbours are given up if no move can be settled. -/
  | freeze {n : NodeId} (active : g.isActive n = true) (marked : g.isMoveRelated n = true)
      (low : g.degree n < k) (stuck : g.firstMoveStep? k = none) : Allowed k g (.freeze n)
  /-- A node is given up only if every node has many neighbours. -/
  | spill {n : NodeId} (active : g.isActive n = true)
      (high : ∀ m, g.isActive m = true → k ≤ g.degree m) (stuck : g.firstMoveStep? k = none) :
      Allowed k g (.spill n (g.degree n))

namespace InterferenceGraph

variable {g : InterferenceGraph} {k : Nat}

/-! ## What the search finds -/

theorem simplifiable?_eq_some {n : NodeId} (h : g.simplifiable? k = some n) :
    g.isActive n = true ∧ g.isMoveRelated n = false ∧ g.degree n < k := by
  have hactive := mem_activeNodes.mp (List.mem_of_find?_eq_some h)
  have hguard := List.find?_some h
  rw [Bool.and_eq_true, Bool.not_eq_true', decide_eq_true_eq] at hguard
  exact ⟨hactive, hguard⟩

theorem simplifiable?_eq_none (h : g.simplifiable? k = none) {n : NodeId}
    (hn : g.isActive n = true) (hm : g.isMoveRelated n = false) : k ≤ g.degree n := by
  have hguard := List.find?_eq_none.mp h n (mem_activeNodes.mpr hn)
  rw [hm] at hguard
  simpa using hguard

theorem freezable?_eq_some {n : NodeId} (h : g.freezable? k = some n) :
    g.isActive n = true ∧ g.isMoveRelated n = true ∧ g.degree n < k := by
  have hactive := mem_activeNodes.mp (List.mem_of_find?_eq_some h)
  have hguard := List.find?_some h
  rw [Bool.and_eq_true, decide_eq_true_eq] at hguard
  exact ⟨hactive, hguard⟩

theorem freezable?_eq_none (h : g.freezable? k = none) {n : NodeId}
    (hn : g.isActive n = true) (hm : g.isMoveRelated n = true) : k ≤ g.degree n := by
  have hguard := List.find?_eq_none.mp h n (mem_activeNodes.mpr hn)
  rw [hm] at hguard
  simpa using hguard

theorem firstMoveStep?_eq_some {step : Step} (h : g.firstMoveStep? k = some step) :
    step.Allowed k g := by
  obtain ⟨u, hu, h⟩ := List.exists_of_findSome?_eq_some h
  obtain ⟨v, hv, h⟩ := List.exists_of_findSome?_eq_some h
  have hleft := mem_activeNodes.mp (List.mem_filter.mp hu).1
  obtain ⟨hmove, hright⟩ := IdSet.mem_filter.mp hv
  rw [moveStep?] at h
  split at h
  · rename_i hconf
    cases h
    exact Step.Allowed.constrain hleft hright hmove (of_decide_eq_true hconf)
  · rename_i hconf
    split at h
    · rename_i hsafe
      cases h
      exact Step.Allowed.merge hleft hright hmove (fun hm => hconf (decide_eq_true hm))
        (of_decide_eq_true hsafe)
    · exact absurd h (by simp)

/-- If no move can be settled, a move between active nodes joins nodes that do not interfere and
cannot be merged safely. -/
theorem firstMoveStep?_eq_none (h : g.firstMoveStep? k = none) (hg : g.WellFormed) {u v : NodeId}
    (hu : g.isActive u = true) (hv : g.isActive v = true) (hmove : v ∈ g.moves.neighbors u) :
    v ∉ g.neighbors u ∧ k ≤ (g.significantNeighbors k u v).size := by
  have hmarked : g.isMoveRelated u = true := (hg.marked u).mpr ⟨v, hmove⟩
  have hpartners := List.findSome?_eq_none_iff.mp h u
    (List.mem_filter.mpr ⟨mem_activeNodes.mpr hu, hmarked⟩)
  have hstep : g.moveStep? k u v = none :=
    List.findSome?_eq_none_iff.mp hpartners v (IdSet.mem_filter.mpr ⟨hmove, hv⟩)
  rw [moveStep?] at hstep
  split at hstep
  · exact absurd hstep (by simp)
  · rename_i hconf
    split at hstep
    · exact absurd hstep (by simp)
    · rename_i hsafe
      refine ⟨fun hmem => hconf (interferes_iff.mpr hmem), ?_⟩
      exact Nat.not_lt.mp fun hlt => hsafe (decide_eq_true hlt)

/-- A fold that keeps the best so far or takes the new element ends with an element of the list,
and ends with something once there is something. -/
private theorem foldl_choose {β : Type} {f : Option (NodeId × β) → NodeId → Option (NodeId × β)}
    (hf : ∀ best n, ∃ p, f best n = some p ∧ (p.1 = n ∨ best = some p)) (ns : List NodeId)
    (best : Option (NodeId × β)) :
    ((ns.foldl f best).isSome = (best.isSome || !ns.isEmpty)) ∧
      ∀ p, ns.foldl f best = some p → p.1 ∈ ns ∨ best = some p := by
  induction ns generalizing best with
  | nil => simp
  | cons n ns ih =>
      obtain ⟨q, hq, hqn⟩ := hf best n
      obtain ⟨hsome, hmem⟩ := ih (f best n)
      rw [List.foldl_cons]
      refine ⟨by rw [hsome, hq]; simp, fun p hp => ?_⟩
      rcases hmem p hp with hp | hp
      · exact Or.inl (List.mem_cons_of_mem n hp)
      · rw [hq] at hp
        cases hp
        exact hqn.imp (fun hqn => List.mem_cons.mpr (Or.inl hqn)) id

private theorem map_foldl_choose {β : Type}
    {f : Option (NodeId × β) → NodeId → Option (NodeId × β)}
    (hf : ∀ best n, ∃ p, f best n = some p ∧ (p.1 = n ∨ best = some p)) (ns : List NodeId) :
    (((ns.foldl f none).map Prod.fst).isSome = !ns.isEmpty) ∧
      ∀ n, (ns.foldl f none).map Prod.fst = some n → n ∈ ns := by
  obtain ⟨hsome, hmem⟩ := foldl_choose hf ns none
  refine ⟨?_, fun n hn => ?_⟩
  · rw [Option.isSome_map]
    exact hsome
  · obtain ⟨p, hp, rfl⟩ := Option.map_eq_some_iff.mp hn
    exact (hmem p hp).resolve_right (by simp)

private theorem cheapest?_spec (g : InterferenceGraph) (costs : SpillCosts) (ns : List NodeId) :
    ((g.cheapest? costs ns).isSome = !ns.isEmpty) ∧
      ∀ n, g.cheapest? costs ns = some n → n ∈ ns := by
  unfold cheapest?
  refine map_foldl_choose (fun best n => ?_) ns
  cases best with
  | none => exact ⟨_, rfl, Or.inl rfl⟩
  | some p =>
      by_cases hp : g.spillPriority costs n < p.2
      · exact ⟨_, if_pos hp, Or.inl rfl⟩
      · exact ⟨p, if_neg hp, Or.inr rfl⟩

theorem isActive_of_victim? {policy : SpillPolicy} {costs : SpillCosts} {n : NodeId}
    (h : g.victim? policy costs = some n) : g.isActive n = true := by
  rw [← mem_activeNodes]
  cases policy with
  | firstFound => exact List.mem_of_head? h
  | lowestCost => exact (cheapest?_spec g costs _).2 n h

theorem activeNodes_of_victim?_eq_none {policy : SpillPolicy} {costs : SpillCosts}
    (h : g.victim? policy costs = none) : g.activeNodes = [] := by
  cases policy with
  | firstFound => exact List.head?_eq_none_iff.mp h
  | lowestCost =>
      have hsome := (cheapest?_spec g costs g.activeNodes).1
      have hnone : g.cheapest? costs g.activeNodes = none := h
      rw [hnone] at hsome
      simpa using hsome

end InterferenceGraph

namespace Reduction

open InterferenceGraph

variable {k : Nat} {policy : SpillPolicy} {r : Reduction} {step : Step}

/-- **Every step that is chosen is allowed.** -/
theorem next?_allowed (h : r.next? k policy = some step) : step.Allowed k r.graph := by
  rw [next?] at h
  split at h
  · rename_i n hn
    cases h
    obtain ⟨hactive, hmark, hlow⟩ := simplifiable?_eq_some hn
    exact Step.Allowed.simplify hactive hmark hlow
  · rename_i hsimp
    split at h
    · rename_i s hs
      cases h
      exact firstMoveStep?_eq_some hs
    · rename_i hstuck
      split at h
      · rename_i n hn
        cases h
        obtain ⟨hactive, hmark, hlow⟩ := freezable?_eq_some hn
        exact Step.Allowed.freeze hactive hmark hlow hstuck
      · rename_i hfreeze
        obtain ⟨n, hn, rfl⟩ := Option.map_eq_some_iff.mp h
        refine Step.Allowed.spill (isActive_of_victim? hn) (fun m hm => ?_) hstuck
        cases hmark : r.graph.isMoveRelated m with
        | false => exact simplifiable?_eq_none hsimp hm hmark
        | true => exact freezable?_eq_none hfreeze hm hmark

/-- A reduction goes on as long as a node is active. -/
theorem isActive_of_next?_eq_none (h : r.next? k policy = none) (n : NodeId) :
    r.graph.isActive n = false := by
  rw [next?] at h
  split at h
  · exact absurd h (by simp)
  · split at h
    · exact absurd h (by simp)
    · split at h
      · exact absurd h (by simp)
      · have hnone := activeNodes_of_victim?_eq_none (Option.map_eq_none_iff.mp h)
        rw [Bool.eq_false_iff]
        intro hn
        rw [← mem_activeNodes, hnone] at hn
        exact absurd hn List.not_mem_nil

/-- **What every allowed step preserves, a whole run preserves.** -/
theorem run_induction {P : Reduction → Prop}
    (hstep : ∀ {r : Reduction} {step : Step}, P r → step.Allowed k r.graph → P (r.apply step))
    (budget : Nat) {r : Reduction} (hr : P r) : P (run k policy budget r).2 := by
  induction budget generalizing r with
  | zero => exact hr
  | succ budget ih =>
      cases hnext : r.next? k policy with
      | none =>
          rw [run_succ_none budget hnext]
          exact hr
      | some step =>
          rw [run_succ_some budget hnext]
          exact ih (hstep hr (next?_allowed hnext))

end Reduction

/-! ## Counting active nodes -/

namespace InterferenceGraph

variable {g h : InterferenceGraph} {a b n : NodeId}

/-- The nodes still in the graph, as a finite set of the library. -/
def activeSet (g : InterferenceGraph) : Finset NodeId :=
  (Finset.range g.size).filter fun n => g.isActive n = true

@[simp] theorem mem_activeSet : n ∈ g.activeSet ↔ g.isActive n = true := by
  rw [activeSet, Finset.mem_filter, Finset.mem_range]
  exact and_iff_right_of_imp lt_size_of_isActive

theorem card_activeSet_le (g : InterferenceGraph) : g.activeSet.card ≤ g.size := by
  rw [← Finset.card_range g.size]
  exact Finset.card_filter_le _ _

theorem SameNodes.activeSet (hgh : SameNodes g h) : g.activeSet = h.activeSet := by
  ext n
  rw [mem_activeSet, mem_activeSet, hgh.isActive]

theorem activeSet_takeOut (hn : n < g.size) : (g.takeOut n).activeSet = g.activeSet.erase n := by
  ext m
  rw [mem_activeSet, Finset.mem_erase, mem_activeSet, isActive, hasStatus_takeOut hn]
  by_cases hmn : m = n
  · simp [hmn]
  · simp [hmn, isActive]

theorem activeSet_merge (hab : a ≠ b) (hb : b < g.size) :
    (g.merge a b).activeSet = g.activeSet.erase b := by
  ext m
  rw [mem_activeSet, Finset.mem_erase, mem_activeSet, isActive_merge hab hb]

theorem isMerged_of_isActive (hn : g.isActive n = true) : g.isMerged n = false := by
  rw [Bool.eq_false_iff]
  intro hm
  exact absurd (hasStatus_unique hn hm) (by simp)

/-- What a reduction may spend: two for each active node, one for each end of a move. -/
def weight (g : InterferenceGraph) : Nat := 2 * g.activeSet.card + g.moves.totalDegree

end InterferenceGraph

/-! ## What a step keeps, and what it spends -/

namespace Reduction

open InterferenceGraph

variable {k : Nat} {policy : SpillPolicy} {r : Reduction} {step : Step}

/-- **A step keeps a graph well-formed.** -/
theorem wellFormed_apply (hg : r.graph.WellFormed) (hs : step.Allowed k r.graph) :
    (r.apply step).graph.WellFormed := by
  cases hs with
  | simplify active unmarked low => exact hg.takeOut _
  | constrain left right move conflict => exact hg.removeMove _ _
  | merge left right move free safe =>
      exact hg.merge (hg.moves.ne move).symm (lt_size_of_isActive left)
  | freeze active marked low stuck => exact hg.dropMoves _
  | spill active high stuck => exact (hg.dropMoves _).takeOut _

/-- **A step keeps the forest of merges.** -/
theorem mergeForest_apply (hg : r.graph.WellFormed) (hf : r.graph.MergeForest)
    (hs : step.Allowed k r.graph) : (r.apply step).graph.MergeForest := by
  cases hs with
  | simplify active unmarked low =>
      exact hf.takeOut (lt_size_of_isActive active) (isMerged_of_isActive active)
  | @constrain u v left right move conflict =>
      exact hf.of_sameNodes (sameNodes_removeMove r.graph u v)
  | merge left right move free safe =>
      exact hf.merge (hg.moves.ne move).symm (lt_size_of_isActive left) (lt_size_of_isActive right)
        (isMerged_of_isActive left) (isMerged_of_isActive right)
  | @freeze n active marked low stuck => exact hf.of_sameNodes (sameNodes_dropMoves r.graph n)
  | @spill n active high stuck =>
      have hsame := sameNodes_dropMoves r.graph n
      refine (hf.of_sameNodes hsame).takeOut ?_ ?_
      · rw [hsame.size]
        exact lt_size_of_isActive active
      · rw [hsame.isMerged]
        exact isMerged_of_isActive active

/-- **Every step spends at least two.** -/
theorem weight_apply (hg : r.graph.WellFormed) (hs : step.Allowed k r.graph) :
    (r.apply step).graph.weight + 2 ≤ r.graph.weight := by
  have hleave : ∀ {n : NodeId}, r.graph.isActive n = true →
      (r.graph.activeSet.erase n).card + 1 = r.graph.activeSet.card :=
    fun hn => Finset.card_erase_add_one (mem_activeSet.mpr hn)
  cases hs with
  | @simplify n active unmarked low =>
      show (r.graph.takeOut n).weight + 2 ≤ _
      rw [weight, weight, activeSet_takeOut (lt_size_of_isActive active), moves_takeOut,
        ← hleave active]
      omega
  | @constrain u v left right move conflict =>
      show (r.graph.removeMove u v).weight + 2 ≤ _
      rw [weight, weight, (sameNodes_removeMove r.graph u v).activeSet, moves_removeMove]
      have hspent := hg.moves.totalDegree_unlink move
      omega
  | @merge u v left right move free safe =>
      have huv : u ≠ v := (hg.moves.ne move).symm
      show (r.graph.merge u v).weight + 2 ≤ _
      rw [weight, weight, activeSet_merge huv (lt_size_of_isActive right), moves_merge huv,
        ← hleave right]
      have hspent := hg.moves.totalDegree_merge move
      omega
  | @freeze n active marked low stuck =>
      obtain ⟨m, hm⟩ := (hg.marked n).mp marked
      show (r.graph.dropMoves n).weight + 2 ≤ _
      rw [weight, weight, (sameNodes_dropMoves r.graph n).activeSet, moves_dropMoves]
      have hspent := hg.moves.totalDegree_isolate hm
      omega
  | @spill n active high stuck =>
      have hsame := sameNodes_dropMoves r.graph n
      have hn : n < (r.graph.dropMoves n).size := by
        rw [hsame.size]
        exact lt_size_of_isActive active
      show ((r.graph.dropMoves n).takeOut n).weight + 2 ≤ _
      rw [weight, weight, activeSet_takeOut hn, moves_takeOut, hsame.activeSet, moves_dropMoves,
        ← hleave active]
      have hspent := hg.moves.totalDegree_isolate_le n
      omega

/-- A run that may spend all its graph weighs ends with no active node. -/
theorem isActive_run {budget : Nat} (hg : r.graph.WellFormed)
    (hbudget : r.graph.weight ≤ 2 * budget) (n : NodeId) :
    (run k policy budget r).2.graph.isActive n = false := by
  induction budget generalizing r with
  | zero =>
      rw [run_zero, Bool.eq_false_iff]
      intro hn
      have hpos : 0 < r.graph.activeSet.card := Finset.card_pos.mpr ⟨n, mem_activeSet.mpr hn⟩
      rw [weight] at hbudget
      omega
  | succ budget ih =>
      cases hnext : r.next? k policy with
      | none =>
          rw [run_succ_none budget hnext]
          exact isActive_of_next?_eq_none hnext n
      | some step =>
          rw [run_succ_some budget hnext]
          have hs := next?_allowed hnext
          have hspent := weight_apply hg hs
          exact ih (wellFormed_apply hg hs) (by omega)

/-- **The reduction runs to its end:** the budget that is granted suffices. -/
theorem isActive_reduce {graph : InterferenceGraph} (hg : graph.WellFormed) (costs : SpillCosts)
    (n : NodeId) : (reduce k policy graph costs).2.graph.isActive n = false := by
  refine isActive_run hg ?_ n
  have hcard := graph.card_activeSet_le
  show graph.weight ≤ 2 * (graph.size + graph.moves.totalDegree)
  rw [weight]
  omega

end Reduction

end RegAlloc
