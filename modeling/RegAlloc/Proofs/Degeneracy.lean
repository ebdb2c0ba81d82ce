import Mathlib.Data.Finset.Powerset
import RegAlloc.Proofs.ColoringCorrectness

/-!
# Degenerate graphs are coloured without a spill

A graph is **`k`-degenerate** if every non-empty set of nodes has a member with fewer than `k`
neighbours inside the set.  Such a graph can be taken apart by simplifying alone.  Merging could
spoil that: a merged node may have many neighbours.  The test that guards a merge is conservative,
and this file says exactly in which sense: it keeps the active part of a degenerate graph
degenerate (`DegenerateOn.merge`).

The argument for one merge.  Let `S` be a set of active nodes after the merge.  If the merged node
is outside `S`, nothing has changed inside `S`.  If it is inside and has at least `k` neighbours
there, then not all of them are significant, and one that was insignificant before the merge has
fewer than `k` active neighbours still, since the merge only identifies neighbours of it.

So along the whole reduction some active node has few neighbours, and a spill step is never allowed.
Conversely, without moves every step removes a node, and if none of them is a spill step, the stack
lists the nodes in an order that witnesses degeneracy.
-/

namespace RegAlloc

namespace InterferenceGraph

variable {g h : InterferenceGraph} {k : Nat} {A B : Finset NodeId} {u v n : NodeId}

/-- Every non-empty set of the given nodes has a member with fewer than `k` neighbours inside the
set. -/
def DegenerateOn (k : Nat) (g : InterferenceGraph) (nodes : Finset NodeId) : Prop :=
  ∀ S ⊆ nodes, S.Nonempty → ∃ n ∈ S, (S.filter fun m => g.interferes n m = true).card < k

/-- **A `k`-degenerate graph.** -/
def Degenerate (k : Nat) (g : InterferenceGraph) : Prop := DegenerateOn k g (Finset.range g.size)

instance : Decidable (DegenerateOn k g A) :=
  decidable_of_iff
    (∀ S ∈ A.powerset, S.Nonempty → ∃ n ∈ S, (S.filter fun m => g.interferes n m = true).card < k)
    (by simp only [Finset.mem_powerset, DegenerateOn])

instance : Decidable (g.Degenerate k) := inferInstanceAs (Decidable (DegenerateOn k g _))

theorem DegenerateOn.mono (hB : DegenerateOn k g B) (hAB : A ⊆ B) : DegenerateOn k g A :=
  fun S hS => hB S (hS.trans hAB)

theorem DegenerateOn.congr (hg : DegenerateOn k g A) (hconf : h.conflicts = g.conflicts) :
    DegenerateOn k h A := by
  intro S hS hne
  obtain ⟨n, hn, hcard⟩ := hg S hS hne
  refine ⟨n, hn, ?_⟩
  simp only [interferes, hconf] at hcard ⊢
  exact hcard

section Merge

variable (hg : g.WellFormed) (huv : u ≠ v) (hu : g.isActive u = true) (hv : g.isActive v = true)

include hg huv hu

/-- The neighbours after a merge of a node that was not merged. -/
theorem mem_neighbors_merge_of_ne (hnu : n ≠ u) {m : NodeId}
    (hm : m ∈ (g.merge u v).neighbors n) :
    ∃ m' ∈ g.neighbors n, Adjacency.rename u v m' = m := by
  have hlt : u < g.conflicts.size := hg.conflicts_size ▸ lt_size_of_isActive hu
  rw [neighbors, conflicts_merge huv] at hm
  exact ((Adjacency.mem_neighbors_merge_of_ne hg.conflicts huv hlt hnu).mp hm).2

/-- The neighbours after a merge of the merged node. -/
theorem mem_neighbors_merge_self {m : NodeId} (hm : m ∈ (g.merge u v).neighbors u) :
    (m ∈ g.neighbors u ∨ m ∈ g.neighbors v) ∧ m ≠ u ∧ m ≠ v := by
  have hlt : u < g.conflicts.size := hg.conflicts_size ▸ lt_size_of_isActive hu
  rw [neighbors, conflicts_merge huv] at hm
  exact (Adjacency.mem_neighbors_merge_self hg.conflicts huv hlt).mp hm

/-- Among nodes other than the two that are merged, a merge changes nothing. -/
theorem interferes_merge_of_ne {m : NodeId} (hnu : n ≠ u) (hmu : m ≠ u)
    (hm : (g.merge u v).interferes n m = true) : g.interferes n m = true := by
  obtain ⟨m', hm', rfl⟩ := mem_neighbors_merge_of_ne hg huv hu hnu (interferes_iff.mp hm)
  have hm'v : m' ≠ v := by
    rintro rfl
    exact hmu (Adjacency.rename_self u m')
  rw [Adjacency.rename_of_ne hm'v]
  exact interferes_iff.mpr hm'

/-- Among at least `k` neighbours of the merged node there is one that was insignificant. -/
theorem exists_insignificant (hsafe : (g.significantNeighbors k u v).size < k)
    {S : Finset NodeId} (hS : S ⊆ g.activeSet.erase v)
    (hmany : k ≤ (S.filter fun m => (g.merge u v).interferes u m = true).card) :
    ∃ w ∈ S, w ≠ u ∧ g.degree w < k := by
  by_contra hnone
  push Not at hnone
  have hsub : (S.filter fun m => (g.merge u v).interferes u m = true) ⊆
      (g.significantNeighbors k u v).toFinset := by
    intro w hw
    obtain ⟨hwS, hw⟩ := Finset.mem_filter.mp hw
    obtain ⟨hnb, hwu, hwv⟩ := mem_neighbors_merge_self hg huv hu (interferes_iff.mp hw)
    have hactive : g.isActive w = true := mem_activeSet.mp (Finset.mem_of_mem_erase (hS hwS))
    have hhigh : k ≤ g.degree w := hnone w hwS hwu
    rw [IdSet.mem_toFinset, significantNeighbors, IdSet.mem_filter]
    refine ⟨IdSet.mem_union.mpr (hnb.imp ?_ ?_), by simp [hwu, hwv, hhigh]⟩
    · exact fun h => IdSet.mem_filter.mpr ⟨h, hactive⟩
    · exact fun h => IdSet.mem_filter.mpr ⟨h, hactive⟩
  have hcard := Finset.card_le_card hsub
  rw [IdSet.card_toFinset] at hcard
  omega

include hv

/-- A merge gives no other node more neighbours among the nodes that stay active. -/
theorem card_filter_merge_le {S : Finset NodeId} (hS : S ⊆ g.activeSet.erase v) (hnu : n ≠ u) :
    (S.filter fun m => (g.merge u v).interferes n m = true).card ≤ g.degree n := by
  rw [degree, ← IdSet.card_toFinset]
  refine le_trans (Finset.card_le_card fun m hm => ?_)
    (Finset.card_image_le (f := Adjacency.rename u v))
  obtain ⟨hmS, hm⟩ := Finset.mem_filter.mp hm
  obtain ⟨m', hm', rfl⟩ := mem_neighbors_merge_of_ne hg huv hu hnu (interferes_iff.mp hm)
  refine Finset.mem_image_of_mem _ (IdSet.mem_toFinset.mpr (IdSet.mem_filter.mpr ⟨hm', ?_⟩))
  rcases eq_or_ne m' v with rfl | hm'v
  · exact hv
  · rw [Adjacency.rename_of_ne hm'v] at hmS
    exact mem_activeSet.mp (Finset.mem_of_mem_erase (hS hmS))

/-- **The test for merging is conservative:** a merge that passes it keeps the active part of the
graph degenerate. -/
theorem DegenerateOn.merge (hd : DegenerateOn k g g.activeSet)
    (hsafe : (g.significantNeighbors k u v).size < k) :
    DegenerateOn k (g.merge u v) (g.merge u v).activeSet := by
  rw [activeSet_merge huv (lt_size_of_isActive hv)]
  intro S hS hne
  by_cases huS : u ∈ S
  · by_cases hmany : k ≤ (S.filter fun m => (g.merge u v).interferes u m = true).card
    · -- an insignificant neighbour of the merged node has few neighbours still
      obtain ⟨w, hw, hwu, hlow⟩ := exists_insignificant hg huv hu hsafe hS hmany
      exact ⟨w, hw, (card_filter_merge_le hg huv hu hv hS hwu).trans_lt hlow⟩
    · exact ⟨u, huS, Nat.lt_of_not_le hmany⟩
  · obtain ⟨n, hn, hlow⟩ := hd S (hS.trans (Finset.erase_subset v _)) hne
    have hne_u : ∀ {x}, x ∈ S → x ≠ u := fun hx e => huS (e ▸ hx)
    refine ⟨n, hn, lt_of_le_of_lt (Finset.card_le_card fun m hm => ?_) hlow⟩
    obtain ⟨hmS, hm⟩ := Finset.mem_filter.mp hm
    exact Finset.mem_filter.mpr
      ⟨hmS, interferes_merge_of_ne hg huv hu (hne_u hn) (hne_u hmS) hm⟩

end Merge

end InterferenceGraph

namespace Reduction

open InterferenceGraph

variable {g : InterferenceGraph} {k : Nat} {policy : SpillPolicy} {r : Reduction} {step : Step}

/-! ## No spill step on a degenerate graph -/

/-- The active part of the graph is degenerate, and nothing was spilled so far. -/
structure Unspilled (k : Nat) (r : Reduction) : Prop where
  wellFormed : r.graph.WellFormed
  degenerate : DegenerateOn k r.graph r.graph.activeSet
  potential : ∀ n, n ∉ r.potential

/-- In a degenerate graph some active node has few neighbours. -/
theorem exists_low (hd : DegenerateOn k r.graph r.graph.activeSet) {n : NodeId}
    (hn : r.graph.isActive n = true) : ∃ m, r.graph.isActive m = true ∧ r.graph.degree m < k := by
  obtain ⟨m, hm, hlow⟩ := hd _ (Finset.Subset.refl _) ⟨n, mem_activeSet.mpr hn⟩
  refine ⟨m, mem_activeSet.mp hm, lt_of_le_of_lt ?_ hlow⟩
  rw [degree, ← IdSet.card_toFinset]
  refine Finset.card_le_card fun x hx => ?_
  obtain ⟨hx, hactive⟩ := IdSet.mem_filter.mp (IdSet.mem_toFinset.mp hx)
  exact Finset.mem_filter.mpr ⟨mem_activeSet.mpr hactive, interferes_iff.mpr hx⟩

theorem Unspilled.apply (hr : r.Unspilled k) (hs : step.Allowed k r.graph) :
    (r.apply step).Unspilled k := by
  have hwf := wellFormed_apply hr.wellFormed hs
  cases hs with
  | @simplify n active unmarked low =>
      refine ⟨hwf, ?_, hr.potential⟩
      have hsub : (r.graph.takeOut n).activeSet ⊆ r.graph.activeSet := by
        rw [activeSet_takeOut (lt_size_of_isActive active)]
        exact Finset.erase_subset n _
      exact (hr.degenerate.mono hsub).congr (conflicts_takeOut r.graph n)
  | @constrain u v left right move conflict =>
      refine ⟨hwf, ?_, hr.potential⟩
      show DegenerateOn k (r.graph.removeMove u v) (r.graph.removeMove u v).activeSet
      rw [(sameNodes_removeMove r.graph u v).activeSet]
      exact hr.degenerate.congr (conflicts_removeMove r.graph u v)
  | merge left right move free safe =>
      have huv := (hr.wellFormed.moves.ne move).symm
      exact ⟨hwf, hr.degenerate.merge hr.wellFormed huv left right safe, hr.potential⟩
  | @freeze n active marked low stuck =>
      refine ⟨hwf, ?_, hr.potential⟩
      show DegenerateOn k (r.graph.dropMoves n) (r.graph.dropMoves n).activeSet
      rw [(sameNodes_dropMoves r.graph n).activeSet]
      exact hr.degenerate.congr (conflicts_dropMoves r.graph n)
  | spill active high stuck =>
      -- a spill step needs every active node to have many neighbours
      obtain ⟨m, hm, hlow⟩ := exists_low hr.degenerate active
      exact absurd hlow (Nat.not_lt.mpr (high m hm))

/-- **A degenerate graph is reduced without a spill step.** -/
theorem notMem_potential_of_degenerate (hg : g.Fresh) (hd : g.Degenerate k)
    (policy : SpillPolicy) (costs : SpillCosts) (n : NodeId) :
    n ∉ (reduce k policy g costs).2.potential := by
  have hstart : (start g costs).Unspilled k := by
    refine ⟨hg.wellFormed, hd.mono (Finset.filter_subset _ _), fun m => IdSet.not_mem_empty m⟩
  exact (run_induction (fun hr hs => hr.apply hs) _ hstart).potential n

/-! ## Graphs without moves -/

/-- Nothing but removals has happened: there is no move, no merge, and the conflicts of `g` are
there unchanged. -/
structure OnlyRemoved (g : InterferenceGraph) (r : Reduction) : Prop where
  wellFormed : r.graph.WellFormed
  noMoves : ∀ {n m : NodeId}, m ∉ r.graph.moves.neighbors n
  noMerges : ∀ n, r.graph.mergedInto? n = none
  conflicts : r.graph.conflicts = g.conflicts

theorem OnlyRemoved.apply (hr : r.OnlyRemoved g) (hs : step.Allowed k r.graph) :
    (r.apply step).OnlyRemoved g := by
  have hwf := wellFormed_apply hr.wellFormed hs
  cases hs with
  | @simplify n active unmarked low =>
      refine ⟨hwf, hr.noMoves, fun m => ?_, hr.conflicts⟩
      exact (mergedInto?_takeOut r.graph n m).trans (hr.noMerges m)
  | constrain left right move conflict => exact absurd move hr.noMoves
  | merge left right move free safe => exact absurd move hr.noMoves
  | @freeze n active marked low stuck =>
      obtain ⟨m, hm⟩ := (hr.wellFormed.marked n).mp marked
      exact absurd hm hr.noMoves
  | @spill n active high stuck =>
      refine ⟨hwf, ?_, fun m => ?_, (conflicts_dropMoves r.graph n).trans hr.conflicts⟩
      · intro a b hab
        have hmoves : ((r.graph.dropMoves n).takeOut n).moves = r.graph.moves.isolate n :=
          moves_dropMoves r.graph n
        rw [show (r.apply (.spill n (r.graph.degree n))).graph.moves = _ from hmoves,
          Adjacency.mem_neighbors_isolate hr.wellFormed.moves] at hab
        exact hr.noMoves hab.1
      · exact (mergedInto?_takeOut _ n m).trans
          (((sameNodes_dropMoves r.graph n).mergedInto? m).trans (hr.noMerges m))

theorem onlyRemoved_reduce (hg : g.Fresh) (hmoves : ∀ u v, g.hasMove u v = false)
    (policy : SpillPolicy) (costs : SpillCosts) :
    (reduce k policy g costs).2.OnlyRemoved g := by
  refine run_induction (fun hr hs => hr.apply hs) _ ?_
  refine ⟨hg.wellFormed, fun {n m} hm => ?_, hg.untouched.mergedInto?, rfl⟩
  exact absurd ((hmoves n m).symm.trans (decide_eq_true hm)) (by simp)

/-- A list with a member of a set has a last one: no later element is in the set. -/
private theorem exists_last_mem {S : Finset NodeId} {ns : List NodeId} (h : ∃ n ∈ ns, n ∈ S) :
    ∃ above n below, ns = above ++ n :: below ∧ n ∈ S ∧ ∀ m ∈ below, m ∉ S := by
  induction ns with
  | nil =>
      obtain ⟨n, hn, -⟩ := h
      exact absurd hn List.not_mem_nil
  | cons x ns ih =>
      by_cases hlater : ∃ n ∈ ns, n ∈ S
      · obtain ⟨above, n, below, rfl, hn, hbelow⟩ := ih hlater
        exact ⟨x :: above, n, below, rfl, hn, hbelow⟩
      · obtain ⟨n, hn, hnS⟩ := h
        rcases List.mem_cons.mp hn with rfl | hn
        · exact ⟨[], n, ns, rfl, hnS, fun m hm hmS => hlater ⟨m, hm, hmS⟩⟩
        · exact absurd ⟨n, hn, hnS⟩ hlater

/-- **A stack without spill candidates witnesses degeneracy:** of any set of nodes, the one that
left first has few neighbours inside the set, because the others had not left before it. -/
theorem degenerate_of_notMem_potential (hr : r.Tracks g k) (hrem : r.OnlyRemoved g)
    (hdone : ∀ n, r.graph.isActive n = false) (hpot : ∀ n, n ∉ r.potential) :
    g.Degenerate k := by
  have hstack : ∀ n, n < g.size → n ∈ r.stack := by
    intro n hn
    rcases hasStatus_cases (hr.size.symm ▸ hn : n < r.graph.size) with hs | hs | hs
    · exact absurd ((hdone n).symm.trans hs) (by simp)
    · exact (hr.stacked.mem_iff n).mpr hs
    · obtain ⟨m, hm⟩ := (hr.forest.merged_iff n).mp hs
      exact absurd ((hrem.noMerges n).symm.trans hm) (by simp)
  intro S hS hne
  obtain ⟨x, hx⟩ := hne
  have hxlt : x < g.size := Finset.mem_range.mp (hS hx)
  obtain ⟨above, n, below, hsplit, hn, hbelow⟩ := exists_last_mem ⟨x, hstack x hxlt, hx⟩
  refine ⟨n, hn, lt_of_le_of_lt ?_ (hr.admits n below ⟨above, hsplit.symm⟩ (hpot n))⟩
  rw [← IdSet.card_toFinset]
  refine Finset.card_le_card fun m hm => ?_
  obtain ⟨hmS, hm⟩ := Finset.mem_filter.mp hm
  rw [IdSet.mem_toFinset, mem_contenders, neighbors, hrem.conflicts]
  exact ⟨interferes_iff.mp hm, fun hb => hbelow m hb hmS⟩

end Reduction

namespace ColoringRun

open InterferenceGraph

variable {g : InterferenceGraph} {k : Nat} {policy : SpillPolicy} {costs : SpillCosts}

/-- The list of potential spills is empty exactly if no node was taken out by a spill step. -/
theorem potentialSpills_eq_nil (hg : g.Fresh) :
    (color k policy g costs).result.potentialSpills = [] ↔
      ∀ n, n ∉ (color k policy g costs).reduction.potential := by
  have htracks := tracks_color k policy costs hg
  rw [result, List.filterMap_eq_nil_iff]
  constructor
  · intro hnone n hn
    have hremoved := (htracks.stacked.mem_iff n).mp (htracks.stacked.potential n hn)
    obtain ⟨s, hs⟩ := symbol?_eq_some_of_lt (lt_size_of_hasStatus hremoved)
    exact absurd ((hnone n hn).symm.trans hs) (by simp)
  · exact fun hnone n hn => absurd hn (hnone n)

theorem spilled_eq_nil (hg : g.Fresh)
    (hpot : ∀ n, n ∉ (color k policy g costs).reduction.potential) :
    (color k policy g costs).result.spilled = [] := by
  rw [result, List.filterMap_eq_nil_iff]
  intro n hn
  exact absurd (Selection.mem_potential_of_mem_spilled (tracks_color k policy costs hg) hn) (hpot n)

/-- **Merging is conservative.**  A `k`-degenerate graph is coloured with `k` registers without any
potential or actual spill, whatever moves it has and whatever the policy; and a graph without moves
that is coloured without a potential spill is `k`-degenerate. -/
theorem spills_empty_of_degenerate (hg : g.Fresh) (k : Nat) (policy : SpillPolicy)
    (costs : SpillCosts) :
    (g.Degenerate k →
      (color k policy g costs).result.potentialSpills = [] ∧
        (color k policy g costs).result.spilled = []) ∧
    ((∀ u v, g.hasMove u v = false) →
      (color k policy g costs).result.potentialSpills = [] → g.Degenerate k) := by
  constructor
  · intro hd
    have hpot : ∀ n, n ∉ (color k policy g costs).reduction.potential :=
      Reduction.notMem_potential_of_degenerate hg hd policy costs
    exact ⟨(potentialSpills_eq_nil hg).mpr hpot, spilled_eq_nil hg hpot⟩
  · intro hmoves hnil
    exact Reduction.degenerate_of_notMem_potential (tracks_color k policy costs hg)
      (Reduction.onlyRemoved_reduce hg hmoves policy costs)
      (Reduction.isActive_reduce hg.wellFormed costs) ((potentialSpills_eq_nil hg).mp hnil)

end ColoringRun

/-- Four symbols in a ring, without a move. -/
def InterferenceGraph.square : InterferenceGraph :=
  (Edit.performAll? ∅ [.addNode 1, .addNode 2, .addNode 3, .addNode 4, .addConflict 0 1,
    .addConflict 1 2, .addConflict 2 3, .addConflict 3 0]).getD ∅

theorem InterferenceGraph.fresh_square : InterferenceGraph.square.Fresh :=
  ⟨[.addNode 1, .addNode 2, .addNode 3, .addNode 4, .addConflict 0 1, .addConflict 1 2,
    .addConflict 2 3, .addConflict 3 0], by decide, by decide +kernel⟩

theorem InterferenceGraph.hasMove_square (u v : NodeId) :
    InterferenceGraph.square.hasMove u v = false := by
  have hsquare := InterferenceGraph.fresh_square.wellFormed
  have hsmall : ∀ u < 4, ∀ v < 4, InterferenceGraph.square.hasMove u v = false := by
    decide +kernel
  rw [Bool.eq_false_iff]
  intro hmove
  have hv : v ∈ InterferenceGraph.square.moves.neighbors u := of_decide_eq_true hmove
  have hsize : InterferenceGraph.square.moves.size = 4 := by decide +kernel
  have hvlt := hsquare.moves.lt_size hv
  have hult := hsquare.moves.lt_size (hsquare.moves.symm hv)
  exact absurd (hmove.symm.trans (hsmall u (hsize ▸ hult) v (hsize ▸ hvlt))) (by simp)

/-- Three symbols in a row are coloured with two registers although the outer two are merged, and
three registers for the ring need no spill step, hence the ring is `3`-degenerate; with two
registers it has one, and is not `2`-degenerate. -/
theorem ColoringRun.spills_empty_of_degenerate_threeInARow :
    InterferenceGraph.threeInARow.Degenerate 2 ∧
      (ColoringRun.color 2 .lowestCost InterferenceGraph.threeInARow
        SpillCosts.unknown).result.spilled = [] ∧
      InterferenceGraph.square.Degenerate 3 ∧ ¬ InterferenceGraph.square.Degenerate 2 := by
  have hrow : InterferenceGraph.threeInARow.Degenerate 2 := by decide +kernel
  refine ⟨hrow, ?_, ?_, by decide +kernel⟩
  · exact ((ColoringRun.spills_empty_of_degenerate InterferenceGraph.fresh_threeInARow 2
      .lowestCost SpillCosts.unknown).1 hrow).2
  · exact (ColoringRun.spills_empty_of_degenerate InterferenceGraph.fresh_square 3 .firstFound
      SpillCosts.unknown).2 InterferenceGraph.hasMove_square (by decide +kernel)

end RegAlloc
