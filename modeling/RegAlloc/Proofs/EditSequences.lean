import RegAlloc.Proofs.MergeForest

/-!
# What holds after every sequence of edits

The operations on an interference graph are public, and nothing keeps a caller from merging a node
twice, taking out a merged one or adding moves to it.  This file says what can be relied on however
the graph was made, and what only if merges are made with care.

* **In any order, on nodes in any state**, the relations of the graph stay in order and its marks
  and symbols stay right: this is `WellFormed`, read off for the functions that callers use
  (`edited_graph_coherent`).
* **Representatives need care.**  If `b` was merged into `a` and is then made to take in `a`, the
  links between the two go round in a circle, and following them never ends.  A sequence that
  merges only two different unmerged nodes, and takes out only unmerged ones, keeps the links a
  forest (`MergeForest.perform?`).

`EndsAt` is the loop that follows links, without a budget: it says where the loop stops, and has no
derivation if the loop does not stop.
-/

namespace RegAlloc

namespace Edit

/-- Whether an edit leaves merged nodes as they are: it merges two different nodes of which neither
was merged before, and takes out no merged node. -/
def sparesMerged (g : InterferenceGraph) : Edit → Bool
  | .merge a b => decide (a ≠ b) && (!g.isMerged a && !g.isMerged b)
  | .takeOut n => !g.isMerged n
  | .addNode _ | .addConflict _ _ | .removeConflict _ _ => true
  | .addMove _ _ | .removeMove _ _ | .dropMoves _ => true

/-- Whether each edit of a sequence does so when its turn comes. -/
def allSpareMerged : InterferenceGraph → List Edit → Bool
  | _, [] => true
  | g, e :: es => e.sparesMerged g && allSpareMerged (e.perform g) es

end Edit

namespace InterferenceGraph

variable {g g' h : InterferenceGraph} {e : Edit} {es : List Edit} {n m r : NodeId}

/-! ## Relations, marks and symbols -/

/-- In a well-formed graph the node of a symbol is the one that holds it. -/
theorem WellFormed.nodeOf?_eq_some (hg : g.WellFormed) {s : SymbolId} (hs : g.symbol? n = some s) :
    g.nodeOf? s = some n := by
  cases hm : g.nodeOf? s with
  | none => exact absurd hs (nodeOf?_eq_none.mp hm n)
  | some m => rw [hg.symbols (symbol?_of_nodeOf? hm) hs]

/-- **A graph stays in order whatever is done to it.**  After any sequence of edits in range, on
nodes in any state: interference and moves are symmetric, join no node to itself and join only nodes
that exist; a node is marked as move-related if and only if it has a move, to an active node or not;
every node is the node of its symbol, and different nodes have different symbols. -/
theorem edited_graph_coherent (h : Edit.performAll? ∅ es = some g) :
    (∀ u v, g.interferes u v = true →
      g.interferes v u = true ∧ u ≠ v ∧ u < g.size ∧ v < g.size) ∧
    (∀ u v, g.hasMove u v = true → g.hasMove v u = true ∧ u ≠ v ∧ u < g.size ∧ v < g.size) ∧
    (∀ n, g.isMoveRelated n = true ↔ ∃ m, g.hasMove n m = true) ∧
    (∀ n < g.size, ∃ s, g.symbol? n = some s ∧ g.nodeOf? s = some n) ∧
    ∀ m < g.size, ∀ n < g.size, m ≠ n → g.symbol? m ≠ g.symbol? n := by
  have hg : g.WellFormed := WellFormed.performAll? h
  refine ⟨fun u v huv => ?_, fun u v huv => ?_, fun n => ?_, fun n hn => ?_, fun m hm n _ hmn => ?_⟩
  · have huv := interferes_iff.mp huv
    refine ⟨interferes_iff.mpr (hg.conflicts.symm huv), (hg.conflicts.ne huv).symm, ?_,
      hg.lt_size_of_neighbor huv⟩
    exact hg.lt_size_of_neighbor (hg.conflicts.symm huv)
  · have huv := hasMove_iff.mp huv
    refine ⟨hasMove_iff.mpr (hg.moves.symm huv), (hg.moves.ne huv).symm, ?_, ?_⟩
    · exact hg.moves_size ▸ Adjacency.lt_size_of_mem_neighbors huv
    · exact hg.moves_size ▸ hg.moves.lt_size huv
  · rw [hg.marked n]
    exact exists_congr fun m => hasMove_iff.symm
  · obtain ⟨s, hs⟩ := symbol?_eq_some_of_lt hn
    exact ⟨s, hs, hg.nodeOf?_eq_some hs⟩
  · obtain ⟨s, hs⟩ := symbol?_eq_some_of_lt hm
    exact fun he => hmn (hg.symbols hs (he.symm.trans hs))

/-- Edits that spare nothing: node `2` is taken out, then merged into `3`, then merged again into
`1`, after `3` itself has been merged into `0`; it gets new edges, and `1` is merged into it. -/
def reckless : List Edit :=
  [.addNode 7, .addNode 8, .addNode 9, .addNode 8, .addNode 4, .addConflict 0 1, .addConflict 1 1,
    .addMove 1 2, .addMove 2 3, .addMove 0 3, .takeOut 2, .merge 3 2, .merge 0 3, .merge 1 2,
    .addConflict 2 3, .addMove 3 2, .merge 2 1, .dropMoves 2]

/-- The graph they make. -/
def recklessGraph : InterferenceGraph := (Edit.performAll? ∅ reckless).getD ∅

theorem performAll?_reckless : Edit.performAll? ∅ reckless = some recklessGraph := by
  decide +kernel

/-- In the end the links of nodes `1` and `2` lead to each other, yet all else is in order: the
conflict between nodes `2` and `3` is seen from both, the move given up at `2` is no longer marked
at `3`, and node `1` is still the node of symbol `8`. -/
theorem edited_graph_coherent_reckless :
    recklessGraph.mergedInto? 1 = some 2 ∧ recklessGraph.mergedInto? 2 = some 1 ∧
      recklessGraph.interferes 2 3 = true ∧ recklessGraph.interferes 3 2 = true ∧
      recklessGraph.isMoveRelated 3 = false ∧ (∀ m, recklessGraph.hasMove 3 m = false) ∧
      ∃ s, recklessGraph.symbol? 1 = some s ∧ recklessGraph.nodeOf? s = some 1 := by
  obtain ⟨hconflicts, -, hmarked, hnodes, -⟩ := edited_graph_coherent performAll?_reckless
  have hconflict : recklessGraph.interferes 2 3 = true := by decide +kernel
  have hunmarked : recklessGraph.isMoveRelated 3 = false := by decide +kernel
  refine ⟨by decide +kernel, by decide +kernel, hconflict, (hconflicts 2 3 hconflict).1, hunmarked,
    fun m => ?_, hnodes 1 (by decide +kernel)⟩
  rw [Bool.eq_false_iff]
  intro hmove
  exact absurd ((hmarked 3).mpr ⟨m, hmove⟩) (by simp [hunmarked])

/-! ## The loop that follows links -/

/-- **Following the links from a node ends**, at the given one. -/
inductive EndsAt (g : InterferenceGraph) : NodeId → NodeId → Prop
  /-- The node has no link. -/
  | here {n : NodeId} (last : g.mergedInto? n = none) : EndsAt g n n
  /-- The node has a link; go on from where it leads. -/
  | link {n m r : NodeId} (next : g.mergedInto? n = some m) (rest : EndsAt g m r) : EndsAt g n r

theorem endsAt_of_some (hn : g.mergedInto? n = some m) : g.EndsAt n r ↔ g.EndsAt m r := by
  constructor
  · intro hr
    cases hr with
    | here last => cases hn.symm.trans last
    | link next rest =>
        cases hn.symm.trans next
        exact rest
  · exact EndsAt.link hn

theorem EndsAt.unique {r' : NodeId} (hr : g.EndsAt n r) (hr' : g.EndsAt n r') : r = r' := by
  induction hr with
  | here last =>
      cases hr' with
      | here => rfl
      | link next => cases last.symm.trans next
  | link next _ ih => exact ih ((endsAt_of_some next).mp hr')

/-- If following the links with a budget comes to a node without a link, the loop ends there. -/
theorem endsAt_followMerges {budget : Nat}
    (hend : g.mergedInto? (g.followMerges budget n) = none) :
    g.EndsAt n (g.followMerges budget n) := by
  induction budget generalizing n with
  | zero => exact .here hend
  | succ budget ih =>
      cases hn : g.mergedInto? n with
      | none =>
          rw [followMerges_of_none hn]
          exact .here hn
      | some m =>
          rw [followMerges_succ, hn] at hend ⊢
          exact .link hn (ih hend)

namespace MergeForest

/-- In a forest the loop ends, in one way: at the representative. -/
theorem endsAt_iff (hg : g.MergeForest) : g.EndsAt n r ↔ r = g.representative n := by
  have hend : g.EndsAt n (g.representative n) := by
    rw [hg.representative_eq]
    exact endsAt_followMerges (hg.settles n)
  constructor
  · exact fun hr => hr.unique hend
  · rintro rfl
    exact hend

theorem representative_eq_self_iff (hg : g.MergeForest) :
    g.representative n = n ↔ g.isMerged n = false := by
  constructor
  · intro hn
    exact hn ▸ hg.isMerged_representative n
  · exact hg.representative_of_not_merged

/-- Members exist. -/
theorem lt_size_of_mem_members (hg : g.MergeForest) (hr : g.isMerged r = false)
    (hn : n ∈ g.members r) : n < g.size := by
  obtain ⟨hne, hrep⟩ := (hg.mem_members hr n).mp hn
  by_contra hlt
  -- a number beyond the graph has no link and stands for itself
  have hnone : g.mergedInto? n = none := by
    rw [mergedInto?, node?_of_size_le (Nat.not_lt.mp hlt)]
    rfl
  exact hne ((followMerges_of_none hnone _).symm.trans hrep)

/-- **An edit that spares merged nodes keeps the links a forest.** -/
theorem perform? (hg : g.MergeForest) (hspares : e.sparesMerged g = true)
    (h : e.perform? g = some g') : g'.MergeForest := by
  obtain ⟨hrange, rfl⟩ := Edit.perform?_eq_some.mp h
  cases e with
  | addNode s => exact hg.addNode s
  | addConflict u v => exact hg.of_sameNodes (sameNodes_addConflict g u v)
  | removeConflict u v => exact hg.of_sameNodes (sameNodes_removeConflict g u v)
  | addMove u v => exact hg.of_sameNodes (sameNodes_addMove g u v)
  | removeMove u v => exact hg.of_sameNodes (sameNodes_removeMove g u v)
  | dropMoves n => exact hg.of_sameNodes (sameNodes_dropMoves g n)
  | takeOut n =>
      have hn : n < g.size := by simpa [Edit.inRange, Edit.needs] using hrange
      exact hg.takeOut hn (by simpa [Edit.sparesMerged] using hspares)
  | merge a b =>
      have hfree : a ≠ b ∧ g.isMerged a = false ∧ g.isMerged b = false := by
        simpa [Edit.sparesMerged] using hspares
      obtain ⟨hab, hua, hub⟩ := hfree
      obtain ⟨ha, hb⟩ := Edit.lt_size_of_inRange rfl hrange hab
      exact hg.merge hab ha hb hua hub

/-- **A sequence of such edits makes a forest.** -/
theorem performAll? (h : Edit.performAll? ∅ es = some g)
    (hspare : Edit.allSpareMerged ∅ es = true) : g.MergeForest := by
  refine (Edit.performAll?_induction
    (P := fun es g => Edit.allSpareMerged g es = true ∧ g.MergeForest) ?_
    ⟨hspare, of_untouched Untouched.empty⟩ h).2
  rintro e es g g' ⟨hspare, hg⟩ h
  obtain ⟨hfirst, hrest⟩ := Bool.and_eq_true_iff.mp hspare
  obtain ⟨-, rfl⟩ := Edit.perform?_eq_some.mp h
  exact ⟨hrest, hg.perform? hfirst h⟩

end MergeForest

/-- **Every node has a representative, and the member lists are exact**, after any sequence of edits
in range that merges only two different unmerged nodes and takes out only unmerged ones.  Following
the links from a node ends, in exactly one way, at its representative; this is a node that is not
merged, and the node itself if and only if it is not merged.  The members of an unmerged node are
listed once each, and are exactly the other nodes that it represents. -/
theorem edited_representatives_exact (h : Edit.performAll? ∅ es = some g)
    (hspare : Edit.allSpareMerged ∅ es = true) :
    (∀ n < g.size, (∀ r, g.EndsAt n r ↔ r = g.representative n) ∧ g.representative n < g.size ∧
      g.isMerged (g.representative n) = false ∧
      (g.representative n = n ↔ g.isMerged n = false)) ∧
    ∀ r < g.size, g.isMerged r = false →
      (g.members r).Nodup ∧
      ∀ n, n ∈ g.members r ↔ n < g.size ∧ n ≠ r ∧ g.representative n = r := by
  have hg : g.MergeForest := MergeForest.performAll? h hspare
  refine ⟨fun n hn => ⟨fun r => hg.endsAt_iff, hg.representative_lt hn,
    hg.isMerged_representative n, hg.representative_eq_self_iff⟩, fun r _ hr => ?_⟩
  refine ⟨hg.nodup_members r, fun n => ?_⟩
  rw [hg.mem_members hr n]
  refine (and_iff_right_of_imp fun hn => ?_).symm
  exact hg.lt_size_of_mem_members hr ((hg.mem_members hr n).mpr hn)

/-- Four nodes in a chain of merges, the last of them of a node that was taken out. -/
def chained : List Edit :=
  [.addNode 7, .addNode 8, .addNode 9, .addNode 4, .addMove 2 3, .merge 2 3, .addNode 5,
    .merge 1 2, .takeOut 1, .merge 0 1]

/-- The graph they make. -/
def chainedGraph : InterferenceGraph := (Edit.performAll? ∅ chained).getD ∅

theorem performAll?_chained : Edit.performAll? ∅ chained = some chainedGraph := by
  decide +kernel

/-- From node `3` the links lead over `2` and `1` to `0`, which lists all three.  Node `4` stands
for itself. -/
theorem edited_representatives_exact_chained :
    Edit.allSpareMerged ∅ chained = true ∧ chainedGraph.EndsAt 3 0 ∧
      chainedGraph.isMerged 0 = false ∧ chainedGraph.representative 4 = 4 ∧
      (chainedGraph.members 0).Nodup ∧ 3 ∈ chainedGraph.members 0 ∧ 4 ∉ chainedGraph.members 0 := by
  have hspare : Edit.allSpareMerged ∅ chained = true := by decide +kernel
  obtain ⟨hnodes, hmembers⟩ := edited_representatives_exact performAll?_chained hspare
  have hthree : chainedGraph.representative 3 = 0 := by decide +kernel
  have hfour : chainedGraph.representative 4 = 4 :=
    (hnodes 4 (by decide +kernel)).2.2.2.mpr (by decide +kernel)
  have hzero : chainedGraph.isMerged 0 = false := by decide +kernel
  obtain ⟨hnodup, hmem⟩ := hmembers 0 (by decide +kernel) hzero
  have hends := ((hnodes 3 (by decide +kernel)).1 0).mpr hthree.symm
  refine ⟨hspare, hends, hzero, hfour, hnodup, ?_, ?_⟩
  · exact (hmem 3).mpr ⟨by decide +kernel, by decide, hthree⟩
  · intro hin
    exact absurd (hfour.symm.trans ((hmem 4).mp hin).2.2) (by decide)

end InterferenceGraph

end RegAlloc
