import RegAlloc.Proofs.EditSequences

/-!
# A merge is a quotient, and touches nothing else

`InterferenceGraph.merge` drains the edges of one node into another while both graphs of the
structure, the marks and the member lists are being edited.  This file says what it amounts to, for
a graph in any state.

* **For interference and for moves alike the result is the quotient** that identifies `b` with `a`
  (`Adjacency.Identifies`), said row by row: the row of `a`, the empty row of `b`, and the rows of
  all other nodes, in which `b` is renamed to `a`.
* **Everything else stays**: symbols, the status and link of every node but `b`, and the members of
  every node but `a` and `b`.  Where following the links leads is another question: a chain that
  comes to `b` goes on to `a` now (`endsAt_merge_of_comesTo`), and every other chain ends where it
  did (`endsAt_merge_of_not_comesTo`).
* **Degrees do not grow.**  If both nodes were active, a neighbour of only one of them keeps its
  degree, and a neighbour of both loses one (`size_active_of_identifies`).
-/

namespace RegAlloc

namespace Adjacency

variable {a b : NodeId} {x y : Adjacency}

/-- **The graph `y` is the graph `x` with `b` identified with `a`.** -/
structure Identifies (a b : NodeId) (x y : Adjacency) : Prop where
  /-- `a` has the neighbours of both, -/
  kept : ∀ m, m ∈ y.neighbors a ↔ (m ∈ x.neighbors a ∨ m ∈ x.neighbors b) ∧ m ≠ a ∧ m ≠ b
  /-- `b` has none, -/
  gone : y.neighbors b = ∅
  /-- and any other node has its own, with `b` replaced by `a`. -/
  other : ∀ n, n ≠ a → n ≠ b → ∀ m, m ∈ y.neighbors n ↔ ∃ k ∈ x.neighbors n, rename a b k = m

theorem Lawful.identifies_merge (hx : x.Lawful) (hab : a ≠ b) (ha : a < x.size) :
    Identifies a b x (x.merge a b) where
  kept m := mem_neighbors_merge_self hx hab ha
  gone := by
    ext m
    rw [mem_neighbors_merge_of_ne hx hab ha hab.symm]
    exact iff_of_false (fun h => h.1 rfl) (IdSet.not_mem_empty m)
  other n hna hnb m := by
    rw [mem_neighbors_merge_of_ne hx hab ha hna]
    exact and_iff_right hnb

/-- **Renaming `b` to `a` costs a set one member if it had both**, and none otherwise. -/
theorem size_of_rename {s t : IdSet} (hab : a ≠ b)
    (ht : ∀ m, m ∈ t ↔ ∃ k ∈ s, rename a b k = m) :
    t.size + (if a ∈ s ∧ b ∈ s then 1 else 0) = s.size := by
  by_cases hb : b ∈ s
  · have hinsert : t.toFinset = insert a (s.toFinset.erase b) := by
      ext m
      rw [IdSet.mem_toFinset, ht, Finset.mem_insert, Finset.mem_erase, IdSet.mem_toFinset]
      constructor
      · rintro ⟨k, hk, rfl⟩
        rcases eq_or_ne k b with rfl | hkb
        · exact Or.inl (rename_self a k)
        · rw [rename_of_ne hkb]
          exact Or.inr ⟨hkb, hk⟩
      · rintro (rfl | ⟨hmb, hm⟩)
        · exact ⟨b, hb, rename_self m b⟩
        · exact ⟨m, hm, rename_of_ne hmb⟩
    have herase : (s.toFinset.erase b).card + 1 = s.toFinset.card :=
      Finset.card_erase_add_one (IdSet.mem_toFinset.mpr hb)
    rw [← IdSet.card_toFinset, ← IdSet.card_toFinset, hinsert]
    by_cases ha : a ∈ s
    · have hmem : a ∈ s.toFinset.erase b :=
        Finset.mem_erase.mpr ⟨hab, IdSet.mem_toFinset.mpr ha⟩
      rw [Finset.insert_eq_of_mem hmem, if_pos ⟨ha, hb⟩]
      exact herase
    · have hnot : a ∉ s.toFinset.erase b :=
        fun h => ha (IdSet.mem_toFinset.mp (Finset.mem_of_mem_erase h))
      rw [Finset.card_insert_of_notMem hnot, if_neg fun h => ha h.1]
      exact herase
  · -- without `b` nothing is renamed
    have hsame : t = s := by
      ext m
      rw [ht]
      constructor
      · rintro ⟨k, hk, rfl⟩
        rwa [rename_of_ne (ne_of_mem_of_not_mem hk hb)]
      · exact fun hm => ⟨m, hm, rename_of_ne (ne_of_mem_of_not_mem hm hb)⟩
    rw [hsame, if_neg fun h => hb h.2]
    rfl

end Adjacency

namespace InterferenceGraph

variable {g : InterferenceGraph} {a b n m r : NodeId} {es : List Edit}

/-! ## Degrees -/

/-- **How many active neighbours a node has after a merge** of two active nodes, in either graph: as
many as before, or one less if it had both. -/
theorem size_active_of_identifies {x y : Adjacency} (hxy : Adjacency.Identifies a b x y)
    (hab : a ≠ b) (ha : g.isActive a = true) (hb : g.isActive b = true) (hna : n ≠ a)
    (hnb : n ≠ b) :
    ((y.neighbors n).filter (g.merge a b).isActive).size +
      (if a ∈ x.neighbors n ∧ b ∈ x.neighbors n then 1 else 0) =
        ((x.neighbors n).filter g.isActive).size := by
  have hactive : ∀ {k}, (g.merge a b).isActive k = true ↔ k ≠ b ∧ g.isActive k = true :=
    isActive_merge hab (lt_size_of_isActive hb)
  have hboth : (a ∈ (x.neighbors n).filter g.isActive ∧ b ∈ (x.neighbors n).filter g.isActive) ↔
      a ∈ x.neighbors n ∧ b ∈ x.neighbors n := by
    rw [IdSet.mem_filter, IdSet.mem_filter, and_iff_left ha, and_iff_left hb]
  -- the active neighbours are renamed: `b` was active and is not, and `a` is still active
  have hrenamed : ∀ m, m ∈ (y.neighbors n).filter (g.merge a b).isActive ↔
      ∃ k ∈ (x.neighbors n).filter g.isActive, Adjacency.rename a b k = m := by
    intro m
    rw [IdSet.mem_filter, hxy.other n hna hnb, hactive]
    constructor
    · rintro ⟨⟨k, hk, rfl⟩, -, hm⟩
      refine ⟨k, IdSet.mem_filter.mpr ⟨hk, ?_⟩, rfl⟩
      rcases eq_or_ne k b with rfl | hkb
      · exact hb
      · rwa [Adjacency.rename_of_ne hkb] at hm
    · rintro ⟨k, hk, rfl⟩
      obtain ⟨hk, hka⟩ := IdSet.mem_filter.mp hk
      exact ⟨⟨k, hk, rfl⟩, Adjacency.rename_ne hab k, isActive_rename ha hka⟩
  rw [← Adjacency.size_of_rename hab hrenamed]
  simp only [hboth]

/-! ## Chains of links -/

/-- Following the links from `n` comes to `m`. -/
def ComesTo (g : InterferenceGraph) : NodeId → NodeId → Prop :=
  Relation.ReflTransGen fun x y => g.mergedInto? x = some y

/-- **A chain that comes to `b` goes on to `a` after the merge.** -/
theorem endsAt_merge_of_comesTo (hab : a ≠ b) (hb : b < g.size) (hn : g.ComesTo n b) :
    (g.merge a b).EndsAt n r ↔ (g.merge a b).EndsAt a r := by
  have hlast : (g.merge a b).EndsAt b r ↔ (g.merge a b).EndsAt a r := by
    refine endsAt_of_some ?_
    rw [mergedInto?_merge hab hb, if_pos rfl]
  induction hn using Relation.ReflTransGen.head_induction_on with
  | refl => exact hlast
  | @head n m hnm _ ih =>
      rcases eq_or_ne n b with rfl | hnb
      · exact hlast
      · refine (endsAt_of_some ?_).trans ih
        rw [mergedInto?_merge hab hb, if_neg hnb, hnm]

/-- **A chain that does not come to `b` is as before.** -/
theorem endsAt_merge_of_not_comesTo (hab : a ≠ b) (hb : b < g.size) (hn : ¬ g.ComesTo n b) :
    (g.merge a b).EndsAt n r ↔ g.EndsAt n r := by
  have hne : ∀ {k}, ¬ g.ComesTo k b → k ≠ b := by
    rintro k hk rfl
    exact hk Relation.ReflTransGen.refl
  have hlink : ∀ {k}, ¬ g.ComesTo k b → (g.merge a b).mergedInto? k = g.mergedInto? k := by
    intro k hk
    rw [mergedInto?_merge hab hb, if_neg (hne hk)]
  -- what lies further along the chain does not come to `b` either
  have hrest : ∀ {k l}, ¬ g.ComesTo k b → g.mergedInto? k = some l → ¬ g.ComesTo l b :=
    fun hk hkl hl => hk (Relation.ReflTransGen.head hkl hl)
  constructor
  · intro hr
    induction hr with
    | here last => exact .here ((hlink hn).symm.trans last)
    | link next _ ih =>
        rw [hlink hn] at next
        exact .link next (ih (hrest hn next))
  · intro hr
    induction hr with
    | here last => exact .here ((hlink hn).trans last)
    | link next _ ih => exact .link ((hlink hn).trans next) (ih (hrest hn next))

/-! ## The whole effect -/

/-- **A merge identifies two nodes and leaves the others alone.**  Take any graph made by edits in
range and any two different nodes `a` and `b` of it, in any state.  Merging `b` into `a` gives the
quotient of interference and of moves that identifies `b` with `a`.  All symbols, the status and the
link of every node but `b`, and the members of every node but `a` and `b` are as before; a chain of
links that came to `b` now goes the way of `a`, and every other one ends as before.  If both nodes
were active, no other node has a larger degree or move degree than before: it has one less if it was
joined to both, and the same if not. -/
theorem merge_identifies (h : Edit.performAll? ∅ es = some g) (hab : a ≠ b) (ha : a < g.size)
    (hb : b < g.size) :
    (Adjacency.Identifies a b g.conflicts (g.merge a b).conflicts ∧
      Adjacency.Identifies a b g.moves (g.merge a b).moves) ∧
    ((g.merge a b).size = g.size ∧ (∀ n, (g.merge a b).symbol? n = g.symbol? n) ∧
      (∀ n, n ≠ b → (∀ s, (g.merge a b).hasStatus n s = g.hasStatus n s) ∧
        (g.merge a b).mergedInto? n = g.mergedInto? n) ∧
      ∀ n, n ≠ a → n ≠ b → (g.merge a b).members n = g.members n) ∧
    (∀ n r, (g.ComesTo n b → ((g.merge a b).EndsAt n r ↔ (g.merge a b).EndsAt a r)) ∧
      (¬ g.ComesTo n b → ((g.merge a b).EndsAt n r ↔ g.EndsAt n r))) ∧
    (g.isActive a = true → g.isActive b = true → ∀ n, n ≠ a → n ≠ b →
      (g.merge a b).degree n + (if g.interferes n a ∧ g.interferes n b then 1 else 0) =
        g.degree n ∧
      (g.merge a b).moveDegree n + (if g.hasMove n a ∧ g.hasMove n b then 1 else 0) =
        g.moveDegree n) := by
  have hg : g.WellFormed := WellFormed.performAll? h
  have hconf : Adjacency.Identifies a b g.conflicts (g.merge a b).conflicts := by
    rw [conflicts_merge hab]
    exact hg.conflicts.identifies_merge hab (hg.conflicts_size ▸ ha)
  have hmoves : Adjacency.Identifies a b g.moves (g.merge a b).moves := by
    rw [moves_merge hab]
    exact hg.moves.identifies_merge hab (hg.moves_size ▸ ha)
  refine ⟨⟨hconf, hmoves⟩, ⟨size_merge hab, symbol?_merge hab, fun n hnb => ⟨fun s => ?_, ?_⟩,
    fun n hna hnb => ?_⟩, fun n r => ?_, fun hactive hactive' n hna hnb => ?_⟩
  · rw [hasStatus_merge hab hb, if_neg hnb]
  · rw [mergedInto?_merge hab hb, if_neg hnb]
  · rw [members_merge hab ha, if_neg hnb, if_neg hna]
  · exact ⟨endsAt_merge_of_comesTo hab hb, endsAt_merge_of_not_comesTo hab hb⟩
  · simp only [interferes_iff, hasMove_iff]
    exact ⟨size_active_of_identifies hconf hab hactive hactive' hna hnb,
      size_active_of_identifies hmoves hab hactive hactive' hna hnb⟩

/-- Nodes `0` and `1` interfere and are joined by a move; both interfere with `2`, and both have a
move with `3`, which interferes with `1` only.  Node `4` has been merged into `1`. -/
def overlapping : List Edit :=
  [.addNode 7, .addNode 8, .addNode 9, .addNode 4, .addNode 5, .merge 1 4, .addConflict 0 1,
    .addConflict 0 2, .addConflict 1 2, .addConflict 1 3, .addMove 0 1, .addMove 0 3, .addMove 1 3]

/-- The graph they make. -/
def overlappingGraph : InterferenceGraph := (Edit.performAll? ∅ overlapping).getD ∅

theorem performAll?_overlapping : Edit.performAll? ∅ overlapping = some overlappingGraph := by
  decide +kernel

/-- Merging `1` into `0` gives `0` the conflict with `3` and none with itself.  Node `2` was joined
to both and loses one of two conflicts, node `3` loses one of two moves.  The link of `4` still
leads to `1`, and following it now ends at `0`. -/
theorem merge_identifies_overlapping :
    let merged := overlappingGraph.merge 0 1
    (3 ∈ merged.neighbors 0 ∧ 0 ∉ merged.neighbors 0 ∧ merged.moves.neighbors 1 = ∅) ∧
      (overlappingGraph.degree 2 = 2 ∧ merged.degree 2 = 1) ∧
      (overlappingGraph.moveDegree 3 = 2 ∧ merged.moveDegree 3 = 1) ∧
      merged.mergedInto? 4 = some 1 ∧ merged.EndsAt 4 0 := by
  intro merged
  obtain ⟨⟨hconf, hmoves⟩, ⟨-, -, hnodes, -⟩, hends, hdegrees⟩ :=
    merge_identifies performAll?_overlapping (a := 0) (b := 1) (by decide) (by decide +kernel)
      (by decide +kernel)
  have hlink : overlappingGraph.mergedInto? 4 = some 1 := by decide +kernel
  have hdegree : overlappingGraph.degree 2 = 2 := by decide +kernel
  have hmoveDegree : overlappingGraph.moveDegree 3 = 2 := by decide +kernel
  have htwo := (hdegrees (by decide +kernel) (by decide +kernel) 2 (by decide) (by decide)).1
  have hthree := (hdegrees (by decide +kernel) (by decide +kernel) 3 (by decide) (by decide)).2
  rw [if_pos (by decide +kernel), hdegree] at htwo
  rw [if_pos (by decide +kernel), hmoveDegree] at hthree
  refine ⟨⟨(hconf.kept 3).mpr (by decide +kernel), fun hself => ((hconf.kept 0).mp hself).2.1 rfl,
    hmoves.gone⟩, ⟨hdegree, Nat.succ.inj htwo⟩, ⟨hmoveDegree, Nat.succ.inj hthree⟩,
    (hnodes 4 (by decide)).2.trans hlink, ?_⟩
  exact ((hends 4 0).1 (Relation.ReflTransGen.single hlink)).mpr (.here (by decide +kernel))

end InterferenceGraph

end RegAlloc
