import RegAlloc.Interference.Edit
import RegAlloc.Proofs.AdjacencyLaws

/-!
# What edits do to an interference graph

An interference graph has three parts that must agree: the nodes, the two edge relations, and the
mark on each node that says whether it has a move edge.  `InterferenceGraph.WellFormed` collects
what they owe each other, and every edit that is in range keeps it.

Three devices keep the proofs apart from the representation.

* `SameNodes g h`: the two graphs have the same nodes up to marks.  Whatever an edit does to edges
  and marks, it leaves the nodes the same, so a fact about symbols, status or merges passes over it
  in one step.
* `WellFormed.setEdges`: edges may be replaced by others as long as the marks of all nodes whose
  moves change are renewed.  Every edit of moves is an instance.
* `Fresh g`: the graph was made from nothing by adding nodes, conflicts and moves.  This is the kind
  of graph that a colouring starts from, and in it no node has left and none is merged.
-/

namespace RegAlloc

namespace InterferenceGraph

variable {g h : InterferenceGraph} {n m : NodeId}

/-! ## Reading nodes -/

theorem node?_eq_some_of_lt (hn : n < g.size) : ∃ x, g.node? n = some x :=
  ⟨g.nodes[n], Array.getElem?_eq_getElem hn⟩

theorem node?_of_size_le (hn : g.size ≤ n) : g.node? n = none := Array.getElem?_eq_none hn

theorem lt_size_of_node? {x : Vertex} (hx : g.node? n = some x) : n < g.size := by
  by_contra hn
  rw [node?_of_size_le (Nat.not_lt.mp hn)] at hx
  exact absurd hx (by simp)

theorem hasStatus_iff {s : NodeStatus} :
    g.hasStatus n s = true ↔ ∃ x, g.node? n = some x ∧ x.status = s := by
  cases hx : g.node? n with
  | none => simp [hasStatus, hx]
  | some x => simp [hasStatus, hx]

theorem lt_size_of_hasStatus {s : NodeStatus} (hs : g.hasStatus n s = true) : n < g.size := by
  obtain ⟨x, hx, -⟩ := hasStatus_iff.mp hs
  exact lt_size_of_node? hx

theorem lt_size_of_isActive (hn : g.isActive n = true) : n < g.size := lt_size_of_hasStatus hn

theorem hasStatus_unique {s t : NodeStatus} (hs : g.hasStatus n s = true)
    (ht : g.hasStatus n t = true) : s = t := by
  obtain ⟨x, hx, rfl⟩ := hasStatus_iff.mp hs
  obtain ⟨y, hy, rfl⟩ := hasStatus_iff.mp ht
  rw [hx] at hy
  cases hy
  rfl

theorem hasStatus_cases (hn : n < g.size) :
    g.hasStatus n .active = true ∨ g.hasStatus n .removed = true ∨
      g.hasStatus n .merged = true := by
  obtain ⟨x, hx⟩ := node?_eq_some_of_lt hn
  cases hs : x.status with
  | active => exact Or.inl (hasStatus_iff.mpr ⟨x, hx, hs⟩)
  | removed => exact Or.inr (Or.inl (hasStatus_iff.mpr ⟨x, hx, hs⟩))
  | merged => exact Or.inr (Or.inr (hasStatus_iff.mpr ⟨x, hx, hs⟩))

@[simp] theorem mem_activeNodes : n ∈ g.activeNodes ↔ g.isActive n = true := by
  simp only [activeNodes, nodeIds, List.mem_filter, List.mem_range]
  exact and_iff_right_of_imp lt_size_of_isActive

theorem lt_size_of_symbol? {s : SymbolId} (hs : g.symbol? n = some s) : n < g.size := by
  obtain ⟨x, hx, -⟩ := Option.map_eq_some_iff.mp hs
  exact lt_size_of_node? hx

theorem symbol?_eq_some_of_lt (hn : n < g.size) : ∃ s, g.symbol? n = some s := by
  obtain ⟨x, hx⟩ := node?_eq_some_of_lt hn
  exact ⟨x.symbol, by rw [symbol?, hx, Option.map_some]⟩

theorem interferes_iff : g.interferes n m = true ↔ m ∈ g.neighbors n :=
  decide_eq_true_iff

theorem hasMove_iff : g.hasMove n m = true ↔ m ∈ g.moves.neighbors n :=
  decide_eq_true_iff

/-! ## Graphs with the same nodes -/

/-- The two graphs have the same nodes, up to the marks of their moves. -/
structure SameNodes (g h : InterferenceGraph) : Prop where
  size : g.size = h.size
  symbol? : ∀ n, g.symbol? n = h.symbol? n
  hasStatus : ∀ n s, g.hasStatus n s = h.hasStatus n s
  mergedInto? : ∀ n, g.mergedInto? n = h.mergedInto? n
  members : ∀ n, g.members n = h.members n

theorem sameNodes_addConflict (g : InterferenceGraph) (u v : NodeId) :
    SameNodes (g.addConflict u v) g :=
  ⟨rfl, fun _ => rfl, fun _ _ => rfl, fun _ => rfl, fun _ => rfl⟩

theorem sameNodes_removeConflict (g : InterferenceGraph) (u v : NodeId) :
    SameNodes (g.removeConflict u v) g :=
  ⟨rfl, fun _ => rfl, fun _ _ => rfl, fun _ => rfl, fun _ => rfl⟩

theorem SameNodes.isActive (hgh : SameNodes g h) (n : NodeId) : g.isActive n = h.isActive n :=
  hgh.hasStatus n .active

theorem SameNodes.isMerged (hgh : SameNodes g h) (n : NodeId) : g.isMerged n = h.isMerged n :=
  hgh.hasStatus n .merged

theorem node?_renewMark (g : InterferenceGraph) (n m : NodeId) :
    (g.renewMark n).node? m = (g.node? m).map fun x =>
      if n = m then { x with moveRelated := !(g.moves.neighbors m).isEmpty } else x := by
  rw [renewMark, node?_modifyNode]
  by_cases hnm : n = m
  · subst hnm
    simp
  · simp [hnm]

@[simp] theorem moves_renewMarks (g : InterferenceGraph) (ns : List NodeId) :
    (g.renewMarks ns).moves = g.moves := by
  induction ns generalizing g with
  | nil => rfl
  | cons n ns ih => exact ih (g.renewMark n)

@[simp] theorem conflicts_renewMarks (g : InterferenceGraph) (ns : List NodeId) :
    (g.renewMarks ns).conflicts = g.conflicts := by
  induction ns generalizing g with
  | nil => rfl
  | cons n ns ih => exact ih (g.renewMark n)

@[simp] theorem size_renewMarks (g : InterferenceGraph) (ns : List NodeId) :
    (g.renewMarks ns).size = g.size := by
  induction ns generalizing g with
  | nil => rfl
  | cons n ns ih => exact (ih (g.renewMark n)).trans (size_modifyNode g n _)

/-- Renewing marks changes the marks of the named nodes and nothing else. -/
theorem node?_renewMarks (g : InterferenceGraph) (ns : List NodeId) (m : NodeId) :
    (g.renewMarks ns).node? m = (g.node? m).map fun x =>
      if m ∈ ns then { x with moveRelated := !(g.moves.neighbors m).isEmpty } else x := by
  induction ns generalizing g with
  | nil => simp [renewMarks]
  | cons n ns ih =>
      show ((g.renewMark n).renewMarks ns).node? m = _
      rw [ih, node?_renewMark, Option.map_map]
      congr 1
      funext x
      have hmoves : (g.renewMark n).moves = g.moves := rfl
      simp only [Function.comp_apply, hmoves, List.mem_cons]
      by_cases hnm : n = m
      · subst hnm
        by_cases hns : n ∈ ns <;> simp [hns]
      · have hmn : ¬m = n := fun e => hnm e.symm
        simp [hnm, hmn]

theorem sameNodes_renewMarks (g : InterferenceGraph) (ns : List NodeId) :
    SameNodes (g.renewMarks ns) g where
  size := size_renewMarks g ns
  symbol? n := by
    rw [symbol?, symbol?, node?_renewMarks, Option.map_map]
    congr 1
    funext x
    by_cases hn : n ∈ ns <;> simp [hn]
  hasStatus n s := by
    rw [hasStatus, hasStatus, node?_renewMarks]
    by_cases hn : n ∈ ns <;> cases g.node? n <;> simp [hn]
  mergedInto? n := by
    rw [mergedInto?, mergedInto?, node?_renewMarks]
    by_cases hn : n ∈ ns <;> cases g.node? n <;> simp [hn]
  members n := by
    rw [members, members, node?_renewMarks]
    by_cases hn : n ∈ ns <;> cases g.node? n <;> simp [hn]

/-- Replacing edges and renewing marks keeps the nodes. -/
theorem sameNodes_setEdges (g : InterferenceGraph) (conflicts moves : Adjacency)
    (ns : List NodeId) :
    SameNodes (renewMarks { g with conflicts := conflicts, moves := moves } ns) g :=
  let h := sameNodes_renewMarks { g with conflicts := conflicts, moves := moves } ns
  ⟨h.size, h.symbol?, h.hasStatus, h.mergedInto?, h.members⟩

/-! ## Well-formed graphs -/

/-- **What the parts of a graph owe each other.** -/
structure WellFormed (g : InterferenceGraph) : Prop where
  /-- Interference is symmetric, and no node interferes with itself. -/
  conflicts : g.conflicts.Lawful
  /-- So are moves. -/
  moves : g.moves.Lawful
  /-- Every node has a row for interference, -/
  conflicts_size : g.conflicts.size = g.size
  /-- and one for moves. -/
  moves_size : g.moves.size = g.size
  /-- A node is marked if and only if it has a move edge. -/
  marked : ∀ n, g.isMoveRelated n = true ↔ ∃ m, m ∈ g.moves.neighbors n
  /-- No two nodes stand for one symbol. -/
  symbols : ∀ {m n : NodeId} {s : SymbolId}, g.symbol? m = some s → g.symbol? n = some s → m = n

theorem WellFormed.lt_size_of_neighbor (hg : g.WellFormed) (hm : m ∈ g.neighbors n) : m < g.size :=
  hg.conflicts_size ▸ hg.conflicts.lt_size hm

/-- Replacing edges is harmless if the marks of all nodes whose moves change are renewed. -/
theorem WellFormed.setEdges (hg : g.WellFormed) {conflicts moves : Adjacency} {ns : List NodeId}
    (hconf : conflicts.Lawful) (hconfSize : conflicts.size = g.size) (hmoves : moves.Lawful)
    (hmovesSize : moves.size = g.size)
    (hsame : ∀ n, n ∉ ns → moves.neighbors n = g.moves.neighbors n) :
    (renewMarks { g with conflicts := conflicts, moves := moves } ns).WellFormed where
  conflicts := by rw [conflicts_renewMarks]; exact hconf
  moves := by rw [moves_renewMarks]; exact hmoves
  conflicts_size := by rw [conflicts_renewMarks, size_renewMarks]; exact hconfSize
  moves_size := by rw [moves_renewMarks, size_renewMarks]; exact hmovesSize
  symbols := by
    intro m n s hm hn
    rw [(sameNodes_setEdges g conflicts moves ns).symbol?] at hm hn
    exact hg.symbols hm hn
  marked n := by
    rw [isMoveRelated, node?_renewMarks, moves_renewMarks]
    have hnode : ({ g with conflicts := conflicts, moves := moves } : InterferenceGraph).node? n
        = g.node? n := rfl
    rw [hnode]
    by_cases hn : n ∈ ns
    · cases hx : g.node? n with
      | some x => simp [hn, IdSet.isEmpty_iff, ← Bool.not_eq_true]
      | none =>
          -- a node beyond the graph has neither a mark nor a row
          have hsize : moves.size ≤ n := by
            rw [hmovesSize]
            exact Array.getElem?_eq_none_iff.mp hx
          simp [Adjacency.neighbors_of_size_le hsize]
    · rw [hsame n hn, ← hg.marked n, isMoveRelated]
      cases g.node? n <;> simp [hn]

@[simp] theorem conflicts_modifyNode (g : InterferenceGraph) (n : NodeId) (f : Vertex → Vertex) :
    (g.modifyNode n f).conflicts = g.conflicts := rfl

@[simp] theorem moves_modifyNode (g : InterferenceGraph) (n : NodeId) (f : Vertex → Vertex) :
    (g.modifyNode n f).moves = g.moves := rfl

/-- Changing what a node says about merges or its status is harmless. -/
theorem WellFormed.modifyNode (hg : g.WellFormed) (n : NodeId) {f : Vertex → Vertex}
    (hsymbol : ∀ x, (f x).symbol = x.symbol) (hmark : ∀ x, (f x).moveRelated = x.moveRelated) :
    (g.modifyNode n f).WellFormed := by
  have hsym : ∀ m, (g.modifyNode n f).symbol? m = g.symbol? m := by
    intro m
    rw [symbol?, symbol?, node?_modifyNode]
    split
    · rw [Option.map_map]
      congr 1
      funext x
      exact hsymbol x
    · rfl
  have hmrk : ∀ m, (g.modifyNode n f).isMoveRelated m = g.isMoveRelated m := by
    intro m
    rw [isMoveRelated, isMoveRelated, node?_modifyNode]
    split
    · cases g.node? m <;> simp [hmark]
    · rfl
  exact
    { conflicts := hg.conflicts
      moves := hg.moves
      conflicts_size := hg.conflicts_size.trans (size_modifyNode g n f).symm
      moves_size := hg.moves_size.trans (size_modifyNode g n f).symm
      marked := fun m => by rw [hmrk]; exact hg.marked m
      symbols := fun hm hk => by rw [hsym] at hm hk; exact hg.symbols hm hk }

@[simp] theorem node?_empty (n : NodeId) : (∅ : InterferenceGraph).node? n = none := rfl

theorem WellFormed.empty : (∅ : InterferenceGraph).WellFormed where
  conflicts := Adjacency.Lawful.empty
  moves := Adjacency.Lawful.empty
  conflicts_size := rfl
  moves_size := rfl
  marked n := by
    refine iff_of_false (by rw [isMoveRelated, node?_empty]; simp) ?_
    rintro ⟨m, hm⟩
    exact IdSet.not_mem_empty m (Adjacency.neighbors_empty n ▸ hm)
  symbols := by
    intro m n s hm
    exact absurd (lt_size_of_symbol? hm) (Nat.not_lt_zero m)

/-! ## Adding -/

theorem nodeOf?_eq_none {s : SymbolId} :
    g.nodeOf? s = none ↔ ∀ n, g.symbol? n ≠ some s := by
  rw [nodeOf?, Array.findIdx?_eq_none_iff]
  constructor
  · intro hs n hn
    obtain ⟨x, hx, rfl⟩ := Option.map_eq_some_iff.mp hn
    exact absurd (hs x (Array.mem_of_getElem? hx)) (by simp)
  · intro hs x hx
    obtain ⟨n, hn⟩ := Array.getElem?_of_mem hx
    have hne := hs n
    rw [symbol?, node?, hn, Option.map_some, ne_eq, Option.some.injEq] at hne
    simpa using hne

theorem symbol?_of_nodeOf? {s : SymbolId} (hn : g.nodeOf? s = some n) : g.symbol? n = some s := by
  obtain ⟨hlt, hx, -⟩ := Array.findIdx?_eq_some_iff_getElem.mp hn
  rw [symbol?, node?, Array.getElem?_eq_getElem hlt, Option.map_some]
  exact congrArg some (by simpa using hx)

/-- What a graph looks like after a node was added for a symbol that had none. -/
theorem addNode_of_none {s : SymbolId} (hs : g.nodeOf? s = none) :
    g.addNode s =
      (⟨g.nodes.push { symbol := s }, g.conflicts.addNode, g.moves.addNode⟩, g.size) := by
  rw [addNode, hs]

theorem addNode_of_some {s : SymbolId} (hs : g.nodeOf? s = some n) : g.addNode s = (g, n) := by
  rw [addNode, hs]

theorem node?_addNode_of_none {s : SymbolId} (hs : g.nodeOf? s = none) (n : NodeId) :
    (g.addNode s).1.node? n = if n = g.size then some { symbol := s } else g.node? n := by
  rw [addNode_of_none hs]
  exact Array.getElem?_push

theorem symbol?_addNode_of_none {s : SymbolId} (hs : g.nodeOf? s = none) (n : NodeId) :
    (g.addNode s).1.symbol? n = if n = g.size then some s else g.symbol? n := by
  rw [symbol?, symbol?, node?_addNode_of_none hs]
  split <;> rfl

theorem size_le_addNode (g : InterferenceGraph) (s : SymbolId) : g.size ≤ (g.addNode s).1.size := by
  cases hs : g.nodeOf? s with
  | some m => rw [addNode_of_some hs]
  | none =>
      rw [addNode_of_none hs]
      exact (Nat.le_succ g.size).trans_eq (Array.size_push _).symm

/-- What reads the same of a new node as of a missing one is not changed by adding a node. -/
theorem read_addNode {α : Type} (read : Option Vertex → α) {s : SymbolId}
    (hread : read (some { symbol := s }) = read none) (n : NodeId) :
    read ((g.addNode s).1.node? n) = read (g.node? n) := by
  cases hs : g.nodeOf? s with
  | some m => rw [addNode_of_some hs]
  | none =>
      rw [node?_addNode_of_none hs]
      split
      · rename_i hn
        rw [hread, hn, node?_of_size_le (Nat.le_refl _)]
      · rfl

@[simp] theorem isMoveRelated_addNode (g : InterferenceGraph) (s : SymbolId) (n : NodeId) :
    (g.addNode s).1.isMoveRelated n = g.isMoveRelated n :=
  read_addNode (fun x => x.any Vertex.moveRelated) rfl n

@[simp] theorem isMerged_addNode (g : InterferenceGraph) (s : SymbolId) (n : NodeId) :
    (g.addNode s).1.isMerged n = g.isMerged n :=
  read_addNode (fun x => x.any fun v : Vertex => v.status == .merged) rfl n

@[simp] theorem mergedInto?_addNode (g : InterferenceGraph) (s : SymbolId) (n : NodeId) :
    (g.addNode s).1.mergedInto? n = g.mergedInto? n :=
  read_addNode (fun x => x.bind Vertex.mergedInto) rfl n

@[simp] theorem members_addNode (g : InterferenceGraph) (s : SymbolId) (n : NodeId) :
    (g.addNode s).1.members n = g.members n :=
  read_addNode (fun x => (x.map Vertex.members).getD []) rfl n

theorem WellFormed.addNode (hg : g.WellFormed) (s : SymbolId) : (g.addNode s).1.WellFormed := by
  cases hs : g.nodeOf? s with
  | some n =>
      rw [addNode_of_some hs]
      exact hg
  | none =>
      have hsize : (g.addNode s).1.size = g.size + 1 := by
        rw [addNode_of_none hs]
        exact Array.size_push _
      refine
        { conflicts := ?_
          moves := ?_
          conflicts_size := ?_
          moves_size := ?_
          marked := ?_
          symbols := ?_ }
      · rw [addNode_of_none hs]
        exact hg.conflicts.addNode
      · rw [addNode_of_none hs]
        exact hg.moves.addNode
      · rw [hsize, ← hg.conflicts_size, addNode_of_none hs]
        exact Adjacency.size_addNode g.conflicts
      · rw [hsize, ← hg.moves_size, addNode_of_none hs]
        exact Adjacency.size_addNode g.moves
      · intro n
        have hrow : (g.addNode s).1.moves.neighbors n = g.moves.neighbors n := by
          rw [addNode_of_none hs]
          exact Adjacency.neighbors_addNode g.moves n
        rw [hrow, isMoveRelated_addNode]
        exact hg.marked n
      · intro m n t hm hn
        rw [symbol?_addNode_of_none hs] at hm hn
        -- the new symbol is held by no older node
        have hnew : ∀ k, g.symbol? k ≠ some s := nodeOf?_eq_none.mp hs
        split at hm <;> split at hn
        · rename_i h₁ h₂
          exact h₁.trans h₂.symm
        · exact absurd (hn.trans hm.symm) (hnew n)
        · exact absurd (hm.trans hn.symm) (hnew m)
        · exact hg.symbols hm hn

theorem WellFormed.addConflict (hg : g.WellFormed) (hn : n < g.size) (hm : m < g.size) :
    (g.addConflict n m).WellFormed where
  conflicts := hg.conflicts.link (hg.conflicts_size ▸ hn) (hg.conflicts_size ▸ hm)
  moves := hg.moves
  conflicts_size := (Adjacency.size_link g.conflicts n m).trans hg.conflicts_size
  moves_size := hg.moves_size
  marked := hg.marked
  symbols := hg.symbols

/-- A node is never made to interfere with itself. -/
theorem addConflict_self (g : InterferenceGraph) (n : NodeId) : g.addConflict n n = g := by
  rw [InterferenceGraph.addConflict, Adjacency.link, if_pos rfl]

theorem WellFormed.removeConflict (hg : g.WellFormed) (u v : NodeId) :
    (g.removeConflict u v).WellFormed where
  conflicts := hg.conflicts.unlink u v
  moves := hg.moves
  conflicts_size := (Adjacency.size_unlink g.conflicts u v).trans hg.conflicts_size
  moves_size := hg.moves_size
  marked := hg.marked
  symbols := hg.symbols

theorem sameNodes_addMove (g : InterferenceGraph) (u v : NodeId) : SameNodes (g.addMove u v) g :=
  sameNodes_setEdges g g.conflicts (g.moves.link u v) [u, v]

theorem WellFormed.addMove (hg : g.WellFormed) (hn : n < g.size) (hm : m < g.size) :
    (g.addMove n m).WellFormed := by
  have hn' : n < g.moves.size := hg.moves_size ▸ hn
  have hm' : m < g.moves.size := hg.moves_size ▸ hm
  refine hg.setEdges hg.conflicts hg.conflicts_size (hg.moves.link hn' hm')
    ((Adjacency.size_link _ n m).trans hg.moves_size) fun k hk => ?_
  simp only [List.mem_cons, List.not_mem_nil, or_false, not_or] at hk
  ext a
  rw [Adjacency.mem_neighbors_link hn' hm']
  exact or_iff_left fun e => e.2.elim (fun e => hk.1 e.1) fun e => hk.2 e.1

/-! ## Giving up moves -/

theorem sameNodes_removeMove (g : InterferenceGraph) (u v : NodeId) :
    SameNodes (g.removeMove u v) g :=
  sameNodes_setEdges g g.conflicts (g.moves.unlink u v) [u, v]

theorem WellFormed.removeMove (hg : g.WellFormed) (u v : NodeId) :
    (g.removeMove u v).WellFormed := by
  refine hg.setEdges hg.conflicts hg.conflicts_size (hg.moves.unlink u v)
    ((Adjacency.size_unlink _ u v).trans hg.moves_size) fun k hk => ?_
  simp only [List.mem_cons, List.not_mem_nil, or_false, not_or] at hk
  ext a
  rw [Adjacency.mem_neighbors_unlink]
  exact and_iff_left ⟨fun e => hk.1 e.1, fun e => hk.2 e.1⟩

@[simp] theorem conflicts_removeMove (g : InterferenceGraph) (u v : NodeId) :
    (g.removeMove u v).conflicts = g.conflicts := conflicts_renewMarks _ _

@[simp] theorem moves_removeMove (g : InterferenceGraph) (u v : NodeId) :
    (g.removeMove u v).moves = g.moves.unlink u v := moves_renewMarks _ _

theorem sameNodes_dropMoves (g : InterferenceGraph) (n : NodeId) : SameNodes (g.dropMoves n) g :=
  sameNodes_setEdges g g.conflicts (g.moves.isolate n) (n :: (g.moves.neighbors n).toList)

theorem WellFormed.dropMoves (hg : g.WellFormed) (n : NodeId) : (g.dropMoves n).WellFormed := by
  refine hg.setEdges hg.conflicts hg.conflicts_size (hg.moves.isolate n)
    ((Adjacency.size_isolate _ n).trans hg.moves_size) fun k hk => ?_
  simp only [List.mem_cons, IdSet.mem_toList, not_or] at hk
  ext a
  rw [Adjacency.mem_neighbors_isolate hg.moves]
  refine and_iff_left_of_imp fun ha => ⟨hk.1, ?_⟩
  rintro rfl
  exact hk.2 (hg.moves.symm ha)

@[simp] theorem conflicts_dropMoves (g : InterferenceGraph) (n : NodeId) :
    (g.dropMoves n).conflicts = g.conflicts := conflicts_renewMarks _ _

@[simp] theorem moves_dropMoves (g : InterferenceGraph) (n : NodeId) :
    (g.dropMoves n).moves = g.moves.isolate n := moves_renewMarks _ _

/-! ## Taking a node out -/

@[simp] theorem size_takeOut (g : InterferenceGraph) (n : NodeId) : (g.takeOut n).size = g.size :=
  size_modifyNode g n _

@[simp] theorem conflicts_takeOut (g : InterferenceGraph) (n : NodeId) :
    (g.takeOut n).conflicts = g.conflicts := rfl

@[simp] theorem moves_takeOut (g : InterferenceGraph) (n : NodeId) :
    (g.takeOut n).moves = g.moves := rfl

theorem WellFormed.takeOut (hg : g.WellFormed) (n : NodeId) : (g.takeOut n).WellFormed :=
  hg.modifyNode n (fun _ => rfl) fun _ => rfl

theorem node?_takeOut (g : InterferenceGraph) (n m : NodeId) :
    (g.takeOut n).node? m =
      (g.node? m).map fun x => if n = m then { x with status := .removed } else x := by
  rw [InterferenceGraph.takeOut, node?_modifyNode]
  by_cases hnm : n = m <;> simp [hnm]

@[simp] theorem symbol?_takeOut (g : InterferenceGraph) (n m : NodeId) :
    (g.takeOut n).symbol? m = g.symbol? m := by
  rw [symbol?, symbol?, node?_takeOut, Option.map_map]
  congr 1
  funext x
  by_cases hnm : n = m <;> simp [hnm]

theorem hasStatus_takeOut (hn : n < g.size) (m : NodeId) (s : NodeStatus) :
    (g.takeOut n).hasStatus m s = if m = n then .removed == s else g.hasStatus m s := by
  rw [hasStatus, node?_takeOut, hasStatus]
  by_cases hmn : m = n
  · subst hmn
    obtain ⟨x, hx⟩ := node?_eq_some_of_lt hn
    simp [hx]
  · have hnm : ¬n = m := fun e => hmn e.symm
    cases g.node? m <;> simp [hmn, hnm]

@[simp] theorem mergedInto?_takeOut (g : InterferenceGraph) (n m : NodeId) :
    (g.takeOut n).mergedInto? m = g.mergedInto? m := by
  rw [mergedInto?, mergedInto?, node?_takeOut]
  by_cases hnm : n = m <;> cases g.node? m <;> simp [hnm]

@[simp] theorem members_takeOut (g : InterferenceGraph) (n m : NodeId) :
    (g.takeOut n).members m = g.members m := by
  rw [members, members, node?_takeOut]
  by_cases hnm : n = m <;> cases g.node? m <;> simp [hnm]

/-! ## Merging -/

section Merge

variable {a b : NodeId}

/-- The first half of a merge: the edges of `b` have gone over to `a`, and the nodes are as
before. -/
def redirectEdges (g : InterferenceGraph) (a b : NodeId) : InterferenceGraph :=
  renewMarks { g with conflicts := g.conflicts.merge a b, moves := g.moves.merge a b }
    (a :: b :: (g.moves.neighbors b).toList)

theorem sameNodes_redirectEdges (g : InterferenceGraph) (a b : NodeId) :
    SameNodes (g.redirectEdges a b) g :=
  sameNodes_setEdges g _ _ _

theorem WellFormed.redirectEdges (hg : g.WellFormed) (hab : a ≠ b) (ha : a < g.size) :
    (g.redirectEdges a b).WellFormed := by
  have ha₁ : a < g.conflicts.size := hg.conflicts_size ▸ ha
  have ha₂ : a < g.moves.size := hg.moves_size ▸ ha
  refine hg.setEdges (hg.conflicts.merge hab ha₁)
    ((Adjacency.size_merge _ a b).trans hg.conflicts_size) (hg.moves.merge hab ha₂)
    ((Adjacency.size_merge _ a b).trans hg.moves_size) fun k hk => ?_
  simp only [List.mem_cons, IdSet.mem_toList, not_or] at hk
  obtain ⟨hka, hkb, hk⟩ := hk
  have hne : ∀ {y}, y ∈ g.moves.neighbors k → y ≠ b := by
    rintro y hy rfl
    exact hk (hg.moves.symm hy)
  ext y
  rw [Adjacency.mem_neighbors_merge_of_ne hg.moves hab ha₂ hka]
  constructor
  · rintro ⟨-, y', hy', rfl⟩
    rwa [Adjacency.rename_of_ne (hne hy')]
  · exact fun hy => ⟨hkb, y, hy, Adjacency.rename_of_ne (hne hy)⟩

theorem merge_self (g : InterferenceGraph) (a : NodeId) : g.merge a a = g := by
  rw [InterferenceGraph.merge, if_pos rfl]

theorem merge_of_ne (hab : a ≠ b) :
    g.merge a b = ((g.redirectEdges a b).modifyNode b fun x =>
        { x with status := .merged, mergedInto := some a, members := [] }).modifyNode a fun x =>
          { x with members := x.members ++ b :: g.members b } := by
  rw [InterferenceGraph.merge, if_neg hab]
  rfl

theorem WellFormed.merge (hg : g.WellFormed) (hab : a ≠ b) (ha : a < g.size) :
    (g.merge a b).WellFormed := by
  rw [merge_of_ne hab]
  refine WellFormed.modifyNode (WellFormed.modifyNode (hg.redirectEdges hab ha) b ?_ ?_) a ?_ ?_
  all_goals exact fun _ => rfl

theorem size_merge (hab : a ≠ b) : (g.merge a b).size = g.size := by
  rw [merge_of_ne hab, size_modifyNode, size_modifyNode]
  exact (sameNodes_redirectEdges g a b).size

theorem conflicts_merge (hab : a ≠ b) : (g.merge a b).conflicts = g.conflicts.merge a b := by
  rw [merge_of_ne hab, conflicts_modifyNode, conflicts_modifyNode, InterferenceGraph.redirectEdges,
    conflicts_renewMarks]

theorem moves_merge (hab : a ≠ b) : (g.merge a b).moves = g.moves.merge a b := by
  rw [merge_of_ne hab, moves_modifyNode, moves_modifyNode, InterferenceGraph.redirectEdges,
    moves_renewMarks]

/-- The nodes after a merge: `b` has left for `a`, and `a` remembers it. -/
theorem node?_merge (hab : a ≠ b) (n : NodeId) :
    (g.merge a b).node? n = ((g.redirectEdges a b).node? n).map fun x =>
      if n = b then { x with status := .merged, mergedInto := some a, members := [] }
      else if n = a then { x with members := x.members ++ b :: g.members b } else x := by
  rw [merge_of_ne hab, node?_modifyNode, node?_modifyNode]
  by_cases hnb : n = b
  · subst hnb
    simp [hab]
  · have hbn : ¬b = n := fun e => hnb e.symm
    by_cases hna : n = a
    · subst hna
      simp [hnb, hbn]
    · have han : ¬a = n := fun e => hna e.symm
      simp [hnb, hbn, hna, han]

theorem symbol?_merge (hab : a ≠ b) (n : NodeId) : (g.merge a b).symbol? n = g.symbol? n := by
  rw [← (sameNodes_redirectEdges g a b).symbol?, symbol?, symbol?, node?_merge hab, Option.map_map]
  congr 1
  funext x
  by_cases hnb : n = b
  · simp [hnb]
  · by_cases hna : n = a <;> simp [hnb, hna, hab]

theorem hasStatus_merge (hab : a ≠ b) (hb : b < g.size) (n : NodeId) (s : NodeStatus) :
    (g.merge a b).hasStatus n s = if n = b then .merged == s else g.hasStatus n s := by
  rw [← (sameNodes_redirectEdges g a b).hasStatus, hasStatus, hasStatus, node?_merge hab]
  by_cases hnb : n = b
  · subst hnb
    rw [← (sameNodes_redirectEdges g a n).size] at hb
    obtain ⟨x, hx⟩ := node?_eq_some_of_lt hb
    simp [hx]
  · by_cases hna : n = a <;> cases (g.redirectEdges a b).node? n <;> simp [hnb, hna, hab]

/-- After a merge `b` is no longer active, and the other nodes are as before. -/
theorem isActive_merge (hab : a ≠ b) (hb : b < g.size) :
    (g.merge a b).isActive n = true ↔ n ≠ b ∧ g.isActive n = true := by
  rw [isActive, hasStatus_merge hab hb]
  by_cases hnb : n = b
  · simp [hnb]
  · simp [hnb, isActive]

theorem isActive_rename (ha : g.isActive a = true) (hn : g.isActive n = true) :
    g.isActive (Adjacency.rename a b n) = true := by
  rcases eq_or_ne n b with rfl | hnb
  · rw [Adjacency.rename_self]
    exact ha
  · rw [Adjacency.rename_of_ne hnb]
    exact hn

theorem mergedInto?_merge (hab : a ≠ b) (hb : b < g.size) (n : NodeId) :
    (g.merge a b).mergedInto? n = if n = b then some a else g.mergedInto? n := by
  rw [← (sameNodes_redirectEdges g a b).mergedInto?, mergedInto?, mergedInto?, node?_merge hab]
  by_cases hnb : n = b
  · subst hnb
    rw [← (sameNodes_redirectEdges g a n).size] at hb
    obtain ⟨x, hx⟩ := node?_eq_some_of_lt hb
    simp [hx]
  · by_cases hna : n = a <;> cases (g.redirectEdges a b).node? n <;> simp [hnb, hna, hab]

theorem members_merge (hab : a ≠ b) (ha : a < g.size) (n : NodeId) :
    (g.merge a b).members n =
      if n = b then [] else if n = a then g.members a ++ b :: g.members b else g.members n := by
  have hsame := sameNodes_redirectEdges g a b
  rw [← hsame.members a, ← hsame.members n, members, node?_merge hab]
  by_cases hnb : n = b
  · cases (g.redirectEdges a b).node? n <;> simp [hnb]
  · by_cases hna : n = a
    · subst hna
      rw [← hsame.size] at ha
      obtain ⟨x, hx⟩ := node?_eq_some_of_lt ha
      have hx' : (g.redirectEdges n b).members n = x.members := by simp [members, hx]
      simp [hx, hx', hnb]
    · cases hx : (g.redirectEdges a b).node? n <;> simp [members, hx, hnb, hna]

end Merge

end InterferenceGraph

/-! ## Sequences of edits -/

namespace Edit

variable {g g' : InterferenceGraph} {e : Edit} {es : List Edit}

theorem perform?_eq_some : e.perform? g = some g' ↔ e.inRange g = true ∧ e.perform g = g' := by
  rw [perform?, Option.ite_none_right_eq_some, Option.some.injEq]

/-- What every edit keeps, a whole sequence keeps.  The property may speak of the edits that are
still to come. -/
theorem performAll?_induction {P : List Edit → InterferenceGraph → Prop}
    (hstep : ∀ e es g g', P (e :: es) g → e.perform? g = some g' → P es g') (hg : P es g)
    (h : performAll? g es = some g') : P [] g' := by
  induction es generalizing g with
  | nil =>
      cases h
      exact hg
  | cons e es ih =>
      rw [performAll?, List.foldlM_cons] at h
      obtain ⟨g₁, h₁, h⟩ := Option.bind_eq_some_iff.mp h
      exact ih (hstep e es g g₁ hg h₁) h

/-- Both nodes of an edit that joins two of them exist, unless they are one node. -/
theorem lt_size_of_inRange {u v : NodeId} (he : e.needs = if u = v then [] else [u, v])
    (hr : e.inRange g = true) (huv : u ≠ v) : u < g.size ∧ v < g.size := by
  rw [inRange, he, if_neg huv] at hr
  simpa using hr

end Edit

namespace InterferenceGraph

/-- **Every edit in range keeps a graph well-formed.** -/
theorem WellFormed.perform? {g g' : InterferenceGraph} {e : Edit} (hg : g.WellFormed)
    (h : e.perform? g = some g') : g'.WellFormed := by
  obtain ⟨hr, rfl⟩ := Edit.perform?_eq_some.mp h
  cases e with
  | addNode s => exact hg.addNode s
  | addConflict u v =>
      rcases eq_or_ne u v with rfl | huv
      · rw [Edit.perform, addConflict_self]
        exact hg
      · obtain ⟨hu, hv⟩ := Edit.lt_size_of_inRange rfl hr huv
        exact hg.addConflict hu hv
  | removeConflict u v => exact hg.removeConflict u v
  | addMove u v =>
      rcases eq_or_ne u v with rfl | huv
      · rw [Edit.perform, InterferenceGraph.addMove, Adjacency.link, if_pos rfl]
        exact hg.setEdges hg.conflicts hg.conflicts_size hg.moves hg.moves_size fun _ _ => rfl
      · obtain ⟨hu, hv⟩ := Edit.lt_size_of_inRange rfl hr huv
        exact hg.addMove hu hv
  | removeMove u v => exact hg.removeMove u v
  | takeOut n => exact hg.takeOut n
  | merge a b =>
      rcases eq_or_ne a b with rfl | hab
      · rw [Edit.perform, merge_self]
        exact hg
      · exact hg.merge hab (Edit.lt_size_of_inRange rfl hr hab).1
  | dropMoves n => exact hg.dropMoves n

/-- **A graph that was made by edits is well-formed.** -/
theorem WellFormed.performAll? {g : InterferenceGraph} {es : List Edit}
    (h : Edit.performAll? ∅ es = some g) : g.WellFormed :=
  Edit.performAll?_induction (P := fun _ g => g.WellFormed) (fun _ _ _ _ hg h => hg.perform? h)
    WellFormed.empty h

end InterferenceGraph

/-! ## Fresh graphs -/

/-- Whether an edit only adds to a graph. -/
def Edit.builds : Edit → Bool
  | .addNode _ | .addConflict _ _ | .addMove _ _ => true
  | .removeConflict _ _ | .removeMove _ _ | .takeOut _ | .merge _ _ | .dropMoves _ => false

namespace InterferenceGraph

/-- **A fresh graph** was made from nothing by adding nodes, conflicts and moves, in any order. -/
def Fresh (g : InterferenceGraph) : Prop :=
  ∃ es : List Edit, (∀ e ∈ es, e.builds = true) ∧ Edit.performAll? ∅ es = some g

/-- Every node is in the graph and none has been merged. -/
structure Untouched (g : InterferenceGraph) : Prop where
  isActive : ∀ n, n < g.size → g.isActive n = true
  mergedInto? : ∀ n, g.mergedInto? n = none
  members : ∀ n, g.members n = []

theorem Untouched.of_sameNodes {g h : InterferenceGraph} (hg : g.Untouched)
    (hgh : SameNodes h g) : h.Untouched where
  isActive n hn := by
    rw [hgh.isActive]
    exact hg.isActive n (hgh.size ▸ hn)
  mergedInto? n := by rw [hgh.mergedInto?, hg.mergedInto?]
  members n := by rw [hgh.members, hg.members]

theorem Untouched.addNode {g : InterferenceGraph} (hg : g.Untouched) (s : SymbolId) :
    (g.addNode s).1.Untouched := by
  cases hs : g.nodeOf? s with
  | some n =>
      rw [addNode_of_some hs]
      exact hg
  | none =>
      refine ⟨fun n hn => ?_, fun n => ?_, fun n => ?_⟩
      · have hn' : n < g.size + 1 := by
          rw [addNode_of_none hs] at hn
          exact hn.trans_eq (Array.size_push _)
        rw [InterferenceGraph.isActive, hasStatus, node?_addNode_of_none hs]
        split
        · rfl
        · rename_i hne
          exact hg.isActive n (Nat.lt_of_le_of_ne (Nat.lt_succ_iff.mp hn') hne)
      · rw [mergedInto?_addNode, hg.mergedInto?]
      · rw [members_addNode, hg.members]

/-- **Building keeps a graph untouched.** -/
theorem Untouched.perform? {g g' : InterferenceGraph} {e : Edit} (hu : g.Untouched)
    (he : e.builds = true) (h : e.perform? g = some g') : g'.Untouched := by
  obtain ⟨-, rfl⟩ := Edit.perform?_eq_some.mp h
  cases e with
  | addNode s => exact hu.addNode s
  | addConflict u v => exact hu.of_sameNodes (sameNodes_addConflict g u v)
  | addMove u v => exact hu.of_sameNodes (sameNodes_addMove g u v)
  | removeConflict u v => exact absurd he (by simp [Edit.builds])
  | removeMove u v => exact absurd he (by simp [Edit.builds])
  | takeOut n => exact absurd he (by simp [Edit.builds])
  | merge a b => exact absurd he (by simp [Edit.builds])
  | dropMoves n => exact absurd he (by simp [Edit.builds])

theorem Untouched.empty : (∅ : InterferenceGraph).Untouched where
  isActive n hn := absurd hn (Nat.not_lt_zero n)
  mergedInto? _ := rfl
  members _ := rfl

theorem Fresh.wellFormed {g : InterferenceGraph} (hg : g.Fresh) : g.WellFormed := by
  obtain ⟨es, -, h⟩ := hg
  exact WellFormed.performAll? h

theorem Fresh.untouched {g : InterferenceGraph} (hg : g.Fresh) : g.Untouched := by
  obtain ⟨es, hes, h⟩ := hg
  refine (Edit.performAll?_induction
    (P := fun es g => (∀ e ∈ es, e.builds = true) ∧ g.Untouched) ?_ ⟨hes, Untouched.empty⟩ h).2
  rintro e es g g' ⟨hes, hu⟩ h
  exact ⟨fun d hd => hes d (List.mem_cons_of_mem e hd), hu.perform? (hes e List.mem_cons_self) h⟩

theorem Fresh.empty : (∅ : InterferenceGraph).Fresh :=
  ⟨[], fun _ he => absurd he List.not_mem_nil, rfl⟩

/-- One more edit that only adds leaves a fresh graph. -/
theorem Fresh.perform {g : InterferenceGraph} (hg : g.Fresh) {e : Edit} (he : e.builds = true)
    (hr : e.inRange g = true) : (e.perform g).Fresh := by
  obtain ⟨es, hes, h⟩ := hg
  refine ⟨es ++ [e], fun d hd => ?_, ?_⟩
  · rcases List.mem_append.mp hd with hd | hd
    · exact hes d hd
    · rw [List.mem_singleton.mp hd]
      exact he
  · rw [Edit.performAll?] at h ⊢
    rw [List.foldlM_append, h]
    simp [Edit.perform?, hr]

theorem Fresh.addNode {g : InterferenceGraph} (hg : g.Fresh) (s : SymbolId) :
    (g.addNode s).1.Fresh :=
  hg.perform (e := .addNode s) rfl rfl

theorem Fresh.addConflict {g : InterferenceGraph} (hg : g.Fresh) {u v : NodeId} (hu : u < g.size)
    (hv : v < g.size) : (g.addConflict u v).Fresh := by
  refine hg.perform (e := .addConflict u v) rfl ?_
  rw [Edit.inRange, Edit.needs]
  split <;> simp [hu, hv]

theorem Fresh.addMove {g : InterferenceGraph} (hg : g.Fresh) {u v : NodeId} (hu : u < g.size)
    (hv : v < g.size) : (g.addMove u v).Fresh := by
  refine hg.perform (e := .addMove u v) rfl ?_
  rw [Edit.inRange, Edit.needs]
  split <;> simp [hu, hv]

end InterferenceGraph

end RegAlloc
