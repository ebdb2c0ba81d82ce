import RegAlloc.Coloring.SpillCost
import RegAlloc.Settings.Basic

/-!
# Reducing an interference graph

Before registers are handed out, the nodes of the interference graph are taken out one by one and
put on a stack.  Each step is the first of the following that applies, where `k` is the number of
registers.

* **Simplify:** take out a node that has fewer than `k` active neighbours and no move edge.
* **Constrain:** drop a move between two nodes that interfere; they can never share a register.
* **Merge:** identify two nodes joined by a move, if the merged node would have fewer than `k`
  active neighbours of degree at least `k`.
* **Freeze:** give up the moves of a node that has fewer than `k` active neighbours.
* **Spill:** give up the moves of the node that the policy picks and take it out, although it may
  find no register later.

Constrain and merge are looked for together: nodes in order, and for each node its partners in
order.

`Reduction.next?` chooses a step and `Reduction.apply` carries it out.  A step takes a node out of
the graph or removes a move, so the number of nodes plus the number of move edges bounds the steps;
`Reduction.budget` counts every move edge from both ends.
-/

namespace RegAlloc

/-- One step of the reduction. -/
inductive Step where
  /-- Take out a node that will find a register. -/
  | simplify (n : NodeId)
  /-- Drop the move between two nodes that interfere. -/
  | constrain (u v : NodeId)
  /-- Merge the second node into the first. -/
  | merge (u v : NodeId)
  /-- Give up the moves of a node. -/
  | freeze (n : NodeId)
  /-- Take out a node, of the given degree, that may find no register. -/
  | spill (n : NodeId) (degree : Nat)
deriving DecidableEq, Repr, Inhabited

/-- The state of a reduction. -/
structure Reduction where
  /-- The graph as reduced so far. -/
  graph : InterferenceGraph
  /-- What it costs to give up a node. -/
  costs : SpillCosts
  /-- The nodes taken out, last one first. -/
  stack : List NodeId
  /-- The nodes taken out by a spill step. -/
  potential : IdSet
  /-- How many merges were made. -/
  merges : Nat

namespace InterferenceGraph

/-! ### Choosing a step -/

/-- The first node that can be simplified. -/
def simplifiable? (g : InterferenceGraph) (k : Nat) : Option NodeId :=
  g.activeNodes.find? fun n => !g.isMoveRelated n && decide (g.degree n < k)

/-- The active neighbours of `u` or `v`, other than these two, of degree at least `k`. -/
def significantNeighbors (g : InterferenceGraph) (k : Nat) (u v : NodeId) : IdSet :=
  (g.activeNeighbors u ∪ g.activeNeighbors v).filter fun n =>
    n != u && n != v && decide (k ≤ g.degree n)

/-- Whether merging two nodes is safe: the merged node has fewer than `k` neighbours of degree at
least `k`, so it can be simplified once the others are gone. -/
def canMerge (g : InterferenceGraph) (k : Nat) (u v : NodeId) : Bool :=
  decide ((g.significantNeighbors k u v).size < k)

/-- What to do about the move between `u` and `v`. -/
def moveStep? (g : InterferenceGraph) (k : Nat) (u v : NodeId) : Option Step :=
  if g.interferes u v then some (.constrain u v)
  else if g.canMerge k u v then some (.merge u v)
  else none

/-- The first move for which there is something to do. -/
def firstMoveStep? (g : InterferenceGraph) (k : Nat) : Option Step :=
  (g.activeNodes.filter g.isMoveRelated).findSome? fun u =>
    (g.moveNeighbors u).toList.findSome? fun v => g.moveStep? k u v

/-- The first node whose moves can be given up. -/
def freezable? (g : InterferenceGraph) (k : Nat) : Option NodeId :=
  g.activeNodes.find? fun n => g.isMoveRelated n && decide (g.degree n < k)

/-- The cost of a node divided by its degree; a node without neighbours counts as one with one. -/
def spillPriority (g : InterferenceGraph) (costs : SpillCosts) (n : NodeId) : Float :=
  costs.cost n / Float.ofNat (max (g.degree n) 1)

/-- The node of least priority, and the first of several. -/
def cheapest? (g : InterferenceGraph) (costs : SpillCosts) (ns : List NodeId) : Option NodeId :=
  let better (best : Option (NodeId × Float)) (n : NodeId) : Option (NodeId × Float) :=
    let p := g.spillPriority costs n
    match best with
    | none => some (n, p)
    | some (m, q) => if p < q then some (n, p) else some (m, q)
  (ns.foldl better none).map Prod.fst

/-- The node that the policy gives up. -/
def victim? (g : InterferenceGraph) (policy : SpillPolicy) (costs : SpillCosts) : Option NodeId :=
  match policy with
  | .firstFound => g.activeNodes.head?
  | .lowestCost => g.cheapest? costs g.activeNodes

end InterferenceGraph

namespace Reduction

/-- The state before the first step. -/
def start (graph : InterferenceGraph) (costs : SpillCosts) : Reduction := ⟨graph, costs, [], ∅, 0⟩

/-- **The next step**; there is none once no node is active. -/
def next? (k : Nat) (policy : SpillPolicy) (r : Reduction) : Option Step :=
  match r.graph.simplifiable? k with
  | some n => some (.simplify n)
  | none =>
    match r.graph.firstMoveStep? k with
    | some step => some step
    | none =>
      match r.graph.freezable? k with
      | some n => some (.freeze n)
      | none => (r.graph.victim? policy r.costs).map fun n => .spill n (r.graph.degree n)

/-- Carry out a step. -/
def apply (r : Reduction) : Step → Reduction
  | .simplify n => { r with graph := r.graph.takeOut n, stack := n :: r.stack }
  | .constrain u v => { r with graph := r.graph.removeMove u v }
  | .merge u v =>
    { r with
      graph := r.graph.merge u v
      costs := r.costs.absorb u v
      merges := r.merges + 1 }
  | .freeze n => { r with graph := r.graph.dropMoves n }
  | .spill n _ =>
    { r with
      graph := (r.graph.dropMoves n).takeOut n
      stack := n :: r.stack
      potential := r.potential.insert n }

/-- Take at most `budget` steps; the result lists them and holds the state after the last one. -/
def run (k : Nat) (policy : SpillPolicy) : Nat → Reduction → List Step × Reduction
  | 0, r => ([], r)
  | budget + 1, r =>
    match r.next? k policy with
    | none => ([], r)
    | some step =>
      let (steps, final) := run k policy budget (r.apply step)
      (step :: steps, final)

/-- How many steps are granted: the nodes, and the ends of the move edges. -/
def budget (graph : InterferenceGraph) : Nat := graph.size + graph.moves.totalDegree

/-- **Reduce a graph** until no node is active. -/
def reduce (k : Nat) (policy : SpillPolicy) (graph : InterferenceGraph) (costs : SpillCosts) :
    List Step × Reduction :=
  run k policy (budget graph) (start graph costs)

@[simp] theorem run_zero (k : Nat) (policy : SpillPolicy) (r : Reduction) :
    run k policy 0 r = ([], r) := rfl

theorem run_succ_none {k : Nat} {policy : SpillPolicy} {r : Reduction} (budget : Nat)
    (h : r.next? k policy = none) : run k policy (budget + 1) r = ([], r) := by
  simp [run, h]

theorem run_succ_some {k : Nat} {policy : SpillPolicy} {r : Reduction} {step : Step} (budget : Nat)
    (h : r.next? k policy = some step) :
    run k policy (budget + 1) r =
      (step :: (run k policy budget (r.apply step)).1, (run k policy budget (r.apply step)).2) := by
  simp [run, h]

end Reduction

end RegAlloc
