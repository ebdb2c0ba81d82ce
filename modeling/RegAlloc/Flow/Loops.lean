import RegAlloc.Flow.Dominators
import RegAlloc.Ids.IdMap

/-!
# Loops

A **back edge** leads from a block that control can reach to a block that dominates it.  Its target
is the header of a loop, and the loop of a back edge is the header together with every block from
which the tail of the edge can be reached without passing through the header.  Loops with one
header are one loop.

The search for the members goes against the edges and also finds blocks that control cannot reach.
The depth of a block is the number of loops that hold it.
-/

namespace RegAlloc

/-- The loops of a flow graph: the members of each loop, by header. -/
structure LoopNest where
  /-- Header and members, by ascending header. -/
  loops : IdMap IdSet
deriving DecidableEq, Inhabited

namespace LoopNest

/-- How many loops hold a block. -/
def depth (n : LoopNest) (b : BlockId) : Nat :=
  (n.loops.toList.filter fun l => decide (b ∈ l.2)).length

end LoopNest

namespace FlowGraph

/-- The back edges, as tail and header, in block order. -/
def backEdges (g : FlowGraph) : List (BlockId × BlockId) :=
  let tree := g.domTree
  let reachable := g.reachable
  (List.range g.size).flatMap fun tail =>
    if tail ∈ reachable then
      ((g.successors tail).filter fun header => tree.dominates header tail).map
        fun header => (tail, header)
    else []

/-- The loop of one back edge. -/
def naturalLoop (g : FlowGraph) (tail header : BlockId) : IdSet :=
  if tail = header then IdSet.singleton header
  else (g.closure (fun b => (g.predecessors b).filter (· != header)) [tail]).insert header

/-- **The loops of a flow graph.** -/
def loopNest (g : FlowGraph) : LoopNest :=
  ⟨g.backEdges.foldl
    (fun loops e => loops.insert e.2 (((loops.get? e.2).getD ∅) ∪ g.naturalLoop e.1 e.2)) ∅⟩

end FlowGraph

end RegAlloc
