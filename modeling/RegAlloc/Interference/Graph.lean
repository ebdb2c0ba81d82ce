import RegAlloc.Interference.Adjacency
import RegAlloc.Symbol

/-!
# Interference graphs

The nodes of an interference graph are the symbols of a procedure.  Two nodes **interfere** if they
must not share a register; they are joined by a **move** if a copy between them would vanish if
they did.

Reduction takes nodes out of the graph one by one.  A node is *active* while it is in the graph,
*removed* once it waits for its register, and *merged* once it has been identified with another
node, whose register it will get.  Edges to nodes that have left stay recorded, so the degree of a
node counts only its active neighbours.

Whether a node has any move edge is kept as a mark of its own beside the move edges, because the
reduction asks for it all the time; every change of a move edge renews the marks of both ends.

The text of a graph has one line per node: its number and name, what became of it, the symbols it
interferes with, and the symbols it is joined to by a move if there are any.  Symbols are listed in
symbol order.
-/

namespace RegAlloc

/-- Where a node is in the reduction. -/
inductive NodeStatus where
  /-- Still in the graph. -/
  | active
  /-- Taken out, and waiting for a register. -/
  | removed
  /-- Identified with another node. -/
  | merged
deriving DecidableEq, Repr, Inhabited

/-- One node of an interference graph. -/
structure Vertex where
  /-- The symbol it stands for. -/
  symbol : SymbolId
  /-- Where it is in the reduction. -/
  status : NodeStatus := .active
  /-- The node it was merged into. -/
  mergedInto : Option NodeId := none
  /-- The nodes merged into it, directly or through others. -/
  members : List NodeId := []
  /-- Whether it has a move edge, to an active node or not. -/
  moveRelated : Bool := false
deriving DecidableEq, Repr, Inhabited

/-- An interference graph. -/
structure InterferenceGraph where
  /-- The nodes, by number. -/
  nodes : Array Vertex
  /-- Which nodes must not share a register. -/
  conflicts : Adjacency
  /-- Which nodes would like to share one. -/
  moves : Adjacency
deriving DecidableEq

namespace InterferenceGraph

/-- The graph without nodes. -/
def empty : InterferenceGraph := ⟨#[], ∅, ∅⟩

instance : EmptyCollection InterferenceGraph := ⟨empty⟩

instance : Inhabited InterferenceGraph := ⟨∅⟩

/-! ### Reading -/

/-- How many nodes were ever added. -/
def size (g : InterferenceGraph) : Nat := g.nodes.size

/-- The node with a given number. -/
def node? (g : InterferenceGraph) (n : NodeId) : Option Vertex := g.nodes[n]?

/-- Every node ever added. -/
def nodeIds (g : InterferenceGraph) : List NodeId := List.range g.size

/-- The node of a symbol. -/
def nodeOf? (g : InterferenceGraph) (s : SymbolId) : Option NodeId :=
  g.nodes.findIdx? (·.symbol == s)

/-- The symbol of a node. -/
def symbol? (g : InterferenceGraph) (n : NodeId) : Option SymbolId :=
  (g.node? n).map Vertex.symbol

/-- Whether a node has a given status. -/
def hasStatus (g : InterferenceGraph) (n : NodeId) (s : NodeStatus) : Bool :=
  (g.node? n).any (·.status == s)

/-- Whether a node is still in the graph. -/
def isActive (g : InterferenceGraph) (n : NodeId) : Bool := g.hasStatus n .active

/-- Whether a node has been merged into another. -/
def isMerged (g : InterferenceGraph) (n : NodeId) : Bool := g.hasStatus n .merged

/-- Whether a node has a move edge. -/
def isMoveRelated (g : InterferenceGraph) (n : NodeId) : Bool :=
  (g.node? n).any Vertex.moveRelated

/-- The nodes still in the graph. -/
def activeNodes (g : InterferenceGraph) : List NodeId := g.nodeIds.filter g.isActive

/-- Whether no node is left in the graph. -/
def isReduced (g : InterferenceGraph) : Bool := g.activeNodes.isEmpty

/-- Whether two nodes interfere. -/
def interferes (g : InterferenceGraph) (u v : NodeId) : Bool := g.conflicts.linked u v

/-- Whether two nodes are joined by a move. -/
def hasMove (g : InterferenceGraph) (u v : NodeId) : Bool := g.moves.linked u v

/-- All nodes that interfere with a node, active or not. -/
def neighbors (g : InterferenceGraph) (n : NodeId) : IdSet := g.conflicts.neighbors n

/-- The active nodes that interfere with a node. -/
def activeNeighbors (g : InterferenceGraph) (n : NodeId) : IdSet :=
  (g.neighbors n).filter g.isActive

/-- The active nodes joined to a node by a move. -/
def moveNeighbors (g : InterferenceGraph) (n : NodeId) : IdSet :=
  (g.moves.neighbors n).filter g.isActive

/-- How many active nodes interfere with a node. -/
def degree (g : InterferenceGraph) (n : NodeId) : Nat := (g.activeNeighbors n).size

/-- How many active nodes are joined to a node by a move. -/
def moveDegree (g : InterferenceGraph) (n : NodeId) : Nat := (g.moveNeighbors n).size

/-- The nodes merged into a node. -/
def members (g : InterferenceGraph) (n : NodeId) : List NodeId :=
  ((g.node? n).map Vertex.members).getD []

/-- The node that a node was merged into. -/
def mergedInto? (g : InterferenceGraph) (n : NodeId) : Option NodeId :=
  (g.node? n).bind Vertex.mergedInto

/-- Follow `mergedInto` for at most `budget` steps. -/
def followMerges (g : InterferenceGraph) : Nat → NodeId → NodeId
  | 0, n => n
  | budget + 1, n =>
    match g.mergedInto? n with
    | some m => g.followMerges budget m
    | none => n

/-- The node that stands for a node after all merges; a node that was never merged stands for
itself.  A chain of merges without repetition is shorter than the number of nodes. -/
def representative (g : InterferenceGraph) (n : NodeId) : NodeId := g.followMerges g.size n

/-! ### Changing -/

/-- Change one node. -/
def modifyNode (g : InterferenceGraph) (n : NodeId) (f : Vertex → Vertex) :
    InterferenceGraph :=
  { g with nodes := g.nodes.modify n f }

@[simp] theorem size_modifyNode (g : InterferenceGraph) (n : NodeId) (f : Vertex → Vertex) :
    (g.modifyNode n f).size = g.size := by
  simp [modifyNode, size]

theorem node?_modifyNode (g : InterferenceGraph) (n m : NodeId) (f : Vertex → Vertex) :
    (g.modifyNode n f).node? m = if n = m then (g.node? m).map f else g.node? m := by
  simp [modifyNode, node?, Array.getElem?_modify]

/-- Renew the mark that says whether a node has a move edge. -/
def renewMark (g : InterferenceGraph) (n : NodeId) : InterferenceGraph :=
  g.modifyNode n fun x => { x with moveRelated := !(g.moves.neighbors n).isEmpty }

/-- Renew the marks of several nodes. -/
def renewMarks (g : InterferenceGraph) (ns : List NodeId) : InterferenceGraph :=
  ns.foldl renewMark g

/-- Add a node for a symbol that has none; the result names the node of the symbol. -/
def addNode (g : InterferenceGraph) (s : SymbolId) : InterferenceGraph × NodeId :=
  match g.nodeOf? s with
  | some n => (g, n)
  | none =>
    (⟨g.nodes.push { symbol := s }, g.conflicts.addNode, g.moves.addNode⟩, g.size)

/-- Let two nodes interfere. -/
def addConflict (g : InterferenceGraph) (u v : NodeId) : InterferenceGraph :=
  { g with conflicts := g.conflicts.link u v }

/-- Let two nodes interfere no longer. -/
def removeConflict (g : InterferenceGraph) (u v : NodeId) : InterferenceGraph :=
  { g with conflicts := g.conflicts.unlink u v }

/-- Join two nodes by a move. -/
def addMove (g : InterferenceGraph) (u v : NodeId) : InterferenceGraph :=
  renewMarks { g with moves := g.moves.link u v } [u, v]

/-- Remove the move between two nodes. -/
def removeMove (g : InterferenceGraph) (u v : NodeId) : InterferenceGraph :=
  renewMarks { g with moves := g.moves.unlink u v } [u, v]

/-- Take a node out of the graph; its edges stay recorded. -/
def takeOut (g : InterferenceGraph) (n : NodeId) : InterferenceGraph :=
  g.modifyNode n fun x => { x with status := .removed }

/-- Give up the moves of a node. -/
def dropMoves (g : InterferenceGraph) (n : NodeId) : InterferenceGraph :=
  let partners := (g.moves.neighbors n).toList
  renewMarks { g with moves := g.moves.isolate n } (n :: partners)

/-- **Merge `b` into `a`.**  The edges of `b` become edges of `a`, `b` leaves the graph for good,
and `a` remembers it and everything merged into it before. -/
def merge (g : InterferenceGraph) (a b : NodeId) : InterferenceGraph :=
  if a = b then g
  else
    let partners := (g.moves.neighbors b).toList
    let absorbed := g.members b
    let g := { g with conflicts := g.conflicts.merge a b, moves := g.moves.merge a b }
    let g := g.renewMarks (a :: b :: partners)
    let g := g.modifyNode b fun x =>
      { x with status := .merged, mergedInto := some a, members := [] }
    g.modifyNode a fun x => { x with members := x.members ++ b :: absorbed }

end InterferenceGraph

/-! ### Texts -/

namespace InterferenceGraph

/-- The names of the symbols of some nodes, in symbol order. -/
def namesOf (g : InterferenceGraph) (t : SymbolTable) (ns : IdSet) : String :=
  t.braced (IdSet.ofList (ns.toList.filterMap g.symbol?)).toList

/-- What became of a node. -/
def statusText (x : Vertex) : String :=
  match x.status, x.mergedInto with
  | .merged, some a => " (merged into " ++ NodeId.text a ++ ")"
  | .removed, _ => " (removed)"
  | _, _ => ""

/-- The line of one node. -/
def nodeText (g : InterferenceGraph) (t : SymbolTable) (n : NodeId) (x : Vertex) : String :=
  let moves := g.moves.neighbors n
  NodeId.text n ++ " " ++ t.name x.symbol ++ statusText x
    ++ ": interferes " ++ g.namesOf t (g.neighbors n)
    ++ (if moves.isEmpty then "" else " moves " ++ g.namesOf t moves) ++ "\n"

/-- The whole graph, one line per node. -/
def text (g : InterferenceGraph) (t : SymbolTable) : String :=
  String.join (g.nodes.toList.zipIdx.map fun e => g.nodeText t e.2 e.1)

end InterferenceGraph

end RegAlloc
