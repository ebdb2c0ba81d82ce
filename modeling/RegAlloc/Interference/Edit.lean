import RegAlloc.Interference.Graph

/-!
# Edits of an interference graph

An `Edit` is one change to an interference graph, with the nodes it names.  An edit is **in range**
if every node it works on exists; one that joins or merges a node with itself changes nothing and
works on none.  `Edit.perform?` refuses edits that are out of range.
-/

namespace RegAlloc

/-- One change to an interference graph. -/
inductive Edit where
  /-- Add a node for a symbol. -/
  | addNode (s : SymbolId)
  /-- Let two nodes interfere. -/
  | addConflict (u v : NodeId)
  /-- Let two nodes interfere no longer. -/
  | removeConflict (u v : NodeId)
  /-- Join two nodes by a move. -/
  | addMove (u v : NodeId)
  /-- Remove the move between two nodes. -/
  | removeMove (u v : NodeId)
  /-- Take a node out of the graph. -/
  | takeOut (n : NodeId)
  /-- Merge the second node into the first. -/
  | merge (a b : NodeId)
  /-- Give up the moves of a node. -/
  | dropMoves (n : NodeId)
deriving DecidableEq, Repr, Inhabited

namespace Edit

/-- The nodes that have to exist for the edit to make sense. -/
def needs : Edit → List NodeId
  | .addNode _ => []
  | .addConflict u v | .addMove u v | .merge u v => if u = v then [] else [u, v]
  | .removeConflict u v | .removeMove u v => [u, v]
  | .takeOut n | .dropMoves n => [n]

/-- Whether every node the edit works on exists. -/
def inRange (g : InterferenceGraph) (e : Edit) : Bool := e.needs.all fun n => decide (n < g.size)

/-- Make the change. -/
def perform (g : InterferenceGraph) : Edit → InterferenceGraph
  | .addNode s => (g.addNode s).1
  | .addConflict u v => g.addConflict u v
  | .removeConflict u v => g.removeConflict u v
  | .addMove u v => g.addMove u v
  | .removeMove u v => g.removeMove u v
  | .takeOut n => g.takeOut n
  | .merge a b => g.merge a b
  | .dropMoves n => g.dropMoves n

/-- Make the change if it is in range. -/
def perform? (g : InterferenceGraph) (e : Edit) : Option InterferenceGraph :=
  if e.inRange g then some (e.perform g) else none

/-- Make several changes, first to last, if each is in range when its turn comes. -/
def performAll? (g : InterferenceGraph) (es : List Edit) : Option InterferenceGraph :=
  es.foldlM perform? g

end Edit

end RegAlloc
