import RegAlloc.Interference.Graph
import RegAlloc.Liveness

/-!
# The interference graph of a procedure

Two symbols interfere if both are live at the top, or both at the bottom, of some block.  A copy
between two symbols joins them by a move.  Every symbol that is written has a node, even if nothing
contends with it.

Reading or writing a field goes through the receiver, so the receiver also interferes with every
field that has a node; when the receiver is **pinned**, it interferes with every other node.

Nodes are numbered as they come up: the receiver, then block by block the symbols written and
copied, then those live at the top and those live at the bottom, each in symbol order.
-/

namespace RegAlloc

namespace InterferenceGraph

/-- Add nodes for a list of symbols; the result names them in order. -/
def addNodes (g : InterferenceGraph) : List SymbolId → InterferenceGraph × List NodeId
  | [] => (g, [])
  | s :: ss =>
    let (g, n) := g.addNode s
    let (g, ns) := g.addNodes ss
    (g, n :: ns)

/-- Let every two of a list of nodes interfere. -/
def linkAll (g : InterferenceGraph) : List NodeId → InterferenceGraph
  | [] => g
  | n :: ns => (ns.foldl (fun g m => g.addConflict n m) g).linkAll ns

/-- Let every two symbols of a live set interfere. -/
def addClique (g : InterferenceGraph) (live : IdSet) : InterferenceGraph :=
  let (g, ns) := g.addNodes live.toList
  g.linkAll ns

/-- Record what one instruction writes and copies. -/
def addInstr (g : InterferenceGraph) (i : Instr) : InterferenceGraph :=
  let (g, _) := g.addNodes i.defs
  match i.copyPair? with
  | none => g
  | some (dst, src) =>
    let (g, u) := g.addNode dst
    let (g, v) := g.addNode src
    g.addMove u v

/-- Record the instructions and the live sets of one block. -/
def addBlock (l : Liveness) (g : InterferenceGraph) (b : BlockId) (block : Block) :
    InterferenceGraph :=
  ((block.instrs.foldl addInstr g).addClique (l.liveIn b)).addClique (l.liveOut b)

/-- Let the receiver interfere with every field, or with every node if it is pinned. -/
def guardReceiver (g : InterferenceGraph) (isField : SymbolId → Bool) (pin : Bool)
    (receiver : SymbolId) : InterferenceGraph :=
  let (g, this) := g.addNode receiver
  g.nodeIds.foldl
    (fun g n => if pin || (g.symbol? n).any isField then g.addConflict this n else g) g

/-- **The interference graph of a procedure**, from its liveness.  `isField` says which symbols are
fields of an object. -/
def build (g : FlowGraph) (l : Liveness) (isField : SymbolId → Bool) (pin : Bool) :
    InterferenceGraph :=
  let start : InterferenceGraph :=
    match g.receiver? with
    | some r => ((∅ : InterferenceGraph).addNode r).1
    | none => ∅
  let graph := g.blocks.zipIdx.foldl (fun h e => h.addBlock l e.2 e.1) start
  match g.receiver? with
  | some r => graph.guardReceiver isField pin r
  | none => graph

end InterferenceGraph

end RegAlloc
