import RegAlloc.Flow.Graph

/-!
# Depth-first order and dominators

A depth-first search from the entry block, which follows successors in edge order, finishes each
block that control can reach exactly once.  The **post-order** lists the blocks as they finish; the
**reverse post-order** lists them last finished first, so the entry comes first and every other
block comes after one of its predecessors.

The search holds the path from the entry to the current block on a stack, each block with the
successors it has yet to look at.  Every round either looks at one successor or finishes one block,
so the number of blocks plus the number of edges bounds the rounds.

Block `a` **dominates** block `b` if control cannot get from the entry to `b` without passing
through `a`.  The dominators of a block form a chain, so they are kept as a tree: every reachable
block other than the entry has an immediate dominator.

The tree is computed on positions in reverse post-order.  `doms[p]` is the best dominator known so
far for the block at position `p`, itself a position and smaller than `p`; position `0`, the entry,
is its own.  A pass goes through the positions in order and replaces `doms[p]` by the meet of the
predecessors of `p` that have a value, where the meet of two positions is found by climbing from
the larger one until both agree.  Passes are repeated until one changes nothing.

Values only ever decrease, and there are as many of them as positions, so the square of the number
of blocks bounds the passes.
-/

namespace RegAlloc

/-! ### Depth-first order -/

namespace FlowGraph

/-- Run the depth-first search for at most `budget` rounds.  `seen` holds the blocks met so far,
`stack` the open blocks with their unexplored successors, innermost first, and `finished` the
blocks that are done, last one first. -/
def visit (g : FlowGraph) : Nat → IdSet → List (BlockId × List BlockId) → List BlockId →
    List BlockId
  | 0, _, _, finished => finished
  | _ + 1, _, [], finished => finished
  | budget + 1, seen, (b, []) :: stack, finished => g.visit budget seen stack (b :: finished)
  | budget + 1, seen, (b, c :: cs) :: stack, finished =>
    if c ∈ seen then g.visit budget seen ((b, cs) :: stack) finished
    else g.visit budget (seen.insert c) ((c, g.successors c) :: (b, cs) :: stack) finished

/-- The blocks that control can reach, last finished first. -/
def reversePostOrder (g : FlowGraph) : List BlockId :=
  g.visit (g.size + g.edges.length) (IdSet.singleton entryBlock)
    [(entryBlock, g.successors entryBlock)] []

/-- The blocks that control can reach, in the order in which the search finishes them. -/
def postOrder (g : FlowGraph) : List BlockId := g.reversePostOrder.reverse

/-- The blocks that control can reach. -/
def reachable (g : FlowGraph) : IdSet := IdSet.ofList g.reversePostOrder

end FlowGraph

/-! ### Dominator arrays -/

/-- What is known about immediate dominators, by position in reverse post-order. -/
abbrev DomArray := Array (Option Nat)

namespace DomArray

/-- The dominator known for a position. -/
def at? (doms : DomArray) (p : Nat) : Option Nat := doms[p]?.join

/-- The nearest common dominator of two positions, found in at most `budget` climbs.  A position
without a value ends the climb at the other one. -/
def meetWithin (doms : DomArray) : Nat → Nat → Nat → Nat
  | 0, a, _ => a
  | budget + 1, a, b =>
    if a = b then a
    else if b < a then
      match doms.at? a with
      | some up => doms.meetWithin budget up b
      | none => b
    else
      match doms.at? b with
      | some up => doms.meetWithin budget a up
      | none => a

/-- The nearest common dominator of two positions; each climb lowers one of them. -/
def meet (doms : DomArray) (a b : Nat) : Nat := doms.meetWithin (a + b) a b

/-- The meet of those positions that have a value; none if no position has one. -/
def meetAll (doms : DomArray) (preds : List Nat) : Option Nat :=
  preds.foldl
    (fun found p =>
      if (doms.at? p).isNone then found
      else
        match found with
        | none => some p
        | some current => some (doms.meet p current))
    none

/-- Give position `p` the meet of its predecessors. -/
def refine (doms : DomArray) (p : Nat) (preds : List Nat) : DomArray :=
  match doms.meetAll preds with
  | some d => doms.setIfInBounds p (some d)
  | none => doms

/-- Refine every position but the first, in order; `preds` lists the predecessors by position. -/
def pass (preds : List (List Nat)) (doms : DomArray) : DomArray :=
  (preds.zipIdx.drop 1).foldl (fun doms e => doms.refine e.2 e.1) doms

/-- Repeat the pass until it changes nothing, at most `budget` times. -/
def solve (preds : List (List Nat)) : Nat → DomArray → DomArray
  | 0, doms => doms
  | budget + 1, doms =>
    let doms' := pass preds doms
    if doms' = doms then doms else solve preds budget doms'

/-- At the start only the entry has a value, itself. -/
def start (size : Nat) : DomArray := (Array.replicate size none).setIfInBounds 0 (some 0)

end DomArray

/-- The dominator tree of a flow graph. -/
structure DomTree where
  /-- The immediate dominator of each block, if it has one. -/
  parents : Array (Option BlockId)
deriving DecidableEq, Repr, Inhabited

namespace FlowGraph

/-- For each position in reverse post-order, the positions of the predecessors of its block.
Predecessors that control cannot reach have no position. -/
def predecessorPositions (g : FlowGraph) (order : List BlockId) : List (List Nat) :=
  order.map fun b => (g.predecessors b).filterMap fun p => order.idxOf? p

/-- The immediate dominators by position in reverse post-order. -/
def dominatorPositions (g : FlowGraph) : DomArray :=
  let order := g.reversePostOrder
  DomArray.solve (g.predecessorPositions order) (order.length * order.length + 1)
    (DomArray.start order.length)

/-- **The dominator tree.**  The entry and the blocks that control cannot reach have no immediate
dominator. -/
def domTree (g : FlowGraph) : DomTree :=
  let order := g.reversePostOrder
  let doms := g.dominatorPositions
  let parent (b : BlockId) : Option BlockId :=
    match order.idxOf? b with
    | some (p + 1) => (doms.at? (p + 1)).bind fun d => order[d]?
    | _ => none
  ⟨((List.range g.size).map parent).toArray⟩

end FlowGraph

namespace DomTree

/-- The immediate dominator of a block. -/
def parent? (t : DomTree) (b : BlockId) : Option BlockId := t.parents[b]?.join

/-- Whether `a` is met on the way up from `b`, within `budget` steps. -/
def isAbove (t : DomTree) (a : BlockId) : Nat → BlockId → Bool
  | 0, _ => false
  | budget + 1, b =>
    match t.parent? b with
    | some d => d == a || t.isAbove a budget d
    | none => false

/-- Whether `a` dominates `b`.  A block that control cannot reach is dominated by itself only. -/
def dominates (t : DomTree) (a b : BlockId) : Bool := a == b || t.isAbove a t.parents.size b

end DomTree

end RegAlloc
