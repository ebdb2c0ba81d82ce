import RegAlloc.Flow.Block
import RegAlloc.Ids.IdSet

/-!
# Flow graphs

A flow graph is one procedure cut into basic blocks, together with the edges that control may
follow between them.  Blocks are numbered by position, and block `0` is the entry.

The edges are kept as **one ordered list**, from which successors and predecessors are both read
off, so that the two are inverse to each other.  The order is part of the result, because it steers
the numbering of the depth-first search.

Several questions about a flow graph ask which blocks a walk can reach, where the walk goes on from
a block only under some condition.  `reachFrom` answers all of them: it collects everything that
can be reached from some roots along `next`.  The search keeps a work list.  Each round takes one
block from it, and a block puts its neighbours on the list once, when it is first seen; so the
number of rounds is at most the number of roots plus the number of neighbours of all blocks.  Where
the neighbours are successors, or predecessors, that is at most the number of edges, which is the
budget that `FlowGraph.closure` grants.

A flow graph is shown block by block, each with its instructions and, after an arrow, the blocks
that control may go to.
-/

namespace RegAlloc

/-- The control flow of one procedure. -/
structure FlowGraph where
  /-- The name of the procedure. -/
  name : Label
  /-- What its entry label says about it. -/
  procedure : ProcedureEntry
  /-- The basic blocks, in program order. -/
  blocks : List Block
  /-- The edges between blocks, in the order described above. -/
  edges : List (BlockId × BlockId)
deriving DecidableEq, Repr, Inhabited

namespace FlowGraph

/-- The block where control enters. -/
def entryBlock : BlockId := 0

/-- How many blocks there are. -/
def size (g : FlowGraph) : Nat := g.blocks.length

/-- The block with a given number. -/
def block? (g : FlowGraph) (b : BlockId) : Option Block := g.blocks[b]?

/-- The instructions of a block; an unknown block has none. -/
def instrs (g : FlowGraph) (b : BlockId) : List Instr := ((g.block? b).map Block.instrs).getD []

/-- The symbol that holds the receiver. -/
def receiver? (g : FlowGraph) : Option SymbolId := g.procedure.receiver

/-- The blocks that control may go to from `b`, in edge order. -/
def successors (g : FlowGraph) (b : BlockId) : List BlockId :=
  g.edges.filterMap fun e => if e.1 = b then some e.2 else none

/-- The blocks that control may come from to `b`, in edge order. -/
def predecessors (g : FlowGraph) (b : BlockId) : List BlockId :=
  g.edges.filterMap fun e => if e.2 = b then some e.1 else none

/-- The program indices of the instructions, block by block. -/
def indices (g : FlowGraph) : List Nat := g.blocks.flatMap Block.indices

/-- How many instructions the procedure has. -/
def statementCount (g : FlowGraph) : Nat := g.indices.length

/-- The block that holds the instruction with program index `stmt`. -/
def blockOf? (g : FlowGraph) (stmt : Nat) : Option BlockId :=
  g.blocks.findIdx? (·.contains stmt)

/-- The instruction with program index `stmt`, if this procedure owns it. -/
def instr? (g : FlowGraph) (stmt : Nat) : Option Instr := do
  let b ← g.blockOf? stmt
  let block ← g.block? b
  let i ← block.offset? stmt
  block.instrs[i]?

/-- Which of several flow graphs owns the instruction with program index `stmt`, and in which
block. -/
def locate? (gs : List FlowGraph) (stmt : Nat) : Option (Nat × BlockId) :=
  gs.zipIdx.findSome? fun e => (e.1.blockOf? stmt).map fun b => (e.2, b)

/-! ### Both ends of an edge -/

private theorem mem_farEnds {near far : BlockId × BlockId → BlockId} {b c : BlockId}
    {edges : List (BlockId × BlockId)} (edge : BlockId × BlockId)
    (hends : ∀ e, near e = b ∧ far e = c ↔ e = edge) :
    c ∈ (edges.filterMap fun e => if near e = b then some (far e) else none) ↔ edge ∈ edges := by
  simp only [List.mem_filterMap, Option.ite_none_right_eq_some, Option.some.injEq, hends,
    exists_eq_right]

@[simp] theorem mem_successors {g : FlowGraph} {b c : BlockId} :
    c ∈ g.successors b ↔ (b, c) ∈ g.edges :=
  mem_farEnds (b, c) fun _ => by rw [Prod.ext_iff]

@[simp] theorem mem_predecessors {g : FlowGraph} {b c : BlockId} :
    b ∈ g.predecessors c ↔ (b, c) ∈ g.edges :=
  mem_farEnds (b, c) fun _ => by rw [and_comm, Prod.ext_iff]

/-- **Predecessors are the inverse of successors.** -/
theorem mem_successors_iff_mem_predecessors {g : FlowGraph} {b c : BlockId} :
    c ∈ g.successors b ↔ b ∈ g.predecessors c :=
  mem_successors.trans mem_predecessors.symm

end FlowGraph

/-! ### Searching -/

/-- Collect what can be reached from the work list along `next`, in at most `budget` rounds. -/
def reachFrom (next : Nat → List Nat) : Nat → IdSet → List Nat → IdSet
  | 0, seen, _ => seen
  | _ + 1, seen, [] => seen
  | budget + 1, seen, x :: work =>
    if x ∈ seen then reachFrom next budget seen work
    else reachFrom next budget (seen.insert x) (next x ++ work)

@[simp] theorem reachFrom_nil (next : Nat → List Nat) (budget : Nat) (seen : IdSet) :
    reachFrom next budget seen [] = seen := by
  cases budget <;> rfl

namespace FlowGraph

/-- The blocks that can be reached from `roots` along `next`, the roots included.  The neighbours
that `next` gives have to be successors, or have to be predecessors, of the block. -/
def closure (g : FlowGraph) (next : BlockId → List BlockId) (roots : List BlockId) : IdSet :=
  reachFrom next (roots.length + g.edges.length) ∅ roots

/-! ### Texts -/

/-- One block with its instructions and successors. -/
def blockText (g : FlowGraph) (t : SymbolTable) (b : BlockId) (block : Block) : String :=
  "  " ++ BlockId.text b ++ ":\n"
    ++ String.join (block.instrs.map fun i => "    " ++ i.text t ++ "\n")
    ++ "    -> [" ++ ", ".intercalate ((g.successors b).map BlockId.text) ++ "]\n"

/-- The whole flow graph, one line per instruction. -/
def text (g : FlowGraph) (t : SymbolTable) : String :=
  "cfg " ++ g.name ++ " (entry " ++ BlockId.text entryBlock ++ ")\n"
    ++ String.join (g.blocks.zipIdx.map fun e => g.blockText t e.2 e.1)

end FlowGraph

end RegAlloc
