import RegAlloc.Flow.Graph

/-!
# Where a definition is the only one that arrives

Instruction `stmt` defines a symbol.  `FlowGraph.soleReach` lists the instructions that control can
only get to with exactly this definition in force: it was executed, and no other definition of the
symbol since.

Inside the block of `stmt` these are the instructions after it, up to the next definition.  From
the end of the block the search goes forward through blocks.  A block counts only if nothing else
can arrive at its top, that is, if a search backward from it, which does not pass through the block
of `stmt`, meets neither the entry nor another definition; and the search goes on behind it only if
it has no definition of its own.
-/

namespace RegAlloc

namespace FlowGraph

/-- Whether control can arrive at the top of block `b`, without passing through block `home`, from
the entry or from a definition of `s`. -/
def otherArrives (g : FlowGraph) (s : SymbolId) (home b : BlockId) : Bool :=
  let back (c : BlockId) : List BlockId := (g.predecessors c).filter (· != home)
  b == entryBlock ||
    (g.closure back (back b)).toList.any fun c =>
      c == entryBlock || (g.instrs c).any (·.defines s)

/-- The indices of the instructions of a list before the first one that defines `s`. -/
def untilDefined (s : SymbolId) (statements : List (Nat × Instr)) : List Nat :=
  (statements.takeWhile fun e => !e.2.defines s).map Prod.fst

/-- The instructions in other blocks than `home` at which only the definition of `s` in `home`
arrives, given that it arrives at the end of `home`. -/
def soleReachBeyond (g : FlowGraph) (s : SymbolId) (home : BlockId) : List Nat :=
  let next (c : BlockId) : List BlockId :=
    if g.otherArrives s home c || (g.instrs c).any (·.defines s) then []
    else (g.successors c).filter (· != home)
  let blocks := g.closure next ((g.successors home).filter (· != home))
  blocks.toList.flatMap fun c =>
    if g.otherArrives s home c then []
    else untilDefined s (((g.block? c).map Block.statements).getD [])

/-- **The instructions at which the definition made by `stmt` is the only one that arrives**, in
program order.  The list is empty if `stmt` defines nothing. -/
def soleReach (g : FlowGraph) (stmt : Nat) : List Nat :=
  match g.blockOf? stmt, (g.instr? stmt).bind (·.defs.head?) with
  | some home, some s =>
    let after := ((g.block? home).map (·.statementsAfter stmt)).getD []
    let near := untilDefined s after
    if after.any fun e => e.2.defines s then near
    else (IdSet.ofList (near ++ g.soleReachBeyond s home)).toList
  | _, _ => []

end FlowGraph

end RegAlloc
