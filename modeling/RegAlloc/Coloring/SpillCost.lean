import RegAlloc.Flow.Loops
import RegAlloc.Interference.Graph

/-!
# Spill costs

Keeping a symbol out of registers costs most where it is used most.  The cost of a node is the sum,
over all instructions that write or read its symbol, of ten to the power of the loop depth of the
block; an instruction that mentions the symbol several times counts each time.

Costs are floating-point numbers, added in program order.  A node for which no cost is known costs
one.
-/

namespace RegAlloc

/-- The costs of the nodes, by number. -/
abbrev SpillCosts := Array Float

namespace SpillCosts

/-- The product of `acc` and `base` to the power `n`, by repeated squaring in at most `budget`
rounds. -/
def power : Nat → Float → Float → Nat → Float
  | 0, acc, _, _ => acc
  | budget + 1, acc, base, n =>
    if n = 0 then acc
    else power budget (if n % 2 = 1 then acc * base else acc) (base * base) (n / 2)

/-- What one mention of a symbol costs at a given loop depth. -/
def weight (depth : Nat) : Float := power depth 1.0 10.0 depth

/-- No cost is known for any node. -/
def unknown : SpillCosts := #[]

/-- The cost of a node. -/
def cost (c : SpillCosts) (n : NodeId) : Float := c.getD n 1.0

/-- Add to the cost of a node. -/
def add (c : SpillCosts) (n : NodeId) (w : Float) : SpillCosts := c.modify n (· + w)

/-- When `v` is merged into `u`, its cost goes to `u`, if it is known. -/
def absorb (costs : SpillCosts) (u v : NodeId) : SpillCosts :=
  match costs[v]? with
  | some w => costs.add u w
  | none => costs

/-- Charge every mention of a symbol in one instruction. -/
def chargeInstr (graph : InterferenceGraph) (w : Float) (c : SpillCosts) (i : Instr) : SpillCosts :=
  (i.defs ++ i.uses).foldl
    (fun c s =>
      match graph.nodeOf? s with
      | some n => c.add n w
      | none => c) c

/-- **The costs of all nodes** of the interference graph of a procedure. -/
def ofLoops (g : FlowGraph) (loops : LoopNest) (graph : InterferenceGraph) : SpillCosts :=
  g.blocks.zipIdx.foldl
    (fun c e => e.1.instrs.foldl (chargeInstr graph (weight (loops.depth e.2))) c)
    (Array.replicate graph.size 0.0)

end SpillCosts

end RegAlloc
