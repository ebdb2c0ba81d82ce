import RegAlloc.Coloring.Basic
import RegAlloc.Interference.Build

/-!
# Registers for one procedure

A procedure gets its registers in three stages: its liveness, the interference graph that follows
from it, and a colouring of that graph.  A `ProcedureRun` holds all three, so that the answer and
the log are two views of one value.

A colouring that leaves a symbol without a register is a failure: no code is inserted to keep
symbols in memory.
-/

namespace RegAlloc

/-- The stages of the allocation of one procedure. -/
structure ProcedureRun where
  /-- The control flow of the procedure. -/
  flow : FlowGraph
  /-- What is live where. -/
  liveness : Liveness
  /-- The interference graph before any reduction. -/
  interference : InterferenceGraph
  /-- How it was coloured. -/
  coloring : ColoringRun

namespace ProcedureRun

/-- The costs that the policy looks at; it looks at none unless it goes by cost. -/
def costs (policy : SpillPolicy) (g : FlowGraph) (graph : InterferenceGraph) : SpillCosts :=
  match policy with
  | .firstFound => SpillCosts.unknown
  | .lowestCost => SpillCosts.ofLoops g g.loopNest graph

/-- Go through the three stages. -/
def ofFlow (isField : SymbolId → Bool) (settings : Settings) (g : FlowGraph) : ProcedureRun :=
  let liveness := g.liveness
  let graph := InterferenceGraph.build g liveness isField settings.pinReceiver
  ⟨g, liveness, graph,
    ColoringRun.color settings.registers settings.policy graph (costs settings.policy g graph)⟩

/-- The registers in terms of symbols. -/
def result (r : ProcedureRun) : Coloring := r.coloring.result

/-- The registers, or the first symbol that found none. -/
def outcome (t : SymbolTable) (r : ProcedureRun) : Except Error Coloring :=
  let result := r.result
  match result.spilled with
  | [] => .ok result
  | s :: _ => .error (.outOfRegisters (t.name s) r.flow.name result.spilled.length)

end ProcedureRun

/-- **Registers for one procedure.** -/
def FlowGraph.allocate (t : SymbolTable) (isField : SymbolId → Bool) (settings : Settings)
    (g : FlowGraph) : Except Error Coloring := do
  settings.check
  (ProcedureRun.ofFlow isField settings g).outcome t

end RegAlloc
