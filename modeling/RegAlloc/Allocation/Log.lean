import RegAlloc.Allocation.Program
import RegAlloc.Layout.Basic

/-!
# The log of an allocation

While a program gets its registers, a log records what happens.  An `Event` is one thing that
happened; its level, message and fields are read off it in this file and nowhere else.

The log is a view of the same values as the answer: the flow graphs that were finished before a
failure, the stages of each procedure, and the steps of each reduction.
-/

namespace RegAlloc

/-- How much attention an event deserves. -/
inductive LogLevel where
  | trace
  | debug
  | warn
  /-- The end of a span has no level. -/
  | unlevelled
deriving DecidableEq, Repr, Inhabited

/-- The text of a level. -/
def LogLevel.text : LogLevel → String
  | .trace => "TRACE"
  | .debug => "DEBUG"
  | .warn => "WARN"
  | .unlevelled => ""

/-- One thing that happened. -/
inductive Event where
  /-- A symbol table was laid out. -/
  | layoutDone (classes fields : Nat)
  /-- The flow graph of a procedure was finished. -/
  | flowDone (procedure : String) (blocks : Nat)
  /-- All flow graphs were finished. -/
  | flowsDone (procedures statements : Nat)
  /-- The allocation of a procedure begins. -/
  | procedureBegins (name : String)
  /-- A value is shown as text. -/
  | shown (text : String)
  /-- The liveness of a procedure is known. -/
  | livenessDone (procedure : String) (blocks passes : Nat)
  /-- The interference graph of a procedure is known. -/
  | interferenceDone (procedure : String) (nodes : Nat)
  /-- One node was merged into another. -/
  | mergedNodes (keep gone : NodeId)
  /-- The moves of a node were given up. -/
  | frozeNode (n : NodeId)
  /-- A node was taken out that may find no register. -/
  | potentialSpill (n : NodeId) (degree : Nat)
  /-- A node that should have found a register found none. -/
  | noFreeColor (n : NodeId)
  /-- A symbol is left without a register. -/
  | trueSpill (procedure symbol : String)
  /-- The allocation of a procedure ends. -/
  | procedureEnds
deriving DecidableEq, Repr, Inhabited

namespace Event

/-- The level of an event. -/
def level : Event → LogLevel
  | .layoutDone _ _ | .flowDone _ _ | .shown _ | .mergedNodes _ _ | .frozeNode _ => .trace
  | .flowsDone _ _ | .procedureBegins _ | .livenessDone _ _ _ | .interferenceDone _ _
  | .potentialSpill _ _ => .debug
  | .noFreeColor _ | .trueSpill _ _ => .warn
  | .procedureEnds => .unlevelled

/-- The message of an event. -/
def message : Event → String
  | .layoutDone _ _ => "object layout"
  | .flowDone _ _ => "finished cfg"
  | .flowsDone _ _ => "built control flow graphs"
  | .procedureBegins _ => "span procedure"
  | .shown text => "\n" ++ text
  | .livenessDone _ _ _ => "liveness converged"
  | .interferenceDone _ _ => "built interference graph"
  | .mergedNodes _ _ => "coalesce"
  | .frozeNode _ => "freeze"
  | .potentialSpill _ _ => "potential spill"
  | .noFreeColor _ => "simplified node found no free color"
  | .trueSpill _ _ => "true spill"
  | .procedureEnds => "span end"

/-- The named fields of an event, as texts. -/
def fields : Event → List (String × String)
  | .layoutDone classes fields => [("classes", toString classes), ("fields", toString fields)]
  | .flowDone procedure blocks => [("procedure", procedure), ("blocks", toString blocks)]
  | .flowsDone procedures statements =>
    [("procedures", toString procedures), ("statements", toString statements)]
  | .procedureBegins name => [("name", name)]
  | .livenessDone procedure blocks passes =>
    [("procedure", procedure), ("blocks", toString blocks), ("iterations", toString passes)]
  | .interferenceDone procedure nodes => [("procedure", procedure), ("nodes", toString nodes)]
  | .mergedNodes keep gone => [("keep", NodeId.text keep), ("merge", NodeId.text gone)]
  | .frozeNode n => [("node", NodeId.text n)]
  | .potentialSpill n degree => [("node", NodeId.text n), ("degree", toString degree)]
  | .noFreeColor n => [("node", NodeId.text n)]
  | .trueSpill procedure symbol => [("procedure", procedure), ("symbol", symbol)]
  | .shown _ | .procedureEnds => []

end Event

/-- The log of the layout of a symbol table. -/
def Layout.log (l : Layout) : List Event :=
  [.layoutDone l.classes.size l.offsets.size]

/-- What the log says about a step of the reduction. -/
def Step.event? : Step → Option Event
  | .simplify _ | .constrain _ _ => none
  | .merge u v => some (.mergedNodes u v)
  | .freeze n => some (.frozeNode n)
  | .spill n degree => some (.potentialSpill n degree)

/-- The log of a colouring. -/
def ColoringRun.log (r : ColoringRun) : List Event :=
  r.steps.filterMap Step.event?
    ++ (r.selection.spilled.filter fun n => decide (n ∉ r.reduction.potential)).map .noFreeColor

namespace ProcedureRun

/-- How the log of a procedure ends: the registers, or the symbol that has none. -/
def outcomeLog (t : SymbolTable) (r : ProcedureRun) : List Event :=
  match r.result.spilled with
  | [] => [.shown (r.result.text t)]
  | s :: _ => [.trueSpill r.flow.name (t.name s)]

/-- The log of the allocation of a procedure. -/
def log (t : SymbolTable) (r : ProcedureRun) : List Event :=
  [.procedureBegins r.flow.name,
    .shown (r.flow.text t),
    .livenessDone r.flow.name r.flow.size r.liveness.passes,
    .shown (r.liveness.text r.flow t),
    .interferenceDone r.flow.name r.interference.size,
    .shown (r.interference.text t)]
    ++ r.coloring.log ++ r.outcomeLog t ++ [.procedureEnds]

end ProcedureRun

/-- The log of the allocation of several procedures, which ends with the first that fails. -/
def logFlows (t : SymbolTable) (isField : SymbolId → Bool) (settings : Settings) :
    List FlowGraph → List Event
  | [] => []
  | g :: gs =>
    let run := ProcedureRun.ofFlow isField settings g
    run.log t ++ if run.result.isComplete then logFlows t isField settings gs else []

/-- **The log of the allocation of a program.**  Settings that make no sense leave no trace. -/
def logProgram (p : Program) (isField : SymbolId → Bool) (settings : Settings) : List Event :=
  match settings.check with
  | .error _ => []
  | .ok () =>
    let built := FlowGraph.progress p.instrs
    built.done.map (fun g => .flowDone g.name g.size)
      ++ match built.failure with
        | some _ => []
        | none =>
          .flowsDone built.done.length p.instrs.length
            :: logFlows p.symbols isField settings built.done

end RegAlloc
