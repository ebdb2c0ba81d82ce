import RegAlloc.Coloring.Selection
import RegAlloc.Ids.IdMap

/-!
# Colourings

Colouring an interference graph means reducing it and then handing out registers in the opposite
order.  A `ColoringRun` holds all of that: the steps of the reduction, the state after it, and the
registers.  The result that matters to the user, a `Coloring`, speaks of symbols instead of nodes.
-/

namespace RegAlloc

/-- The registers of the symbols of a procedure. -/
structure Coloring where
  /-- The register of each symbol that has one. -/
  colors : IdMap Nat
  /-- How many copies vanished because their two sides share a register. -/
  merges : Nat
  /-- The symbols taken out by a spill step, in the order of their nodes. -/
  potentialSpills : List SymbolId
  /-- The symbols that found no register, in the order they were served. -/
  spilled : List SymbolId
deriving DecidableEq

namespace Coloring

/-- The register of a symbol. -/
def color? (c : Coloring) (s : SymbolId) : Option Nat := c.colors.get? s

/-- Whether no symbol was left without a register. -/
def isComplete (c : Coloring) : Bool := c.spilled.isEmpty

/-- A line of symbols under a heading; there is no line without symbols. -/
def spillText (t : SymbolTable) (heading : String) (ss : List SymbolId) : String :=
  if ss.isEmpty then "" else heading ++ " " ++ t.braced (IdSet.ofList ss).toList ++ "\n"

/-- One line per symbol with its register, in symbol order, and the spills if there are any. -/
def text (c : Coloring) (t : SymbolTable) : String :=
  String.join (c.colors.toList.map fun e => t.name e.1 ++ " -> r" ++ toString e.2 ++ "\n")
    ++ spillText t "potential spills" c.potentialSpills
    ++ spillText t "spilled" c.spilled

end Coloring

/-- Everything that happened while a graph was coloured. -/
structure ColoringRun where
  /-- The steps of the reduction. -/
  steps : List Step
  /-- The state after the reduction. -/
  reduction : Reduction
  /-- The registers handed out. -/
  selection : Selection

namespace ColoringRun

/-- **Colour a graph** with `k` registers. -/
def color (k : Nat) (policy : SpillPolicy) (graph : InterferenceGraph) (costs : SpillCosts) :
    ColoringRun :=
  let (steps, reduction) := Reduction.reduce k policy graph costs
  ⟨steps, reduction, Selection.ofStack k reduction.graph reduction.stack⟩

/-- The graph after the reduction. -/
def graph (r : ColoringRun) : InterferenceGraph := r.reduction.graph

/-- The symbols with their registers, in the order of their nodes. -/
def assignments (r : ColoringRun) : List (SymbolId × Nat) :=
  r.graph.nodeIds.filterMap fun n => do
    let s ← r.graph.symbol? n
    let c ← r.selection.color? n
    return (s, c)

/-- The result in terms of symbols. -/
def result (r : ColoringRun) : Coloring where
  colors := (∅ : IdMap Nat).insertList r.assignments
  merges := r.reduction.merges
  potentialSpills := r.reduction.potential.toList.filterMap r.graph.symbol?
  spilled := r.selection.spilled.filterMap r.graph.symbol?

end ColoringRun

end RegAlloc
