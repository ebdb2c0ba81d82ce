import RegAlloc.Allocation.Procedure
import RegAlloc.Flow.Scan

/-!
# Registers for a program

A program is cut into procedures, and each procedure is allocated by itself, in program order.  The
first thing that goes wrong ends the work: settings that make no sense, a malformed program, or a
procedure for which the registers do not suffice.

The result can be asked for the register of a symbol in two ways, which differ if a symbol occurs
in several procedures: `color?` takes the first procedure that has it, and in the merged colouring
the last one wins.
-/

namespace RegAlloc

/-- The registers of one procedure of a program. -/
structure ProcedureRegisters where
  /-- The name of the procedure. -/
  name : Label
  /-- The method that it implements. -/
  method : SymbolId
  /-- Its registers. -/
  coloring : Coloring
deriving DecidableEq

/-- The registers of a program. -/
structure Allocation where
  /-- The procedures in program order. -/
  procedures : List ProcedureRegisters
deriving DecidableEq

namespace Allocation

/-- The first procedure of a given name. -/
def procedure? (a : Allocation) (name : Label) : Option ProcedureRegisters :=
  a.procedures.find? (·.name == name)

/-- The register of a symbol in the first procedure that gives it one. -/
def color? (a : Allocation) (s : SymbolId) : Option Nat :=
  a.procedures.findSome? (·.coloring.color? s)

/-- The registers of all procedures in one map; later procedures win. -/
def merged (a : Allocation) : IdMap Nat :=
  a.procedures.foldl (fun m p => m.insertList p.coloring.colors.toList) ∅

end Allocation

/-- Registers for one procedure of a program. -/
def FlowGraph.allocateNamed (t : SymbolTable) (isField : SymbolId → Bool) (settings : Settings)
    (g : FlowGraph) : Except Error ProcedureRegisters :=
  (FlowGraph.allocate t isField settings g).map fun c => ⟨g.name, g.procedure.method, c⟩

/-- **Registers for a program.** -/
def Program.allocate (p : Program) (isField : SymbolId → Bool) (settings : Settings) :
    Except Error Allocation := do
  settings.check
  let flows ← FlowGraph.ofInstrs p.instrs
  let allocate := FlowGraph.allocateNamed p.symbols isField settings
  let procedures ← (Progress.run allocate flows).toExcept
  return ⟨procedures⟩

end RegAlloc
