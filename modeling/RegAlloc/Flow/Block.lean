import RegAlloc.Instr

/-!
# Basic blocks

A basic block is a run of instructions that control enters only at the top and leaves only at the
bottom: only its first instruction may be a label, and only its last may transfer control.

A block knows the program index of its first instruction; its own number is its position in the
flow graph that holds it.
-/

namespace RegAlloc

/-- The number of a block: its position in its flow graph. -/
abbrev BlockId := Nat

/-- The text of a block number. -/
def BlockId.text (b : BlockId) : String := "bb" ++ toString b

/-- A basic block. -/
structure Block where
  /-- The program index of the first instruction. -/
  start : Nat
  /-- The instructions in order. -/
  instrs : List Instr
deriving DecidableEq, Repr, Inhabited

namespace Block

/-- How many instructions the block has. -/
def size (b : Block) : Nat := b.instrs.length

/-- Whether the block has no instruction. -/
def isEmpty (b : Block) : Bool := b.instrs.isEmpty

/-- The name of the label at the top of the block. -/
def label? (b : Block) : Option Label := b.instrs.head?.bind Instr.labelName?

/-- The last instruction. -/
def terminator? (b : Block) : Option Instr := b.instrs.getLast?

/-- The label that the last instruction may jump to. -/
def target? (b : Block) : Option Label := b.terminator?.bind Instr.target?

/-- Whether control may leave the block into the next one. -/
def fallsThrough (b : Block) : Bool := b.terminator?.all Instr.fallsThrough

/-- Whether the block holds the instruction with program index `stmt`. -/
def contains (b : Block) (stmt : Nat) : Bool :=
  decide (b.start ≤ stmt ∧ stmt < b.start + b.size)

/-- The position inside the block of the instruction with program index `stmt`. -/
def offset? (b : Block) (stmt : Nat) : Option Nat :=
  if b.contains stmt then some (stmt - b.start) else none

/-- The instructions with their program indices. -/
def statements (b : Block) : List (Nat × Instr) :=
  (b.instrs.zipIdx b.start).map fun e => (e.2, e.1)

/-- The program indices of the instructions. -/
def indices (b : Block) : List Nat := b.statements.map Prod.fst

/-- The instructions after the one with program index `stmt`, with their indices. -/
def statementsAfter (b : Block) (stmt : Nat) : List (Nat × Instr) :=
  b.statements.filter fun e => decide (stmt < e.1)

/-- Whether some instruction of the block writes `s`. -/
def defines (b : Block) (s : SymbolId) : Bool := b.instrs.any (·.defines s)

/-- Whether the block opens with a label. -/
def opensWithLabel (b : Block) : Bool := b.instrs.head?.any Instr.isLabel

end Block

end RegAlloc
