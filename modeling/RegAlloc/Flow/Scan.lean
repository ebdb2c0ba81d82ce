import RegAlloc.Error
import RegAlloc.Flow.Graph
import RegAlloc.Progress

/-!
# Scanning a program

The instructions of all procedures come in one list, which is read once from front to back.  A
procedure opens at a label that carries a procedure entry, and ends with a return, before the next
such label, or with the list.  Within it a block ends after an instruction that transfers control,
before a label, and with the procedure.

Three things can be wrong with a program, and they come to light at three different moments.

* An instruction outside every procedure is noticed when the scan comes to it (`Scan.push`).
* A label that its procedure has twice is noticed when the block it opens **ends**
  (`OpenProcedure.addBlock`).
* A jump to a label that its procedure does not have is noticed when the procedure **ends**
  (`OpenProcedure.finish`), because only then are all its labels known.

The first of them to come to light ends the scan.

Edges are listed in the order in which they are found: first those into the next block, as blocks
are added, then those of jumps and branches, in block order, when the procedure ends.  An edge that
is both is listed once.
-/

namespace RegAlloc

/-- List some more edges, each unless it is listed already. -/
def addEdges (edges new : List (BlockId × BlockId)) : List (BlockId × BlockId) :=
  new.foldl (fun edges e => if edges.contains e then edges else edges ++ [e]) edges

/-! ### The procedure that is being read -/

/-- A procedure whose end has not been read yet. -/
structure OpenProcedure where
  /-- The name of the entry label. -/
  name : Label
  /-- What the entry label says about the procedure. -/
  entry : ProcedureEntry
  /-- The blocks that have ended, in order. -/
  blocks : List Block
  /-- The edges between these blocks that are known. -/
  edges : List (BlockId × BlockId)
  /-- The labels of these blocks, each with the number of its block. -/
  labels : List (Label × BlockId)
  /-- The block from which control falls into the next one. -/
  pending : Option BlockId
deriving DecidableEq, Repr, Inhabited

namespace OpenProcedure

/-- A procedure of which no block has ended. -/
def opened (name : Label) (entry : ProcedureEntry) : OpenProcedure :=
  ⟨name, entry, [], [], [], none⟩

/-- The labels with that of the next block, which must be new. -/
def withLabel (p : OpenProcedure) : Option Label → Except Error (List (Label × BlockId))
  | none => .ok p.labels
  | some l =>
    if (p.labels.lookup l).isSome then .error (.duplicateLabel l p.name)
    else .ok ((l, p.blocks.length) :: p.labels)

/-- Add a block that has ended. -/
def addBlock (p : OpenProcedure) (b : Block) : Except Error OpenProcedure := do
  let number := p.blocks.length
  let labels ← p.withLabel b.label?
  return { p with
    blocks := p.blocks ++ [b]
    edges := addEdges p.edges (p.pending.toList.map fun previous => (previous, number))
    labels
    pending := if b.fallsThrough then some number else none }

/-- The edges of the jumps at the ends of some blocks, which are given with their numbers. -/
def jumps (p : OpenProcedure) : List (Block × BlockId) → Except Error (List (BlockId × BlockId))
  | [] => .ok []
  | (b, number) :: rest =>
    match b.target? with
    | none => p.jumps rest
    | some l =>
      match p.labels.lookup l with
      | none => .error (.unresolvedLabel l p.name)
      | some target => (p.jumps rest).map ((number, target) :: ·)

/-- The flow graph of a procedure that has ended. -/
def finish (p : OpenProcedure) : Except Error FlowGraph := do
  let jumps ← p.jumps p.blocks.zipIdx
  return ⟨p.name, p.entry, p.blocks, addEdges p.edges jumps⟩

end OpenProcedure

/-! ### The scan -/

/-- One more instruction at the end of a block, which begins at `index` if it has none yet. -/
def Block.extend (b : Block) (index : Nat) (i : Instr) : Block :=
  ⟨if b.isEmpty then index else b.start, b.instrs ++ [i]⟩

/-- The block without its instructions. -/
def Block.cleared (b : Block) : Block := { b with instrs := [] }

/-- How far a scan has come. -/
structure Scan where
  /-- The flow graphs of the procedures that have ended. -/
  done : List FlowGraph
  /-- The procedure that is being read. -/
  current : Option OpenProcedure
  /-- The block that is being read; if it is empty, none is. -/
  block : Block
deriving DecidableEq, Repr, Inhabited

namespace Scan

/-- Nothing has been read. -/
def start : Scan := ⟨[], none, ⟨0, []⟩⟩

/-- The block ends, if one is being read. -/
def endBlock (s : Scan) : Except Error Scan :=
  if s.block.isEmpty then .ok s
  else
    match s.current with
    | none => .error (.missingEntry s.block.start)
    | some p =>
      (p.addBlock s.block).map fun p => { s with current := some p, block := s.block.cleared }

/-- The procedure ends, if one is being read, and its last block with it. -/
def endProcedure (s : Scan) : Except Error Scan := do
  let s ← s.endBlock
  match s.current with
  | none => return s
  | some p =>
    if p.blocks.isEmpty then return { s with current := none }
    else
      let g ← p.finish
      return { s with done := s.done ++ [g], current := none }

/-- What ends before an instruction: before a label the block, and before an entry the procedure. -/
def endBefore (s : Scan) : Instr → Except Error Scan
  | .label _ none => s.endBlock
  | .label name (some entry) => do
    let s ← s.endBlock
    let s ← s.endProcedure
    return { s with current := some (.opened name entry) }
  | _ => .ok s

/-- Take an instruction into the block that is being read. -/
def push (s : Scan) (index : Nat) (i : Instr) : Except Error Scan :=
  if s.current.isNone then .error (.missingEntry index)
  else .ok { s with block := s.block.extend index i }

/-- What ends after an instruction: after a jump the block, and after a return the procedure. -/
def endAfter (s : Scan) : Instr → Except Error Scan
  | .jump _ | .branch _ _ => s.endBlock
  | .ret _ => do
    let s ← s.endBlock
    s.endProcedure
  | _ => .ok s

/-- **Read one instruction**, with its program index. -/
def visit (s : Scan) (index : Nat) (i : Instr) : Except Error Scan := do
  let s ← s.endBefore i
  let s ← s.push index i
  s.endAfter i

/-- Read the instructions from `index` on, up to the first thing that is wrong.  The step at which
it comes to light finishes no procedure. -/
def run (s : Scan) (index : Nat) : List Instr → Progress Error FlowGraph
  | [] =>
    match s.endProcedure with
    | .error e => ⟨s.done, some e⟩
    | .ok s => ⟨s.done, none⟩
  | i :: is =>
    match s.visit index i with
    | .error e => ⟨s.done, some e⟩
    | .ok s => s.run (index + 1) is

end Scan

namespace FlowGraph

/-- The flow graphs of a program up to the first thing that is wrong with it. -/
def progress (instrs : List Instr) : Progress Error FlowGraph := Scan.start.run 0 instrs

/-- **The flow graphs of all procedures of a program**, in program order. -/
def ofInstrs (instrs : List Instr) : Except Error (List FlowGraph) :=
  (progress instrs).toExcept

end FlowGraph

end RegAlloc
