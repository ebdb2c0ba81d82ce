import RegAlloc.Flow.Graph

/-!
# Is a value still read?

After an instruction, a symbol is **still read** if some path that control may take from there
reaches an instruction that uses the symbol before one that defines it.  The question is answered
by a search over blocks: what counts in a block is the first instruction that touches the symbol at
all, and the search goes on through blocks that do not touch it.
-/

namespace RegAlloc

/-- How an instruction first touches a symbol. -/
inductive Touch where
  /-- It reads the symbol; reading comes before writing. -/
  | read
  /-- It writes the symbol without reading it. -/
  | write
deriving DecidableEq, Repr, Inhabited

/-- How an instruction touches `s`, if it does. -/
def Instr.touch? (i : Instr) (s : SymbolId) : Option Touch :=
  if i.reads s then some .read else if i.defines s then some .write else none

/-- How the first instruction of a list that touches `s` does so. -/
def firstTouch? (s : SymbolId) (is : List Instr) : Option Touch := is.findSome? (·.touch? s)

namespace FlowGraph

/-- How a block first touches `s`. -/
def blockTouch? (g : FlowGraph) (s : SymbolId) (b : BlockId) : Option Touch :=
  firstTouch? s (g.instrs b)

/-- Whether a walk from the end of block `b` can read `s` before writing it. -/
def isReadBeyond (g : FlowGraph) (s : SymbolId) (b : BlockId) : Bool :=
  let next (c : BlockId) : List BlockId :=
    if (g.blockTouch? s c).isNone then g.successors c else []
  (g.closure next (g.successors b)).toList.any fun c => g.blockTouch? s c == some .read

/-- **Whether `s` is read on some path after instruction `stmt` before it is written.**  Nothing is
read after an instruction that the procedure does not own. -/
def isReadAfter (g : FlowGraph) (stmt : Nat) (s : SymbolId) : Bool :=
  match g.blockOf? stmt with
  | none => false
  | some b =>
    match firstTouch? s (((g.block? b).map (·.statementsAfter stmt)).getD [] |>.map Prod.snd) with
    | some .read => true
    | some .write => false
    | none => g.isReadBeyond s b

end FlowGraph

end RegAlloc
