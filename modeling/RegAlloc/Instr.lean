import RegAlloc.Symbol

/-!
# Three-address instructions

A program is a flat list of instructions.  Each one **defines** at most one symbol and **uses**
the symbols among its operands, and everything the analyses ask of an instruction is answered
here: what it writes and reads, whether it is a copy between symbols, whether and where it passes
control.

An instruction reads its operands before it writes its result, so one that uses and defines the
same symbol counts as a use first.

A procedure has no bracket of its own: it opens at a label that carries a `ProcedureEntry`.

Instructions are shown in the usual three-address form, with the names of the symbol table.
-/

namespace RegAlloc

/-- The name of a label. -/
abbrev Label := String

/-- An operand: the value of a symbol, or a constant. -/
inductive Operand where
  /-- The value a symbol holds. -/
  | symbol (s : SymbolId)
  /-- A literal. -/
  | const (value : Int)
deriving DecidableEq, Repr, Inhabited

/-- The symbol an operand reads; constants read none. -/
def Operand.symbol? : Operand → Option SymbolId
  | .symbol s => some s
  | .const _ => none

/-- Whether an operand is a literal. -/
def Operand.isConst : Operand → Bool
  | .symbol _ => false
  | .const _ => true

/-- The symbols an operand reads. -/
def Operand.symbols (o : Operand) : List SymbolId := o.symbol?.toList

/-- Operators with two operands. -/
inductive BinaryOp where
  | add | sub | mul | and | lt
deriving DecidableEq, Repr, Inhabited

/-- Operators with one operand. -/
inductive UnaryOp where
  | not | neg
deriving DecidableEq, Repr, Inhabited

/-- What the label at the head of a procedure says about it. -/
structure ProcedureEntry where
  /-- The method that the procedure implements. -/
  method : SymbolId
  /-- Its formal parameters. -/
  params : List SymbolId
  /-- The symbol that holds the object it was called on, if there is one. -/
  receiver : Option SymbolId
deriving DecidableEq, Repr, Inhabited

/-- One three-address instruction. -/
inductive Instr where
  /-- `dst := lhs op rhs` -/
  | binary (op : BinaryOp) (dst : SymbolId) (lhs rhs : Operand)
  /-- `dst := op src` -/
  | unary (op : UnaryOp) (dst : SymbolId) (src : Operand)
  /-- `dst := src` -/
  | copy (dst : SymbolId) (src : Operand)
  /-- `dst := array[index]` -/
  | load (dst array : SymbolId) (index : Operand)
  /-- `array[index] := value`; the array symbol itself is read, not written. -/
  | store (array : SymbolId) (index value : Operand)
  /-- `dst := length array` -/
  | length (dst array : SymbolId)
  /-- `dst := new int, count` -/
  | newArray (dst : SymbolId) (count : Operand)
  /-- `dst := new className` -/
  | newObject (dst : SymbolId) (className : String)
  /-- Pass an argument to the call that follows. -/
  | param (arg : Operand)
  /-- Call a method, keeping the result if a destination is given. -/
  | call (dst : Option SymbolId) (method : SymbolId) (argCount : Nat)
  /-- Jump if the condition is false, else fall through. -/
  | branch (cond : Operand) (target : Label)
  /-- Jump. -/
  | jump (target : Label)
  /-- A place to jump to; with an entry, the head of a procedure. -/
  | label (name : Label) (entry : Option ProcedureEntry)
  /-- Leave the procedure, with a value if it returns one. -/
  | ret (value : Option Operand)
deriving DecidableEq, Repr, Inhabited

namespace Instr

/-- The symbols an instruction writes; there is at most one. -/
def defs : Instr → List SymbolId
  | .binary _ dst _ _ | .unary _ dst _ | .copy dst _ | .load dst _ _ | .length dst _
  | .newArray dst _ | .newObject dst _ => [dst]
  | .call dst _ _ => dst.toList
  | .store _ _ _ | .param _ | .branch _ _ | .jump _ | .label _ _ | .ret _ => []

/-- The symbols an instruction reads, in operand order and with repetition. -/
def uses : Instr → List SymbolId
  | .binary _ _ lhs rhs => lhs.symbols ++ rhs.symbols
  | .unary _ _ src | .copy _ src => src.symbols
  | .load _ array index => array :: index.symbols
  | .store array index value => array :: (index.symbols ++ value.symbols)
  | .length _ array => [array]
  | .newArray _ count => count.symbols
  | .param arg => arg.symbols
  | .branch cond _ => cond.symbols
  | .ret (some value) => value.symbols
  | .newObject _ _ | .call _ _ _ | .jump _ | .label _ _ | .ret none => []

/-- Whether the instruction writes `s`. -/
def defines (i : Instr) (s : SymbolId) : Bool := i.defs.contains s

/-- Whether the instruction reads `s`. -/
def reads (i : Instr) (s : SymbolId) : Bool := i.uses.contains s

/-- Destination and source of a copy between two different symbols. -/
def copyPair? : Instr → Option (SymbolId × SymbolId)
  | .copy dst (.symbol src) => if dst = src then none else some (dst, src)
  | _ => none

/-- Whether the instruction copies a constant. -/
def copiesConstant : Instr → Bool
  | .copy _ (.const _) => true
  | _ => false

/-- Whether control may go elsewhere than to the next instruction. -/
def transfersControl : Instr → Bool
  | .branch _ _ | .jump _ | .ret _ => true
  | _ => false

/-- Whether control may go on to the next instruction. -/
def fallsThrough : Instr → Bool
  | .jump _ | .ret _ => false
  | _ => true

/-- Whether the instruction leaves the procedure. -/
def isReturn : Instr → Bool
  | .ret _ => true
  | _ => false

/-- Whether the instruction is a label. -/
def isLabel : Instr → Bool
  | .label _ _ => true
  | _ => false

/-- The name of a label. -/
def labelName? : Instr → Option Label
  | .label name _ => some name
  | _ => none

/-- The label a jump or branch goes to. -/
def target? : Instr → Option Label
  | .branch _ target | .jump target => some target
  | _ => none

/-- The procedure entry that a label carries. -/
def entry? : Instr → Option ProcedureEntry
  | .label _ entry => entry
  | _ => none

/-- A return transfers control. -/
theorem isReturn_of_not_transfersControl {i : Instr} (h : i.transfersControl = false) :
    i.isReturn = false := by
  cases i with
  | ret => exact absurd h (by simp [transfersControl])
  | _ => rfl

/-- A label does not. -/
theorem isLabel_of_transfersControl {i : Instr} (h : i.transfersControl = true) :
    i.isLabel = false := by
  cases i with
  | label => exact absurd h (by simp [transfersControl])
  | _ => rfl

@[simp] theorem defines_iff {i : Instr} {s : SymbolId} : i.defines s = true ↔ s ∈ i.defs := by
  simp [defines]

@[simp] theorem reads_iff {i : Instr} {s : SymbolId} : i.reads s = true ↔ s ∈ i.uses := by
  simp [reads]

end Instr

/-- A program: its symbols, and its instructions in one flat list. -/
structure Program where
  /-- The names of the symbols. -/
  symbols : SymbolTable
  /-- The instructions of all procedures, one after the other. -/
  instrs : List Instr
deriving Inhabited

/-! ### Texts -/

/-- An operand, by name or as a decimal number. -/
def Operand.text (t : SymbolTable) : Operand → String
  | .symbol s => t.name s
  | .const value => toString value

/-- The sign of an operator with two operands. -/
def BinaryOp.text : BinaryOp → String
  | .add => "+"
  | .sub => "-"
  | .mul => "*"
  | .and => "&&"
  | .lt => "<"

/-- The sign of an operator with one operand. -/
def UnaryOp.text : UnaryOp → String
  | .not => "!"
  | .neg => "-"

/-- An instruction on one line, without the line end. -/
def Instr.text (t : SymbolTable) : Instr → String
  | .binary op dst lhs rhs =>
    t.name dst ++ " := " ++ lhs.text t ++ " " ++ op.text ++ " " ++ rhs.text t
  | .unary op dst src => t.name dst ++ " := " ++ op.text ++ src.text t
  | .copy dst src => t.name dst ++ " := " ++ src.text t
  | .load dst array index => t.name dst ++ " := " ++ t.name array ++ "[" ++ index.text t ++ "]"
  | .store array index value =>
    t.name array ++ "[" ++ index.text t ++ "] := " ++ value.text t
  | .length dst array => t.name dst ++ " := length " ++ t.name array
  | .newArray dst count => t.name dst ++ " := new int, " ++ count.text t
  | .newObject dst className => t.name dst ++ " := new " ++ className
  | .param arg => "param " ++ arg.text t
  | .call dst method argCount =>
    let call := "call " ++ t.name method ++ ", " ++ toString argCount
    match dst with
    | some dst => t.name dst ++ " := " ++ call
    | none => call
  | .branch cond target => "iffalse " ++ cond.text t ++ " goto " ++ target
  | .jump target => "goto " ++ target
  | .label name _ => name ++ ":"
  | .ret (some value) => "return " ++ value.text t
  | .ret none => "return"

end RegAlloc
