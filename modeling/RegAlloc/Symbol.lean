/-!
# Symbols

A program refers to its variables, fields, methods and classes by small numbers.  A `SymbolTable`
gives the numbers `0, 1, 2, …` their names, in the order of declaration.  A number beyond the table
is legal everywhere; it is shown as `s` followed by the number.
-/

namespace RegAlloc

/-- The number of a symbol: its position in the order of declaration. -/
abbrev SymbolId := Nat

/-- The text of a symbol that has no declared name. -/
def SymbolId.text (s : SymbolId) : String := "s" ++ toString s

/-- What a symbol stands for. -/
inductive SymbolKind where
  /-- A variable of a method body. -/
  | localVar
  /-- A formal parameter. -/
  | param
  /-- A value that the front end named itself. -/
  | temp
  /-- A field of an object. -/
  | field
  /-- A method. -/
  | method
  /-- The object on which a method was called. -/
  | receiver
  /-- A class. -/
  | classType
deriving DecidableEq, Repr, Inhabited

/-- One declared symbol. -/
structure Symbol where
  /-- The name it is shown by; names need not be distinct. -/
  name : String
  /-- What it stands for. -/
  kind : SymbolKind
  /-- The class of a field, or the parent of a class. -/
  owner : Option SymbolId
deriving DecidableEq, Repr, Inhabited

/-- The declared symbols, by number. -/
structure SymbolTable where
  /-- The declarations in order. -/
  symbols : Array Symbol
deriving DecidableEq, Repr

namespace SymbolTable

/-- The table without declarations. -/
def empty : SymbolTable := ⟨#[]⟩

instance : EmptyCollection SymbolTable := ⟨empty⟩

instance : Inhabited SymbolTable := ⟨∅⟩

/-- How many symbols are declared; this is also the number that the next declaration gets. -/
def size (t : SymbolTable) : Nat := t.symbols.size

/-- Append a declaration. -/
def push (t : SymbolTable) (s : Symbol) : SymbolTable := ⟨t.symbols.push s⟩

/-- Declare a symbol that belongs to nothing. -/
def declare (t : SymbolTable) (name : String) (kind : SymbolKind) : SymbolTable :=
  t.push ⟨name, kind, none⟩

/-- Declare a class, with its parent if it extends one. -/
def declareClass (t : SymbolTable) (name : String) (parent : Option SymbolId) : SymbolTable :=
  t.push ⟨name, .classType, parent⟩

/-- Declare a field of a class. -/
def declareField (t : SymbolTable) (name : String) (owner : SymbolId) : SymbolTable :=
  t.push ⟨name, .field, some owner⟩

/-- The declaration with a given number. -/
def get? (t : SymbolTable) (s : SymbolId) : Option Symbol := t.symbols[s]?

/-- The name a symbol is shown by. -/
def name (t : SymbolTable) (s : SymbolId) : String :=
  match t.get? s with
  | some d => d.name
  | none => SymbolId.text s

/-- The kind of a declared symbol. -/
def kind? (t : SymbolTable) (s : SymbolId) : Option SymbolKind := (t.get? s).map Symbol.kind

/-- The owner of a declared symbol that has one. -/
def owner? (t : SymbolTable) (s : SymbolId) : Option SymbolId := (t.get? s).bind Symbol.owner

/-- The declarations with their numbers, in order. -/
def toList (t : SymbolTable) : List (SymbolId × Symbol) :=
  t.symbols.toList.zipIdx.map fun d => (d.2, d.1)

/-- The names of a list of symbols, between braces and divided by commas. -/
def braced (t : SymbolTable) (ss : List SymbolId) : String :=
  "\x7b" ++ ", ".intercalate (ss.map t.name) ++ "\x7d"

end SymbolTable

end RegAlloc
