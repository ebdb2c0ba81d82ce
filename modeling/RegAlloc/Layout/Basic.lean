import RegAlloc.Error
import RegAlloc.Ids.IdMap
import RegAlloc.Symbol

/-!
# Object layout

An object is a row of words, one per field.  The fields of a class come after those of the class it
extends, so a field keeps its offset in every class below.  A field that belongs to no class is put
into a row of its own.

A layout is built step by step: `placeField` places a field that belongs to no class, and
`placeClass` places a class, whose parent has to be placed before it.  `ofTable` lays out everything
that a symbol table declares.  To the allocator a layout matters only through the question which
symbols are fields of an object.
-/

namespace RegAlloc

/-- The bytes of a word. -/
def wordSize : Nat := 4

/-- The layout of classes and fields. -/
structure Layout where
  /-- The fields of each class, inherited ones first. -/
  classes : IdMap (List SymbolId)
  /-- The fields that belong to no class, in order. -/
  loose : List SymbolId
  /-- The offset in bytes of each field. -/
  offsets : IdMap Nat
deriving DecidableEq

namespace Layout

/-- The layout of nothing. -/
def empty : Layout := ⟨∅, [], ∅⟩

instance : EmptyCollection Layout := ⟨empty⟩

instance : Inhabited Layout := ⟨∅⟩

/-- The fields of a class, inherited ones first. -/
def fieldsOf? (l : Layout) (c : SymbolId) : Option (List SymbolId) := l.classes.get? c

/-- The offset of a field. -/
def offset? (l : Layout) (s : SymbolId) : Option Nat := l.offsets.get? s

/-- Whether a symbol is a field of an object. -/
def isField (l : Layout) (s : SymbolId) : Bool := l.offsets.contains s

/-- The bytes of an object of a class. -/
def size? (l : Layout) (c : SymbolId) : Option Nat :=
  (l.fieldsOf? c).map fun fields => fields.length * wordSize

/-- Place a field that belongs to no class, and say at which offset.  A field that has an offset
keeps it. -/
def placeField (l : Layout) (s : SymbolId) : Layout × Nat :=
  match l.offset? s with
  | some offset => (l, offset)
  | none =>
    let offset := l.loose.length * wordSize
    ({ l with loose := l.loose ++ [s], offsets := l.offsets.insert s offset }, offset)

/-- The fields of a row with their offsets. -/
def rowOffsets (fields : List SymbolId) : List (SymbolId × Nat) :=
  fields.zipIdx.map fun e => (e.1, e.2 * wordSize)

/-- Give a class its row of fields, and the fields their offsets in it.  What was placed before is
placed anew. -/
def place (l : Layout) (c : SymbolId) (row : List SymbolId) : Layout :=
  { l with
    classes := l.classes.insert c row
    offsets := l.offsets.insertList (rowOffsets row) }

/-- Place a class with its own fields behind those of its parent.  It fails if the parent is not
placed, which is reported under the names that `name` gives. -/
def placeClass (name : SymbolId → String) (l : Layout) (c : SymbolId)
    (parent : Option SymbolId) (fields : List SymbolId) : Except Error Layout :=
  match parent with
  | none => .ok (l.place c fields)
  | some p =>
    match l.fieldsOf? p with
    | some slots => .ok (l.place c (slots ++ fields))
    | none => .error (.unknownParent (name c) (name p))

end Layout

namespace SymbolTable

/-- Whether a symbol is declared as a class. -/
def isClass (t : SymbolTable) (s : SymbolId) : Bool := t.kind? s == some .classType

/-- The classes in order of declaration, with the class each extends. -/
def classes (t : SymbolTable) : List (SymbolId × Option SymbolId) :=
  (t.toList.filter fun d => d.2.kind == .classType).map fun d => (d.1, d.2.owner)

/-- The fields that a class declares, in order. -/
def ownFields (t : SymbolTable) (c : SymbolId) : List SymbolId :=
  (t.toList.filter fun d => d.2.kind == .field && d.2.owner == some c).map Prod.fst

/-- The fields that no class owns, in order. -/
def looseFields (t : SymbolTable) : List SymbolId :=
  (t.toList.filter fun d => d.2.kind == .field && !d.2.owner.any t.isClass).map Prod.fst

end SymbolTable

namespace Layout

/-- **The layout of everything a symbol table declares**: the classes in order of declaration, then
the fields that no class owns.  It fails at the first class whose parent is no class declared
before it. -/
def ofTable (t : SymbolTable) : Except Error Layout := do
  let l ← t.classes.foldlM (fun l c => l.placeClass t.name c.1 c.2 (t.ownFields c.1)) ∅
  return t.looseFields.foldl (fun l s => (l.placeField s).1) l

end Layout

end RegAlloc
