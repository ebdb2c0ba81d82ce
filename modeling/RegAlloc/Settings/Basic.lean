import RegAlloc.Error

/-!
# Settings

What the user may choose: how many registers there are, which node gives way when they run short,
and whether the receiver keeps a register to itself.

Wherever settings are read from a text, the number of registers is a run of decimal digits whose
value fits into 64 bits (`count?`).
-/

namespace RegAlloc

/-- Which node is given up first when no node can be simplified, merged or frozen. -/
inductive SpillPolicy where
  /-- The first node still in the graph. -/
  | firstFound
  /-- The node whose cost, divided by its degree, is lowest. -/
  | lowestCost
deriving DecidableEq, Repr, Inhabited

/-- The choices of the user. -/
structure Settings where
  /-- How many registers there are. -/
  registers : Nat
  /-- Which node gives way. -/
  policy : SpillPolicy
  /-- Whether the receiver shares its register with no other symbol. -/
  pinReceiver : Bool
deriving DecidableEq, Repr

namespace Settings

/-- What holds where the user chooses nothing. -/
def standard : Settings := ⟨22, .firstFound, false⟩

instance : Inhabited Settings := ⟨standard⟩

/-- The standard settings with another number of registers. -/
def withRegisters (registers : Nat) : Settings := { standard with registers }

/-- Settings make sense if there is at least one register. -/
def check (s : Settings) : Except Error Unit :=
  if s.registers = 0 then .error (.badSettings .noRegisters) else .ok ()

end Settings

/-! ### Numbers in texts -/

/-- The number that a list of decimal digits denotes. -/
def digitsValue (cs : List Char) : Nat := cs.foldl (fun n c => n * 10 + (c.toNat - '0'.toNat)) 0

/-- The number that a text denotes: at least one digit, nothing but the digits `0` to `9`, and a
value of at most 64 bits. -/
def count? (cs : List Char) : Option Nat :=
  if cs.isEmpty || !cs.all Char.isDigit then none
  else if digitsValue cs < UInt64.size then some (digitsValue cs)
  else none

end RegAlloc
