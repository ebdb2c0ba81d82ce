/-!
# What can go wrong

One inductive type holds every failure of the library, as its cause.  The wording lives in
`Error.message` alone.

Three kinds of cause are told apart: the program that came in is malformed, the registers do not
suffice, or the settings make no sense.
-/

namespace RegAlloc

/-- Why settings are refused. -/
inductive SettingsFault where
  /-- The number of registers is not a number. -/
  | notANumber (text : String)
  /-- There is no spill policy of this name. -/
  | unknownPolicy (text : String)
  /-- The number of registers is zero. -/
  | noRegisters
deriving DecidableEq, Repr

/-- The wording of a fault in the settings. -/
def SettingsFault.message : SettingsFault → String
  | .notANumber text => "MJC_REGISTERS is not a number: " ++ text
  | .unknownPolicy text => "unknown MJC_SPILL_POLICY: " ++ text
  | .noRegisters => "register budget must be at least 1"

/-- Why a program gets no registers. -/
inductive Error where
  /-- An instruction stands outside every procedure. -/
  | missingEntry (index : Nat)
  /-- A procedure has two labels of one name. -/
  | duplicateLabel (label procedure : String)
  /-- A procedure jumps to a label it does not have. -/
  | unresolvedLabel (label procedure : String)
  /-- A class is laid out before the class it extends. -/
  | unknownParent (className parent : String)
  /-- Some symbols of a procedure are left without a register; the first one is named. -/
  | outOfRegisters (symbol procedure : String) (count : Nat)
  /-- The settings are refused. -/
  | badSettings (fault : SettingsFault)
deriving DecidableEq, Repr

namespace Error

/-- The wording of an error. -/
def message : Error → String
  | .missingEntry index =>
    "Malformed IR: statement " ++ toString index ++ " precedes any procedure entry"
  | .duplicateLabel label procedure =>
    "Malformed IR: label '" ++ label ++ "' defined twice in " ++ procedure
  | .unresolvedLabel label procedure =>
    "Malformed IR: jump to undefined label '" ++ label ++ "' in " ++ procedure
  | .unknownParent className parent =>
    "Malformed IR: class " ++ className ++ " is laid out before its superclass " ++ parent
  | .outOfRegisters symbol procedure count =>
    "Register allocation failed in " ++ procedure ++ ": no register left for " ++ symbol
      ++ " (" ++ toString count ++ " spilled)"
  | .badSettings fault => "Invalid allocator configuration: " ++ fault.message

/-- Whether the cause is that the program itself is malformed. -/
def isMalformedProgram : Error → Bool
  | .missingEntry _ | .duplicateLabel _ _ | .unresolvedLabel _ _ | .unknownParent _ _ => true
  | .outOfRegisters _ _ _ | .badSettings _ => false

end Error

end RegAlloc
