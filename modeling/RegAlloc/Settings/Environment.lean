import RegAlloc.Settings.Basic

/-!
# Settings from the environment

The number of registers and the policy may be given as texts.  Blanks around a text do not matter,
and neither does the case of a policy name, for which there are short forms.  A number may carry a
plus sign.  Blanks are the characters with the Unicode property `White_Space`.

Of several faults the number is reported first, then the policy, then a number of registers that is
zero.  A report quotes the text as it was given.
-/

namespace RegAlloc

/-- The ranges of characters with the property `White_Space`, by code point. -/
def blankRanges : List (Nat × Nat) :=
  [(0x09, 0x0D), (0x20, 0x20), (0x85, 0x85), (0xA0, 0xA0), (0x1680, 0x1680), (0x2000, 0x200A),
    (0x2028, 0x2029), (0x202F, 0x202F), (0x205F, 0x205F), (0x3000, 0x3000)]

/-- Whether a character is blank. -/
def isBlank (c : Char) : Bool := blankRanges.any fun r => decide (r.1 ≤ c.toNat ∧ c.toNat ≤ r.2)

/-- A text without the blanks at its two ends. -/
def trimBlanks (cs : List Char) : List Char :=
  ((cs.dropWhile isBlank).reverse.dropWhile isBlank).reverse

/-- The number that a text denotes, with blanks around it and perhaps a plus sign. -/
def Settings.registersOfText? (text : String) : Option Nat :=
  match trimBlanks text.toList with
  | '+' :: cs => count? cs
  | cs => count? cs

/-- The policy that a text names, with blanks around it and in any case. -/
def SpillPolicy.ofText? (text : String) : Option SpillPolicy :=
  let cs := (trimBlanks text.toList).map Char.toLower
  if cs = "first_found".toList || cs = "first".toList then some .firstFound
  else if cs = "lowest_cost".toList || cs = "cost".toList then some .lowestCost
  else none

namespace Settings

/-- The chosen value: the standard if no text is given, else what the text denotes. -/
def choose {α : Type} (read : String → Option α) (fault : String → SettingsFault) (standard : α) :
    Option String → Except Error α
  | none => .ok standard
  | some text =>
    match read text with
    | some a => .ok a
    | none => .error (.badSettings (fault text))

/-- **Read settings from the two texts** that may be given for them. -/
def ofEnvironment (registers policy : Option String) : Except Error Settings := do
  let registers ← choose registersOfText? .notANumber standard.registers registers
  let policy ← choose SpillPolicy.ofText? .unknownPolicy standard.policy policy
  let settings : Settings := { standard with registers, policy }
  settings.check
  return settings

end Settings

end RegAlloc
