import RegAlloc.Json
import RegAlloc.Settings.Basic

/-!
# Settings as JSON

Settings are written as an object with the members `registers`, `spill_policy` and `pin_receiver`.
When they are read, members may be missing, in which case the standard applies, and members of
other names are ignored; but a member of these names may not occur twice.  An array is accepted as
well, and gives the three values in this order, of which the last ones may be missing.

A policy is a string, or an object whose only member has the name of the policy and the value
`null`.
-/

namespace RegAlloc

namespace SpillPolicy

/-- The name of a policy. -/
def name : SpillPolicy → String
  | .firstFound => "first_found"
  | .lowestCost => "lowest_cost"

/-- The policy of a name. -/
def ofName? (cs : List Char) : Option SpillPolicy :=
  if cs = "first_found".toList then some .firstFound
  else if cs = "lowest_cost".toList then some .lowestCost
  else none

/-- The policy that a JSON value denotes. -/
def ofJson? : Json → Option SpillPolicy
  | .string s => (jsonText? s).bind ofName?
  | .object [(key, .null)] => (jsonText? key).bind ofName?
  | _ => none

end SpillPolicy

namespace Settings

/-- The number of registers that a JSON value denotes: digits alone. -/
def registersOfJson? : Json → Option Nat
  | .number n => if n.negative || !n.plain then none else count? n.digits
  | _ => none

/-- The truth value that a JSON value denotes. -/
def boolOfJson? : Json → Option Bool
  | .bool b => some b
  | _ => none

/-- The settings read so far. -/
structure Draft where
  /-- The number of registers, if it was given. -/
  registers : Option Nat := none
  /-- The policy, if it was given. -/
  policy : Option SpillPolicy := none
  /-- Whether to pin the receiver, if it was given. -/
  pinReceiver : Option Bool := none

namespace Draft

/-- Fill in what was not given. -/
def complete (d : Draft) : Settings where
  registers := d.registers.getD standard.registers
  policy := d.policy.getD standard.policy
  pinReceiver := d.pinReceiver.getD standard.pinReceiver

/-- Take in one member of an object. -/
def member (d : Draft) (m : List JsonChar × Json) : Option Draft := do
  let key ← jsonText? m.1
  if key = "registers".toList then
    if d.registers.isSome then none
    else (registersOfJson? m.2).map fun n => { d with registers := some n }
  else if key = "spill_policy".toList then
    if d.policy.isSome then none
    else (SpillPolicy.ofJson? m.2).map fun p => { d with policy := some p }
  else if key = "pin_receiver".toList then
    if d.pinReceiver.isSome then none
    else (boolOfJson? m.2).map fun b => { d with pinReceiver := some b }
  else return d

end Draft

/-- The settings that a JSON value denotes. -/
def ofJson? : Json → Option Settings
  | .object members => (members.foldlM Draft.member {}).map Draft.complete
  | .array items => do
    if 3 < items.length then none
    else
      let registers ← items[0]?.mapM registersOfJson?
      let policy ← items[1]?.mapM SpillPolicy.ofJson?
      let pinReceiver ← items[2]?.mapM boolOfJson?
      return Draft.complete ⟨registers, policy, pinReceiver⟩
  | _ => none

/-- **Read settings from a JSON text.** -/
def ofJsonText? (text : String) : Option Settings := (Json.read? text).bind ofJson?

/-- The settings as a JSON text without blanks. -/
def toJsonText (s : Settings) : String :=
  "\x7b\"registers\":" ++ toString s.registers
    ++ ",\"spill_policy\":\"" ++ s.policy.name
    ++ "\",\"pin_receiver\":" ++ (if s.pinReceiver then "true" else "false") ++ "\x7d"

end Settings

end RegAlloc
