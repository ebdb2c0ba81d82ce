/-!
# JSON

A JSON value as it was written.  Nothing is lost that a reader of settings may object to: members of
an object keep their order and may repeat, numbers keep their form, and strings keep the escapes
that name a 16-bit unit, because two of them may make up one character and one alone may be none.

`Json.read?` accepts exactly the texts of the JSON grammar: one value with blanks around it and
nothing else.  Blanks are space, tab, line feed and carriage return; numbers have no leading zero,
no plus sign and no bare point; strings hold no control character; there is no comma before a
closing bracket.

The reader goes down the text with a budget.  Each round either takes a character or is followed by
one that does, so twice the length of the text is enough.
-/

namespace RegAlloc

/-- A character of a string, or an escaped 16-bit unit. -/
inductive JsonChar where
  /-- A character, written as itself or by a short escape. -/
  | plain (c : Char)
  /-- A unit written with four hexadecimal digits. -/
  | unit (code : Nat)
deriving DecidableEq, Repr, Inhabited

/-- A number as it was written. -/
structure JsonNumber where
  /-- Whether a minus sign stands in front. -/
  negative : Bool
  /-- The digits before the point. -/
  digits : List Char
  /-- Whether there is neither a fraction nor an exponent. -/
  plain : Bool
deriving DecidableEq, Repr, Inhabited

/-- A JSON value. -/
inductive Json where
  | null
  | bool (b : Bool)
  | number (n : JsonNumber)
  | string (s : List JsonChar)
  | array (items : List Json)
  | object (members : List (List JsonChar × Json))

/-- Whether a unit is the first half of a character beyond 16 bits. -/
def isLeadUnit (code : Nat) : Bool := decide (0xD800 ≤ code ∧ code ≤ 0xDBFF)

/-- Whether a unit is the second half of a character beyond 16 bits. -/
def isTrailUnit (code : Nat) : Bool := decide (0xDC00 ≤ code ∧ code ≤ 0xDFFF)

/-- The character that two halves make up. -/
def joinUnits (lead trail : Nat) : Char :=
  Char.ofNat (0x10000 + (lead - 0xD800) * 0x400 + (trail - 0xDC00))

/-- The text of a string.  A half of a character that is not followed, or not preceded, by its
other half makes it no text. -/
def jsonText? : List JsonChar → Option (List Char)
  | [] => some []
  | .plain c :: rest => (jsonText? rest).map (c :: ·)
  | .unit lead :: .unit trail :: rest =>
    if isLeadUnit lead then
      if isTrailUnit trail then (jsonText? rest).map (joinUnits lead trail :: ·) else none
    else if isTrailUnit lead then none
    else (jsonText? (.unit trail :: rest)).map (Char.ofNat lead :: ·)
  | .unit code :: rest =>
    if isLeadUnit code || isTrailUnit code then none
    else (jsonText? rest).map (Char.ofNat code :: ·)

/-! ### Reading -/

namespace Json

/-- The text without the blanks in front of it. -/
def skipBlanks (cs : List Char) : List Char :=
  cs.dropWhile fun c => c == ' ' || c == '\t' || c == '\n' || c == '\r'

/-- The value of a hexadecimal digit. -/
def hexValue? (c : Char) : Option Nat :=
  if c.isDigit then some (c.toNat - '0'.toNat)
  else if 'a' ≤ c && c ≤ 'f' then some (c.toNat - 'a'.toNat + 10)
  else if 'A' ≤ c && c ≤ 'F' then some (c.toNat - 'A'.toNat + 10)
  else none

/-- The unit that four hexadecimal digits denote. -/
def hexUnit? (a b c d : Char) : Option Nat := do
  let a ← hexValue? a
  let b ← hexValue? b
  let c ← hexValue? c
  let d ← hexValue? d
  return ((a * 16 + b) * 16 + c) * 16 + d

/-- The character that a short escape stands for. -/
def shortEscape? : Char → Option Char
  | '"' => some '"'
  | '\\' => some '\\'
  | '/' => some '/'
  | 'b' => some '\x08'
  | 'f' => some '\x0c'
  | 'n' => some '\n'
  | 'r' => some '\r'
  | 't' => some '\t'
  | _ => none

/-- Read a string, behind its opening quote. -/
def readString : List Char → Option (List JsonChar × List Char)
  | [] => none
  | '"' :: rest => some ([], rest)
  | '\\' :: 'u' :: a :: b :: c :: d :: rest => do
    let code ← hexUnit? a b c d
    let (s, rest) ← readString rest
    return (.unit code :: s, rest)
  | '\\' :: e :: rest => do
    let c ← shortEscape? e
    let (s, rest) ← readString rest
    return (.plain c :: s, rest)
  | c :: rest =>
    if c.toNat < 0x20 || c == '\\' then none
    else do
      let (s, rest) ← readString rest
      return (.plain c :: s, rest)

/-- Read at least one digit. -/
def readDigits (cs : List Char) : Option (List Char × List Char) :=
  let digits := cs.takeWhile Char.isDigit
  if digits.isEmpty then none else some (digits, cs.dropWhile Char.isDigit)

/-- Read the digits before the point: a zero alone, or digits of which the first is not zero. -/
def readInteger : List Char → Option (List Char × List Char)
  | '0' :: rest => some (['0'], rest)
  | cs => readDigits cs

/-- Read a fraction, if there is one, and say whether there is. -/
def readFraction : List Char → Option (Bool × List Char)
  | '.' :: rest => (readDigits rest).map fun r => (true, r.2)
  | cs => some (false, cs)

/-- Read the digits of an exponent, behind its mark. -/
def readExponentDigits : List Char → Option (Bool × List Char)
  | '+' :: rest => (readDigits rest).map fun r => (true, r.2)
  | '-' :: rest => (readDigits rest).map fun r => (true, r.2)
  | cs => (readDigits cs).map fun r => (true, r.2)

/-- Read an exponent, if there is one, and say whether there is. -/
def readExponent : List Char → Option (Bool × List Char)
  | 'e' :: rest => readExponentDigits rest
  | 'E' :: rest => readExponentDigits rest
  | cs => some (false, cs)

/-- Read a number without its sign. -/
def readUnsigned (negative : Bool) (cs : List Char) : Option (JsonNumber × List Char) := do
  let (digits, cs) ← readInteger cs
  let (fraction, cs) ← readFraction cs
  let (exponent, cs) ← readExponent cs
  return (⟨negative, digits, !fraction && !exponent⟩, cs)

/-- Read a number. -/
def readNumber : List Char → Option (JsonNumber × List Char)
  | '-' :: rest => readUnsigned true rest
  | cs => readUnsigned false cs

mutual

/-- Read a value, with blanks in front. -/
def readValue : Nat → List Char → Option (Json × List Char)
  | 0, _ => none
  | budget + 1, cs =>
    match skipBlanks cs with
    | 'n' :: 'u' :: 'l' :: 'l' :: rest => some (.null, rest)
    | 't' :: 'r' :: 'u' :: 'e' :: rest => some (.bool true, rest)
    | 'f' :: 'a' :: 'l' :: 's' :: 'e' :: rest => some (.bool false, rest)
    | '"' :: rest => do
      let (s, rest) ← readString rest
      return (.string s, rest)
    | '[' :: rest =>
      match skipBlanks rest with
      | ']' :: rest => some (.array [], rest)
      | rest => do
        let (items, rest) ← readItems budget rest
        return (.array items, rest)
    | '\x7b' :: rest =>
      match skipBlanks rest with
      | '\x7d' :: rest => some (.object [], rest)
      | rest => do
        let (members, rest) ← readMembers budget rest
        return (.object members, rest)
    | cs => do
      let (n, rest) ← readNumber cs
      return (.number n, rest)

/-- Read the items of an array up to its closing bracket; there is at least one. -/
def readItems : Nat → List Char → Option (List Json × List Char)
  | 0, _ => none
  | budget + 1, cs => do
    let (item, rest) ← readValue budget cs
    match skipBlanks rest with
    | ',' :: rest =>
      let (items, rest) ← readItems budget rest
      return (item :: items, rest)
    | ']' :: rest => return ([item], rest)
    | _ => none

/-- Read the members of an object up to its closing brace; there is at least one. -/
def readMembers : Nat → List Char → Option (List (List JsonChar × Json) × List Char)
  | 0, _ => none
  | budget + 1, cs =>
    match skipBlanks cs with
    | '"' :: rest => do
      let (key, rest) ← readString rest
      match skipBlanks rest with
      | ':' :: rest =>
        let (value, rest) ← readValue budget rest
        match skipBlanks rest with
        | ',' :: rest =>
          let (members, rest) ← readMembers budget rest
          return ((key, value) :: members, rest)
        | '\x7d' :: rest => return ([(key, value)], rest)
        | _ => none
      | _ => none
    | _ => none

end

/-- **Read a text as one JSON value.** -/
def read? (text : String) : Option Json := do
  let cs := text.toList
  let (value, rest) ← readValue (2 * cs.length + 2) cs
  if (skipBlanks rest).isEmpty then return value else none

end Json

end RegAlloc
