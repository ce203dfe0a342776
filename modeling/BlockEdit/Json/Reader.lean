import BlockEdit.Json.Number

/-!
# Reading JSON

`Json.ofText?` reads a whole text as one JSON value, with nothing but blanks around it. Blanks are
the space, the tab and the two line ends. A number has no leading zero and at least one digit
behind its point; a string holds no control character; nothing is read beyond the grammar.

The readers take a bound on the number of steps, which the length of the text always satisfies.
-/

namespace BlockEdit.Json

/-- The four characters that may stand between the parts of a JSON text. -/
def isSpace (c : Char) : Bool := c == ' ' || c == '\n' || c == '\t' || c == '\r'

/-- The text without the space it starts with. -/
def skipSpace (t : Text) : Text := t.dropWhile isSpace

/-! ## Strings -/

/-- A string is made of characters and, where an escape names half of a surrogate pair, of code
units that may turn out to be unpaired. -/
inductive StringPart where
  /-- A character. -/
  | char (c : Char)
  /-- A code unit of the upper or lower surrogate range. -/
  | surrogate (unit : Nat)

/-- The value of a hexadecimal digit. -/
def hexValue? (c : Char) : Option Nat :=
  if c.isDigit then some (c.toNat - '0'.toNat)
  else if 'a' ≤ c ∧ c ≤ 'f' then some (c.toNat - 'a'.toNat + 10)
  else if 'A' ≤ c ∧ c ≤ 'F' then some (c.toNat - 'A'.toNat + 10)
  else none

/-- The code unit that four hexadecimal digits name. -/
def hexUnit? (a b c d : Char) : Option Nat := do
  return (((← hexValue? a) * 16 + (← hexValue? b)) * 16 + (← hexValue? c)) * 16 + (← hexValue? d)

/-- The part of a string that a code unit stands for. -/
def partOfUnit (unit : Nat) : StringPart :=
  if 0xD800 ≤ unit ∧ unit ≤ 0xDFFF then .surrogate unit else .char (Char.ofNat unit)

/-- The character that an escape of one letter stands for. -/
def escape? : Char → Option Char
  | '"' => some '"'
  | '\\' => some '\\'
  | '/' => some '/'
  | 'b' => some '\x08'
  | 'f' => some '\x0c'
  | 'n' => some '\n'
  | 'r' => some '\r'
  | 't' => some '\t'
  | _ => none

/-- Reads the parts of a string up to its closing quote, and what follows it. -/
def readParts? : Text → Option (List StringPart × Text)
  | [] => none
  | '"' :: rest => some ([], rest)
  | '\\' :: 'u' :: a :: b :: c :: d :: rest => do
    let unit ← hexUnit? a b c d
    let (parts, rest) ← readParts? rest
    return (partOfUnit unit :: parts, rest)
  | '\\' :: e :: rest => do
    let c ← escape? e
    let (parts, rest) ← readParts? rest
    return (.char c :: parts, rest)
  | c :: rest =>
    if c.toNat < 0x20 then none
    else do
      let (parts, rest) ← readParts? rest
      return (.char c :: parts, rest)

/-- The character of a surrogate pair. -/
def pairChar (upper lower : Nat) : Char :=
  Char.ofNat (0x10000 + (upper - 0xD800) * 0x400 + (lower - 0xDC00))

/-- The text of the parts; none when a surrogate has no partner. -/
def textOfParts? : List StringPart → Option Text
  | [] => some []
  | .char c :: rest => (textOfParts? rest).map (c :: ·)
  | .surrogate upper :: .surrogate lower :: rest =>
    if upper < 0xDC00 ∧ 0xDC00 ≤ lower then (textOfParts? rest).map (pairChar upper lower :: ·)
    else none
  | .surrogate _ :: _ => none

/-- Reads the rest of a string behind its opening quote: its text, when it has one. -/
def readString? (t : Text) : Option (Option Text × Text) :=
  (readParts? t).map fun (parts, rest) => (textOfParts? parts, rest)

/-! ## Numbers -/

/-- Reads the point and the digits of a fraction, if there is a point. -/
def readFraction? : Text → Option (Option Text × Text)
  | '.' :: rest =>
    let digits := rest.takeWhile Char.isDigit
    if digits.isEmpty then none else some (some digits, rest.dropWhile Char.isDigit)
  | rest => some (none, rest)

/-- Reads the sign and the digits of an exponent, if there is an exponent. -/
def readPower? : Text → Option (Option (Bool × Text) × Text)
  | [] => some (none, [])
  | c :: rest =>
    if c = 'e' ∨ c = 'E' then
      let (minus, rest) := Binary64.splitSign rest
      let digits := rest.takeWhile Char.isDigit
      if digits.isEmpty then none else some (some (minus, digits), rest.dropWhile Char.isDigit)
    else some (none, c :: rest)

/-- Reads a number without its sign. -/
def readMagnitude? (negative : Bool) (t : Text) : Option (Json × Text) := do
  let whole := t.takeWhile Char.isDigit
  if whole.isEmpty || (whole.head? == some '0' && whole.length != 1) then none
  else
    let (fraction, rest) ← readFraction? (t.dropWhile Char.isDigit)
    let (exponent, rest) ← readPower? rest
    return ((ofParts? negative whole fraction exponent).getD .undefined, rest)

/-! ## Values -/

/-- Reads the word behind its first letter. -/
def readWord? (word : Text) (value : Json) (t : Text) : Option (Json × Text) :=
  (word.isPrefixOf? t).map fun rest => (value, rest)

/-- The members as an object; an object with a name that has no text is undefined. -/
def ofMembers (members : List (Option Text × Json)) : Json :=
  if members.all (·.1.isSome) then .object (members.map fun (name, j) => (name.getD [], j))
  else .undefined

mutual

/-- Reads a value at the start of the text. -/
def readValue? : Nat → Text → Option (Json × Text)
  | 0, _ => none
  | steps + 1, t =>
    match skipSpace t with
    | [] => none
    | c :: rest =>
      if c = 'n' then readWord? "ull".toList .null rest
      else if c = 't' then readWord? "rue".toList (.bool true) rest
      else if c = 'f' then readWord? "alse".toList (.bool false) rest
      else if c = '"' then (readString? rest).map fun (t, rest) => ((t.map .text).getD .undefined, rest)
      else if c = '-' then readMagnitude? true rest
      else if c = '[' then
        match skipSpace rest with
        | ']' :: rest => some (.list [], rest)
        | rest => (readItems? steps rest).map fun (items, rest) => (.list items, rest)
      else if c = '\x7b' then
        match skipSpace rest with
        | '\x7d' :: rest => some (.object [], rest)
        | rest => (readMembers? steps rest).map fun (members, rest) => (ofMembers members, rest)
      else readMagnitude? false (c :: rest)

/-- Reads the items of a list, of which there is at least one, up to its end. -/
def readItems? : Nat → Text → Option (List Json × Text)
  | 0, _ => none
  | steps + 1, t => do
    let (item, rest) ← readValue? steps t
    match skipSpace rest with
    | ']' :: rest => some ([item], rest)
    | ',' :: rest => (readItems? steps rest).map fun (items, rest) => (item :: items, rest)
    | _ => none

/-- Reads the members of an object, of which there is at least one, up to its end. -/
def readMembers? : Nat → Text → Option (List (Option Text × Json) × Text)
  | 0, _ => none
  | steps + 1, t =>
    match skipSpace t with
    | '"' :: rest => do
      let (name, rest) ← readString? rest
      match skipSpace rest with
      | ':' :: rest =>
        let (value, rest) ← readValue? steps rest
        match skipSpace rest with
        | '\x7d' :: rest => some ([(name, value)], rest)
        | ',' :: rest =>
          (readMembers? steps rest).map fun (members, rest) => ((name, value) :: members, rest)
        | _ => none
      | _ => none
    | _ => none

end

/-- Reads the whole text as one value. -/
def ofText? (t : Text) : Option Json := do
  let (j, rest) ← readValue? (2 * t.length + 2) t
  if (skipSpace rest).isEmpty then some j else none

end BlockEdit.Json
