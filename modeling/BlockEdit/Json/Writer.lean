import BlockEdit.Json.Basic

/-!
# Writing JSON

A JSON value is written in two ways: `Json.compact` puts nothing between the parts, and
`Json.pretty` puts each item and each member on a line of its own, two spaces deeper than the line
that opens it. A number that is not whole keeps a point or an exponent, so that it stays one; its
exponent has a sign, and of two equally near decimals the even one stands for it.
-/

namespace BlockEdit

namespace Decimal

/-- JSON writes a number with a point when its first digit stands at most sixteen places before
the point or at most five places behind it, and otherwise with an exponent. -/
def jsonText (d : Decimal) : Text :=
  let length : Int := d.digitText.length
  let point := length + d.exponent
  if 0 ≤ d.exponent ∧ point ≤ 16 then d.positional ++ ['.', '0']
  else if -5 < point ∧ point ≤ 16 then d.positional
  else d.scientific ['+']

end Decimal

namespace Json

/-- The hexadecimal digit of a number below sixteen. -/
def hexDigit (n : Nat) : Char := (Nat.toDigits 16 n).headD '0'

/-- A character inside of a string. -/
def escaped (c : Char) : Text :=
  if c = '"' then ['\\', '"']
  else if c = '\\' then ['\\', '\\']
  else if c = '\n' then ['\\', 'n']
  else if c = '\r' then ['\\', 'r']
  else if c = '\t' then ['\\', 't']
  else if c = '\x08' then ['\\', 'b']
  else if c = '\x0c' then ['\\', 'f']
  else if c.toNat < 0x20 then ['\\', 'u', '0', '0', hexDigit (c.toNat / 16), hexDigit (c.toNat % 16)]
  else [c]

/-- A text as a string. -/
def quoted (t : Text) : Text := '"' :: t.flatMap escaped ++ ['"']

/-- A number that is not whole. -/
def realText (x : Binary64) : Text := x.signText ++ (Decimal.shortest .even x).jsonText

mutual

/-- The value without anything between its parts. -/
def compact : Json → Text
  | .null => "null".toList
  | .bool true => "true".toList
  | .bool false => "false".toList
  | .int i => Text.ofInt i
  | .real x => realText x
  | .text t => quoted t
  | .list items => '[' :: compactItems items ++ [']']
  | .object members => '\x7b' :: compactMembers members ++ ['\x7d']
  | .undefined => "null".toList

/-- The items with commas between them. -/
def compactItems : List Json → Text
  | [] => []
  | [j] => compact j
  | j :: js => compact j ++ ',' :: compactItems js

/-- The members with commas between them. -/
def compactMembers : List (Text × Json) → Text
  | [] => []
  | [(name, j)] => quoted name ++ ':' :: compact j
  | (name, j) :: rest => quoted name ++ ':' :: compact j ++ ',' :: compactMembers rest

end

/-- The start of a line at this depth. -/
def newLine (depth : Nat) : Text := '\n' :: List.replicate (2 * depth) ' '

mutual

/-- The value with each part on a line of its own, starting at this depth. -/
def prettyAt (depth : Nat) : Json → Text
  | .list [] => ['[', ']']
  | .list (j :: js) => '[' :: prettyItems (depth + 1) (j :: js) ++ newLine depth ++ [']']
  | .object [] => ['\x7b', '\x7d']
  | .object (m :: ms) =>
    '\x7b' :: prettyMembers (depth + 1) (m :: ms) ++ newLine depth ++ ['\x7d']
  | j => compact j

/-- The items, each on a line of its own. -/
def prettyItems (depth : Nat) : List Json → Text
  | [] => []
  | [j] => newLine depth ++ prettyAt depth j
  | j :: js => newLine depth ++ prettyAt depth j ++ ',' :: prettyItems depth js

/-- The members, each on a line of its own. -/
def prettyMembers (depth : Nat) : List (Text × Json) → Text
  | [] => []
  | [(name, j)] => newLine depth ++ quoted name ++ ':' :: ' ' :: prettyAt depth j
  | (name, j) :: rest =>
    newLine depth ++ quoted name ++ ':' :: ' ' :: prettyAt depth j ++ ',' :: prettyMembers depth rest

end

/-- The value with each part on a line of its own. -/
def pretty (j : Json) : Text := prettyAt 0 j

end Json

end BlockEdit
