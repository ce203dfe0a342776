import BlockEdit.Source.Token
import BlockEdit.Text.Position

/-!
# Faults of a document

A text that is no document has a first fault: a place and a cause. What is merely odd (an unknown
subtype, a value of the wrong type) is not a fault but a `Warning` about a block.
-/

namespace BlockEdit

/-- Why a text is no document. -/
inductive Cause where
  /-- A string has no closing quote. -/
  | unterminatedString
  /-- No token starts like this. -/
  | unexpected (found : Text)
  /-- A line starts with a token that starts no line. -/
  | noLineStart (found : Token)
  /-- A line goes on where it should end. -/
  | noLineEnd (found : Token)
  /-- The name of a parameter is not followed by an equality sign. -/
  | noAssign (key : Text)
  /-- A block is closed where none is open. -/
  | unmatchedClose
  /-- A block is still open at the end. -/
  | neverClosed (name : Text)
  /-- The name in a header is no block name. -/
  | invalidName (name : Text)
  /-- A block already has a child of this name. -/
  | duplicateBlock (name : Text)
  /-- A block already has a parameter of this name. -/
  | duplicateParameter (key : Text)
deriving DecidableEq, Repr

/-- The first fault of a text. -/
structure Fault where
  /-- The line of the place, starting at one. -/
  line : Nat
  /-- The column of the place in characters, starting at one. -/
  column : Nat
  /-- The number of bytes before the place. -/
  offset : Nat
  /-- What is wrong there. -/
  cause : Cause
deriving DecidableEq, Repr

/-- Something odd about a block, which is kept with the block. -/
inductive Warning where
  /-- The block names a subtype that its schema does not have. -/
  | unknownType (path typeName : Text)
  /-- A value does not have the type of its parameter. -/
  | invalidValue (path parameter detail : Text)
deriving DecidableEq, Repr

namespace Cause

/-- The cause in words. -/
def message : Cause → Text
  | .unterminatedString => "unterminated string".toList
  | .unexpected found => "unexpected '".toList ++ found ++ "'".toList
  | .noLineStart found =>
    "expected parameter name or block header, found ".toList ++ found.describe
  | .noLineEnd found => "expected end of line, found ".toList ++ found.describe
  | .noAssign key => "expected '=' after '".toList ++ key ++ "'".toList
  | .unmatchedClose => "block close without matching open".toList
  | .neverClosed name => "block [".toList ++ name ++ "] is never closed".toList
  | .invalidName name => "invalid block name '".toList ++ name ++ "'".toList
  | .duplicateBlock name => "duplicate block [".toList ++ name ++ "]".toList
  | .duplicateParameter key => "duplicate parameter '".toList ++ key ++ "'".toList

end Cause

namespace Fault

/-- The fault of a text at the place with `offset` bytes before it. -/
def locate (source : Text) (offset : Nat) (cause : Cause) : Fault :=
  let position := Text.lineColumn source offset
  ⟨position.1, position.2, offset, cause⟩

/-- The fault in words. -/
def message (f : Fault) : Text :=
  "Malformed input at ".toList ++ Text.ofNat f.line ++ ":".toList ++ Text.ofNat f.column ++
    ": ".toList ++ f.cause.message

end Fault

namespace Warning

/-- The warning in words. -/
def message : Warning → Text
  | .unknownType path typeName =>
    "Unknown type '".toList ++ typeName ++ "' for block ".toList ++ path
  | .invalidValue path parameter detail =>
    "Invalid value for ".toList ++ path ++ "/".toList ++ parameter ++ ": ".toList ++ detail

end Warning

end BlockEdit
