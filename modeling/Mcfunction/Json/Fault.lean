import Mcfunction.Json.Printer
import Mcfunction.Text.Escaped

/-! What can be wrong with a JSON text: its form, or its fit to the data that it should describe. A fault
is placed at a line and, in bytes, a column of the text. -/

namespace Mcfunction.Json

inductive Found where
  | null
  | bool (value : Bool)
  | integer (value : Int)
  | floating (value : Floating)
  | string (value : String)
  | sequence
  | map

def Found.describe : Found → String
  | .null => "null"
  | .bool b => "boolean `" ++ (if b then "true" else "false") ++ "`"
  | .integer i => "integer `" ++ toString i ++ "`"
  | .floating x => "floating point `" ++ x.write .double numberStyle ++ "`"
  | .string s => "string " ++ Text.escaped s
  | .sequence => "sequence"
  | .map => "map"

inductive Cause where
  | unclosedList
  | unclosedObject
  | unclosedString
  | missingValue
  | expectedColon
  | expectedListEnd
  | expectedObjectEnd
  | expectedIdent
  | expectedValue
  | invalidEscape
  | invalidNumber
  | numberOutOfRange
  | controlCharacter
  | keyNotString
  | loneSurrogate
  | trailingComma
  | trailingCharacters
  | unfinishedSurrogate
  | tooDeep
  | invalidType (found : Found) (expected : String)
  | invalidValue (found : Found) (expected : String)
  | invalidLength (length : Nat) (expected : String)
  | missingField (name : String)
  | duplicateField (name : String)
  | unknownField (name : String) (known : List String)
  | unknownVariant (name : String) (known : List String)

def listNames (names : List String) : String :=
  ", ".intercalate (names.map fun n => "`" ++ n ++ "`")

def Cause.describe : Cause → String
  | .unclosedList => "EOF while parsing a list"
  | .unclosedObject => "EOF while parsing an object"
  | .unclosedString => "EOF while parsing a string"
  | .missingValue => "EOF while parsing a value"
  | .expectedColon => "expected `:`"
  | .expectedListEnd => "expected `,` or `]`"
  | .expectedObjectEnd => "expected `,` or `\x7d`"
  | .expectedIdent => "expected ident"
  | .expectedValue => "expected value"
  | .invalidEscape => "invalid escape"
  | .invalidNumber => "invalid number"
  | .numberOutOfRange => "number out of range"
  | .controlCharacter => "control character (\\u0000-\\u001F) found while parsing a string"
  | .keyNotString => "key must be a string"
  | .loneSurrogate => "lone leading surrogate in hex escape"
  | .trailingComma => "trailing comma"
  | .trailingCharacters => "trailing characters"
  | .unfinishedSurrogate => "unexpected end of hex escape"
  | .tooDeep => "recursion limit exceeded"
  | .invalidType found expected => "invalid type: " ++ found.describe ++ ", expected " ++ expected
  | .invalidValue found expected => "invalid value: " ++ found.describe ++ ", expected " ++ expected
  | .invalidLength n expected => "invalid length " ++ toString n ++ ", expected " ++ expected
  | .missingField name => "missing field `" ++ name ++ "`"
  | .duplicateField name => "duplicate field `" ++ name ++ "`"
  | .unknownField name known =>
    "unknown field `" ++ name ++ "`, expected one of " ++ listNames known
  | .unknownVariant name known =>
    "unknown variant `" ++ name ++ "`, expected one of " ++ listNames known

/-- A place in a JSON text: lines count from 1, columns are the bytes of the line before the place. -/
structure Place where
  line : Nat
  column : Nat
  deriving DecidableEq

structure Fault where
  cause : Cause
  place : Place

def Fault.message (f : Fault) : String :=
  f.cause.describe ++ " at line " ++ toString f.place.line ++ " column " ++ toString f.place.column

end Mcfunction.Json
