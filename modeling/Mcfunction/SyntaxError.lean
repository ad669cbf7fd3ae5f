import Mcfunction.Json.Fault
import Mcfunction.Location
import Mcfunction.Value

/-! Why a text is refused, and where. -/

namespace Mcfunction

inductive Complaint where
  | expected (what : String)
  | unclosedString
  | invalidEscape
  | invalidNumber (text : String)
  | numberOutOfRange (text : String)
  | integerOutOfRange
  | belowMinimum (minimum : Floating) (value : Number)
  | aboveMaximum (maximum : Floating) (value : Number)
  | rangeBackwards
  | tagNotAllowed
  | localNotAllowed
  | mixedCoordinates
  | notIntegerArray
  | badComponent (fault : Json.Fault)
  | notInvertible (key : String)
  | unknownSelectorArgument (key : String)
  | limitTooSmall
  | badSortOrder
  | tooManyEntities
  | notOnlyPlayers
  | blocksOff
  | unexpectedIndentation
  | unexpectedWhitespace
  | incompleteCommand
  | unresolvedRedirect (target : List String)
  | unknownCommand (word : String)
  | unexpectedWord (word : String) (choices : List String)
  | unsupportedParser (name : String)
  deriving Inhabited

namespace Complaint

def expectedText (text : String) : Complaint := .expected ("\"" ++ text ++ "\"")

def expectedCommaOr (close : Char) : Complaint := .expected ("\",\" or \"" ++ String.singleton close ++ "\"")

def message : Complaint → String
  | .expected what => "Expected " ++ what ++ "."
  | .unclosedString => "Unclosed quoted string."
  | .invalidEscape => "Invalid escape sequence."
  | .invalidNumber text => "Invalid number \"" ++ text ++ "\"."
  | .numberOutOfRange text => "Number \"" ++ text ++ "\" is out of range."
  | .integerOutOfRange => "Integer is out of range."
  | .belowMinimum minimum value =>
    "Value must not be less than " ++ minimum.write .double .plain ++ ", found " ++ value.write ++ "."
  | .aboveMaximum maximum value =>
    "Value must not be more than " ++ maximum.write .double .plain ++ ", found " ++ value.write ++ "."
  | .rangeBackwards => "Minimum cannot be greater than maximum."
  | .tagNotAllowed => "Tags are not allowed here."
  | .localNotAllowed => "Local coordinates are not allowed here."
  | .mixedCoordinates => "Cannot mix world and local coordinates."
  | .notIntegerArray => "Arrays can only contain integers."
  | .badComponent fault => "Invalid text component: " ++ fault.message ++ "."
  | .notInvertible key => "Selector argument \"" ++ key ++ "\" cannot be inverted."
  | .unknownSelectorArgument key => "Unknown selector argument \"" ++ key ++ "\"."
  | .limitTooSmall => "Limit must be at least 1."
  | .badSortOrder => "Invalid sort order."
  | .tooManyEntities => "Only one entity is allowed, but the provided selector allows more than one."
  | .notOnlyPlayers =>
    "Only players may be affected by this command, but the provided selector includes entities."
  | .blocksOff => "Nested blocks require multiline mode."
  | .unexpectedIndentation => "Unexpected indentation."
  | .unexpectedWhitespace => "Unexpected whitespace."
  | .incompleteCommand => "Incomplete command."
  | .unresolvedRedirect target => "Unresolved redirect \"" ++ ":".intercalate target ++ "\"."
  | .unknownCommand word => "Unknown command \"" ++ word ++ "\"."
  | .unexpectedWord word choices =>
    "Unexpected \"" ++ word ++ "\", expected one of: " ++ ", ".intercalate choices ++ "."
  | .unsupportedParser name => "Unsupported argument parser \"" ++ name ++ "\"."

end Complaint

structure SyntaxError where
  complaint : Complaint
  span : Span
  deriving Inhabited

namespace SyntaxError

def message (e : SyntaxError) : String := e.complaint.message

/-- The error of two that begins further into the text; the first one if they begin together. -/
def furthest (a b : SyntaxError) : SyntaxError :=
  if a.span.start.offset < b.span.start.offset then b else a

end SyntaxError

end Mcfunction
