import Mcfunction.Parse.Scalar

/-! Scalars of SNBT as text. An unquoted token is a boolean or a number if it spells one that fits its
type, and a string otherwise. -/

namespace Mcfunction.Snbt

def unsigned : List Char → List Char
  | '-' :: cs => cs
  | '+' :: cs => cs
  | cs => cs

def isDigits (cs : List Char) : Bool := cs ≠ [] && cs.all Text.isDigit

/-- Whether a token spells an integer: an optional sign and digits. -/
def isInteger (cs : List Char) : Bool := isDigits (unsigned cs)

def isExponent : List Char → Bool
  | [] => true
  | c :: cs => (c = 'e' || c = 'E') && isDigits (unsigned cs)

/-- Whether a token spells a decimal: an optional sign, digits with an optional point, and an optional
exponent. -/
def isDecimal (cs : List Char) : Bool :=
  let body := unsigned cs
  let n := Token.decimal body
  n ≠ 0 && isExponent (body.drop n)

def isSuffix (c : Char) : Bool :=
  c = 'b' || c = 's' || c = 'l' || c = 'f' || c = 'd'

/-- The number of a token and the letter after it, which gives its type. -/
def number? (body : String) (suffix : Option Char) : Option Scalar :=
  let cs := body.toList
  let plain := match cs with
    | '+' :: rest => String.ofList rest
    | _ => body
  if isInteger cs then
    match suffix with
    | some 'b' => (Parse.signedValue? 8 plain).map .byte
    | some 's' => (Parse.signedValue? 16 plain).map .short
    | some 'l' => (Parse.signedValue? 64 plain).map .long
    | some 'f' => (Floating.read? .single plain).map .float
    | some 'd' => (Floating.read? .double plain).map .double
    | _ => (Parse.signedValue? 32 plain).map .int
  else if isDecimal cs then
    match suffix with
    | some 'f' => (Floating.read? .single plain).map .float
    | some 'd' => (Floating.read? .double plain).map .double
    | none => (Floating.read? .double plain).map .double
    | _ => none
  else none

def classify (text : String) : Scalar :=
  if text = "true" then .bool true
  else if text = "false" then .bool false
  else
    let cs := text.toList
    let number := match cs.getLast? with
      | some c =>
        if isSuffix c.toLower then number? (String.ofList cs.dropLast) (some c.toLower)
        else number? text none
      | none => number? text none
    number.getD (.string text)

def Scalar.write : Scalar → String
  | .bool value => if value then "true" else "false"
  | .byte value => toString value ++ "b"
  | .short value => toString value ++ "s"
  | .int value => toString value
  | .long value => toString value ++ "L"
  | .float value => value.write .single .plain ++ "f"
  | .double value => value.write .double .plain ++ "d"
  | .string value => Text.quoted value

end Mcfunction.Snbt
