import Mcfunction.Floating.Decimal

/-! The plain values that command arguments hold: numbers, coordinates, resource locations and the
scalars of SNBT. -/

namespace Mcfunction

/-- A number as it was written: an integer, or a decimal. -/
inductive Number where
  | int (value : Int)
  | float (value : Floating)
  deriving DecidableEq, Inhabited

namespace Number

def toFloating : Number → Floating
  | .int i => .ofInt .double i
  | .float x => x

def isZero (n : Number) : Bool := n.toFloating.isZero

/-- The text of a number. A whole decimal keeps its `.0`, since `1.0` and `1` are different positions;
an exponent is never written. -/
def write : Number → String
  | .int i => toString i
  | .float x => if x.isWhole then x.writeWhole else x.write .double .plain

/-- Equality of numbers: an integer never equals a decimal. -/
def same : Number → Number → Bool
  | .int a, .int b => a = b
  | .float a, .float b => a.equal b
  | _, _ => false

def same? : Option Number → Option Number → Bool
  | none, none => true
  | some a, some b => a.same b
  | _, _ => false

end Number

/-- What a coordinate is measured from: the world, the position `~`, or the view `^`. -/
inductive CoordinateKind where
  | absolute
  | relative
  | «local»
  deriving DecidableEq

def CoordinateKind.name : CoordinateKind → String
  | .absolute => "absolute"
  | .relative => "relative"
  | .local => "local"

def CoordinateKind.mark : CoordinateKind → String
  | .absolute => ""
  | .relative => "~"
  | .local => "^"

/-- A name such as `minecraft:stone`, or of a tag such as `#demo:things`. -/
structure ResourceLocation where
  isTag : Bool
  inNamespace? : Option String
  path : String
  deriving DecidableEq

namespace ResourceLocation

/-- The name with its namespace, which is `minecraft` unless it is written. -/
def fullName (l : ResourceLocation) : String := l.inNamespace?.getD "minecraft" ++ ":" ++ l.path

def write (l : ResourceLocation) : String :=
  (if l.isTag then "#" else "") ++ (match l.inNamespace? with
    | some n => n ++ ":"
    | none => "") ++ l.path

def splitColon : List Char → Option (List Char × List Char)
  | [] => none
  | c :: cs => if c = ':' then some ([], cs) else (splitColon cs).map fun (a, b) => (c :: a, b)

/-- The resource location that a text names, whatever its characters: `#` before a tag, and a
namespace before the first colon. -/
def ofText (text : String) : ResourceLocation :=
  let (isTag, cs) := match text.toList with
    | '#' :: cs => (true, cs)
    | cs => (false, cs)
  match splitColon cs with
  | some (a, b) => ⟨isTag, some (String.ofList a), String.ofList b⟩
  | none => ⟨isTag, none, String.ofList cs⟩

end ResourceLocation

namespace Snbt

inductive ArrayKind where
  | byte
  | int
  | long
  deriving DecidableEq

def ArrayKind.letter : ArrayKind → Char
  | .byte => 'B'
  | .int => 'I'
  | .long => 'L'

inductive Scalar where
  | bool (value : Bool)
  | byte (value : Int)
  | short (value : Int)
  | int (value : Int)
  | long (value : Int)
  | float (value : Floating)
  | double (value : Floating)
  | string (value : String)
  deriving DecidableEq

namespace Scalar

/-- Equality of scalars: their types are equal, and floating point values as numbers. -/
def same : Scalar → Scalar → Bool
  | .float a, .float b => a.equal b
  | .double a, .double b => a.equal b
  | a, b => a = b && !isFloating a
where
  isFloating : Scalar → Bool
    | .float _ => true
    | .double _ => true
    | _ => false

def isIntegral : Scalar → Bool
  | .byte _ => true
  | .short _ => true
  | .int _ => true
  | .long _ => true
  | _ => false

end Scalar

end Snbt

end Mcfunction
