import Mcfunction.Floating.Decimal

/-! JSON values. An object is the list of its entries in the order in which their keys first appeared,
with one entry for each key; equality of objects does not look at that order. -/

namespace Mcfunction

inductive Json.Number where
  | integer (value : Int)
  | floating (value : Floating)
  deriving DecidableEq

inductive Json where
  | null
  | bool (value : Bool)
  | number (value : Json.Number)
  | string (value : String)
  | array (items : List Json)
  | object (entries : List (String × Json))

namespace Json

instance : Inhabited Json := ⟨.null⟩

def Number.toFloating : Number → Floating
  | .integer i => .ofInt .double i
  | .floating x => x

/-- Equality of numbers: an integer never equals a floating point number. -/
def Number.same : Number → Number → Bool
  | .integer a, .integer b => a = b
  | .floating a, .floating b => a.equal b
  | _, _ => false

mutual

def same : Json → Json → Bool
  | .null, .null => true
  | .bool a, .bool b => a = b
  | .number a, .number b => a.same b
  | .string a, .string b => a = b
  | .array as, .array bs => sameItems as bs
  | .object as, .object bs => as.length = bs.length && sameEntries as bs
  | _, _ => false

def sameItems : List Json → List Json → Bool
  | [], [] => true
  | a :: as, b :: bs => same a b && sameItems as bs
  | _, _ => false

def sameEntries : List (String × Json) → List (String × Json) → Bool
  | [], _ => true
  | (k, v) :: rest, other =>
    (match other.lookup k with
      | some w => same v w
      | none => false) && sameEntries rest other

end

def string? : Json → Option String
  | .string s => some s
  | _ => none

def floating? : Json → Option Floating
  | .number n => some n.toFloating
  | _ => none

end Json

end Mcfunction
