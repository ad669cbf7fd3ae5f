import Mcfunction.Json.Basic

/-! JSON values as compact text. -/

namespace Mcfunction.Json

/-- Numbers are written with the fewest digits, `.0` behind a whole one, and an exponent from `1e+16` up
and below `1e-5`. -/
def numberStyle : Floating.Style := ⟨.even, true, fun e => 16 ≤ e || e < -5, true⟩

def Number.write : Number → String
  | .integer i => toString i
  | .floating x => x.write .double numberStyle

def hexDigit (n : Nat) : Char := (Nat.toDigits 16 n).headD '0'

/-- A character inside a string: quotes, backslashes and controls are escaped. -/
def escapeChar (c : Char) : List Char :=
  if c = '"' then ['\\', '"']
  else if c = '\\' then ['\\', '\\']
  else if c = '\n' then ['\\', 'n']
  else if c = '\r' then ['\\', 'r']
  else if c = '\t' then ['\\', 't']
  else if c.toNat = 8 then ['\\', 'b']
  else if c.toNat = 12 then ['\\', 'f']
  else if c.toNat < 32 then ['\\', 'u', '0', '0', hexDigit (c.toNat / 16), hexDigit (c.toNat % 16)]
  else [c]

def writeString (s : String) : String :=
  "\"" ++ String.ofList (s.toList.flatMap escapeChar) ++ "\""

mutual

def write : Json → String
  | .null => "null"
  | .bool b => if b then "true" else "false"
  | .number n => n.write
  | .string s => writeString s
  | .array items => "[" ++ writeItems items ++ "]"
  | .object entries => "\x7b" ++ writeEntries entries ++ "\x7d"

def writeItems : List Json → String
  | [] => ""
  | [v] => write v
  | v :: rest => write v ++ "," ++ writeItems rest

def writeEntries : List (String × Json) → String
  | [] => ""
  | [(k, v)] => writeString k ++ ":" ++ write v
  | (k, v) :: rest => writeString k ++ ":" ++ write v ++ "," ++ writeEntries rest

end

end Mcfunction.Json
