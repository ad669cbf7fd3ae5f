import Mcfunction.Text.Unprintable

/-! Text as it is shown in dumps and error messages: between double quotes, with everything escaped that
would not show as itself. -/

namespace Mcfunction.Text

def hex (n : Nat) : String := String.ofList (Nat.toDigits 16 n)

def escapedChar (c : Char) : String :=
  if c.toNat = 0 then "\\0"
  else if c = '\t' then "\\t"
  else if c = '\r' then "\\r"
  else if c = '\n' then "\\n"
  else if c = '\\' then "\\\\"
  else if c = '"' then "\\\""
  else if 32 ≤ c.toNat && c.toNat < 127 then String.singleton c
  else if isUnprintable c then "\\u\x7b" ++ hex c.toNat ++ "\x7d"
  else String.singleton c

def escaped (text : String) : String :=
  "\"" ++ String.join (text.toList.map escapedChar) ++ "\""

end Mcfunction.Text
