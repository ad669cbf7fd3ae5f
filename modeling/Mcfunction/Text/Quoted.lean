/-! Quoted strings of commands: between double or single quotes, with a backslash before backslashes and
quotes. -/

namespace Mcfunction.Text

/-- The quote that a text is written between: the double one, unless only that occurs in the text. -/
def quoteFor (cs : List Char) : Char := if '"' ∈ cs ∧ '\'' ∉ cs then '\'' else '"'

/-- The characters of a text between quotes `q`: backslashes and `q` get a backslash before them. -/
def escapeWith (q : Char) : List Char → List Char
  | [] => []
  | c :: cs => if c = '\\' ∨ c = q then '\\' :: c :: escapeWith q cs else c :: escapeWith q cs

def quoted (text : String) : String :=
  let q := quoteFor text.toList
  String.ofList (q :: (escapeWith q text.toList ++ [q]))

/-- What is wrong with a quoted string, and how many characters after the opening quote. -/
inductive QuoteFault where
  | unclosed (after : Nat)
  | escape (after : Nat)

def QuoteFault.shift (n : Nat) : QuoteFault → QuoteFault
  | .unclosed k => .unclosed (k + n)
  | .escape k => .escape (k + n)

def isEscapable (c : Char) : Bool := c = '\\' || c = '"' || c = '\''

/-- Puts a character that took `n` characters before what is read after it. -/
def quotedCons (c : Char) (n : Nat) : Except QuoteFault (List Char × Nat) → Except QuoteFault (List Char × Nat)
  | .ok (cs, k) => .ok (c :: cs, k + n)
  | .error e => .error (e.shift n)

/-- Reads a quoted string after its opening quote `q`: the text, and how many characters were read. A
string ends on its line. -/
def unquote (q : Char) : List Char → Except QuoteFault (List Char × Nat)
  | [] => .error (.unclosed 0)
  | [c] =>
    if c = '\n' then .error (.unclosed 0)
    else if c = '\\' then .error (.escape 1)
    else if c = q then .ok ([], 1)
    else .error (.unclosed 1)
  | c :: d :: cs =>
    if c = '\n' then .error (.unclosed 0)
    else if c = '\\' then
      if isEscapable d then quotedCons d 2 (unquote q cs) else .error (.escape 1)
    else if c = q then .ok ([], 1)
    else quotedCons c 1 (unquote q (d :: cs))

end Mcfunction.Text
