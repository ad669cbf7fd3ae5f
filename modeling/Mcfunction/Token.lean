import Mcfunction.Text.Blank
import Mcfunction.Text.Digit
import Mcfunction.Value

/-! The tokens of function files. A pattern gives the length of the token at the front of some
characters, and 0 if there is none. -/

namespace Mcfunction

abbrev Token := List Char → Nat

namespace Token

def many (p : Char → Bool) : Token := fun cs => (cs.takeWhile p).length

def digits : Token := many Text.isDigit

def fraction : Token
  | '.' :: cs => match digits cs with
    | 0 => 0
    | n => n + 1
  | _ => 0

def looseFraction : Token
  | '.' :: cs => digits cs + 1
  | _ => 0

/-- Digits and then `rest`, or else a point with digits behind it. -/
def unsigned (rest : Token) : Token := fun cs =>
  match digits cs with
  | 0 => fraction cs
  | n => n + rest (cs.drop n)

def signed (token : Token) : Token
  | '-' :: cs => match token cs with
    | 0 => 0
    | n => n + 1
  | cs => token cs

/-- A decimal without sign. The point may stand before, among or after the digits. -/
def decimal : Token := unsigned looseFraction

def number : Token := signed decimal

def rangeInteger : Token := signed digits

/-- An end of a range of decimals. Its point has digits behind it, so that `1..2` has two ends. -/
def rangeDecimal : Token := signed (unsigned fraction)

def isWordChar (c : Char) : Bool := c.isAlphanum || c = '_' || c = '-' || c = '.' || c = '+'

def word : Token := many isWordChar

/-- The name of a criterion: a word that may hold colons. -/
def criteria : Token := many fun c => isWordChar c || c = ':'

def value : Token := many fun c => !Text.isBlank c

def isNameChar (c : Char) : Bool :=
  !Text.isBlank c && c != '@' && c != '[' && c != ']' && c != '{' && c != '}' && c != '"' && c != '\'' &&
    c != ',' && c != '='

def playerName : Token := many isNameChar

def operation : Token
  | '>' :: '<' :: _ => 2
  | '=' :: _ => 1
  | '-' :: '=' :: _ => 2
  | '+' :: '=' :: _ => 2
  | '*' :: '=' :: _ => 2
  | '/' :: '=' :: _ => 2
  | '%' :: '=' :: _ => 2
  | '<' :: _ => 1
  | '>' :: _ => 1
  | _ => 0

def isHexDigit (c : Char) : Bool := c.isDigit || ('a' ≤ c && c ≤ 'f') || ('A' ≤ c && c ≤ 'F')

/-- Groups of hexadecimal digits with a minus between them, each of at most the given length; of the
last group only as many digits are taken. -/
def hexGroups : List Nat → Token
  | [], _ => 0
  | [size], cs => min size (many isHexDigit cs)
  | size :: sizes, cs =>
    let n := many isHexDigit cs
    if n = 0 ∨ size < n then 0
    else match cs.drop n with
      | '-' :: rest => match hexGroups sizes rest with
        | 0 => 0
        | m => n + 1 + m
      | _ => 0

def uuid : Token := hexGroups [8, 4, 4, 4, 12]

/-! ### Tokens with parts -/

def isNamespaceChar (c : Char) : Bool :=
  c.isDigit || ('a' ≤ c && c ≤ 'z') || c = '_' || c = '-' || c = '.'

def isPathChar (c : Char) : Bool := isNamespaceChar c || c = '/'

/-- The resource location at the front of some characters without a tag mark, and its length. What
stands before a colon is a namespace only if a path follows. -/
def untagged? (isTag : Bool) (cs : List Char) : Option (ResourceLocation × Nat) :=
  let bare : Option (ResourceLocation × Nat) :=
    let path := cs.takeWhile isPathChar
    if path = [] then none else some (⟨isTag, none, String.ofList path⟩, path.length)
  let ns := cs.takeWhile isNamespaceChar
  match cs.drop ns.length with
  | ':' :: rest =>
    let path := rest.takeWhile isPathChar
    if ns = [] ∨ path = [] then bare
    else some (⟨isTag, some (String.ofList ns), String.ofList path⟩, ns.length + 1 + path.length)
  | _ => bare

def resourceLocation? : List Char → Option (ResourceLocation × Nat)
  | '#' :: cs => (untagged? true cs).map fun (l, n) => (l, n + 1)
  | cs => untagged? false cs

/-- The mark of a coordinate and the length of its number, which may be missing. -/
def coordinate (cs : List Char) : CoordinateKind × Nat :=
  match cs with
  | '~' :: cs => (.relative, number cs)
  | '^' :: cs => (.local, number cs)
  | cs => (.absolute, number cs)

def timeUnit? : List Char → Option Char
  | c :: _ => if c = 'd' ∨ c = 's' ∨ c = 't' then some c else none
  | [] => none

end Token

end Mcfunction
