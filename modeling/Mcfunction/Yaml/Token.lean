import Mcfunction.Yaml.Scalar

/-! The tokens of YAML. Indentation and the colons after keys become tokens too. Whether something is a key
shows only at the colon after it, where the tokens that open the key are put before it; a key is on one
line and not too long. -/

namespace Mcfunction.Yaml

inductive Token where
  | version (major minor : Nat)
  | tagPrefix (handle text : String)
  | documentStart
  | documentEnd
  | listStart
  | mapStart
  | blockEnd
  | entry
  | flowListStart
  | flowListEnd
  | flowMapStart
  | flowMapEnd
  | comma
  | key
  | value
  | alias (name : String)
  | anchor (name : String)
  | tag (handle suffix : String)
  | scalar (text : String) (style : Style)
  | streamEnd
  deriving DecidableEq

structure Source where
  rest : List Char
  index : Nat := 0
  line : Nat := 0
  column : Nat := 0

def Source.drop : Nat → Source → Source
  | 0, s => s
  | n + 1, ⟨c :: cs, index, line, column⟩ =>
    if isBreak c then drop n ⟨cs, index + 1, line + 1, 0⟩ else drop n ⟨cs, index + 1, line, column + 1⟩
  | _ + 1, s => s

def Source.moveTo (s : Source) (rest : List Char) : Source := s.drop (s.rest.length - rest.length)

structure Candidate where
  required : Bool
  before : Nat
  source : Source

structure State where
  source : Source
  tokens : List Token := []
  indents : List Nat := []
  /-- Where a key may have begun in the innermost brackets, or outside of all. -/
  candidate : Option Candidate := none
  outer : List (Option Candidate) := []
  keyAllowed : Bool := true

namespace State

def inFlow (s : State) : Bool := !s.outer.isEmpty

def inside (s : State) : Nat :=
  match s.indents with
  | [] => 0
  | i :: _ => i + 1

def push (t : Token) (s : State) : State := { s with tokens := s.tokens ++ [t] }

def insert (t : Token) (n : Nat) (s : State) : State :=
  { s with tokens := s.tokens.take n ++ [t] ++ s.tokens.drop n }

def skip (n : Nat) (s : State) : State := { s with source := s.source.drop n }

def allow (b : Bool) (s : State) : State := { s with keyAllowed := b }

/-! ### Keys -/

def maxKey : Nat := 1024

def reaches (s : State) (k : Candidate) : Bool :=
  k.source.line = s.source.line && s.source.index ≤ k.source.index + maxKey

def dropStale (s : State) : Option Candidate → Option (Option Candidate)
  | none => some none
  | some k => if s.reaches k then some (some k) else if k.required then none else some none

def dropAllStale (s : State) : Option State := do
  let candidate ← s.dropStale s.candidate
  let outer ← s.outer.mapM s.dropStale
  return { s with candidate, outer }

def forget (s : State) : Option State :=
  if (s.candidate.map Candidate.required).getD false then none else some { s with candidate := none }

def remember (s : State) : Option State :=
  if s.keyAllowed then
    s.forget.map fun s =>
      let required := !s.inFlow && s.indents.head? = some s.source.column
      { s with candidate := some ⟨required, s.tokens.length, s.source⟩ }
  else some s

/-! ### Indentation -/

/-- Opens a block at a column, if it is further in than the innermost one. The token for it goes before those
from `before` on. -/
def openBlock (t : Token) (column before : Nat) (s : State) : State :=
  if !s.inFlow && s.inside ≤ column then { s.insert t before with indents := column :: s.indents } else s

/-- Closes the blocks that are further in than a column, or all. -/
def closeBlocks (column : Option Nat) (s : State) : State :=
  if s.inFlow then s
  else
    let closed := s.indents.takeWhile fun i => match column with
      | some column => column < i
      | none => true
    { s with
      indents := s.indents.drop closed.length
      tokens := s.tokens ++ closed.map fun _ => .blockEnd }

/-! ### Spaces and comments -/

/-- Moves over spaces, line ends and comments. After a line end outside of brackets a key may begin; where one
may begin, a tab is no space. -/
def blanks (inFlow : Bool) : (comment allowed : Bool) → List Char → Bool × List Char
  | _, allowed, [] => (allowed, [])
  | comment, allowed, c :: cs =>
    if isBreak c then blanks inFlow false (allowed || !inFlow) cs
    else if comment || c = ' ' || (c = '\t' && (inFlow || !allowed)) then blanks inFlow comment allowed cs
    else if c = '#' then blanks inFlow true allowed cs
    else (allowed, c :: cs)

def toToken (s : State) : State :=
  let (allowed, rest) := blanks s.inFlow false s.keyAllowed s.source.rest
  { s with keyAllowed := allowed, source := s.source.moveTo rest }

/-! ### Tokens -/

def mark (t : Token) (size : Nat) (s : State) : Option State :=
  (s.closeBlocks none).forget.map fun s => ((s.allow false).push t).skip size

def openFlow (t : Token) (s : State) : Option State :=
  s.remember.map fun s =>
    ((({ s with candidate := none, outer := s.candidate :: s.outer }).allow true).push t).skip 1

def closeFlow (t : Token) (s : State) : Option State :=
  s.forget.map fun s =>
    let s := match s.outer with
      | [] => s
      | candidate :: outer => { s with candidate, outer }
    ((s.allow false).push t).skip 1

def comma (s : State) : Option State := s.forget.map fun s => ((s.allow true).push .comma).skip 1

def entry (s : State) : Option State :=
  if !s.inFlow && !s.keyAllowed then none
  else
    (s.openBlock .listStart s.source.column s.tokens.length).forget.map fun s =>
      ((s.allow true).push .entry).skip 1

def key (s : State) : Option State :=
  if !s.inFlow && !s.keyAllowed then none
  else
    (s.openBlock .mapStart s.source.column s.tokens.length).forget.map fun s =>
      ((s.allow !s.inFlow).push .key).skip 1

/-- Reads a colon before a value. What was a candidate is a key now. -/
def value (s : State) : Option State :=
  match s.candidate with
  | some k =>
    let s := (s.insert .key k.before).openBlock .mapStart k.source.column k.before
    some ((({ s with candidate := none }).allow false).push .value |>.skip 1)
  | none =>
    if !s.inFlow && !s.keyAllowed then none
    else
      let s := s.openBlock .mapStart s.source.column s.tokens.length
      some (((s.allow !s.inFlow).push .value).skip 1)

def named (t : String → Token) (s : State) : Option State :=
  s.remember.bind fun s =>
    let name := (s.source.rest.drop 1).takeWhile isNameChar
    let rest := s.source.rest.drop (name.length + 1)
    if name.isEmpty || !(atWordEnd rest || ['?', ':', ',', ']', '}', '%', '@', '`'].contains (rest.headD ' '))
    then none
    else some (((s.allow false).push (t (String.ofList name))).skip (name.length + 1))

def scalar (style : Style) (s : State) (text rest : List Char) : State :=
  { s.push (.scalar (String.ofList text) style) with source := s.source.moveTo rest }

def plainScalar (s : State) : Option State :=
  s.remember.bind fun s =>
    (plain s.inFlow s.inside s.source.column [] .none s.source.rest).map fun (text, rest, broken) =>
      (s.scalar .plain text rest).allow broken

def quotedScalar (double : Bool) (s : State) : Option State :=
  s.remember.bind fun s =>
    (quoted double (s.source.column + 1) [] .none (s.source.rest.drop 1)).map fun (text, rest) =>
      (s.scalar .quoted text rest).allow false

def blockScalar (folded : Bool) (s : State) : Option State :=
  s.forget.bind fun s =>
    (block folded s.inside (s.source.rest.drop 1)).map fun (text, rest) =>
      (s.scalar (if folded then .folded else .literal) text rest).allow true

/-! ### Tags and directives -/

/-- Whether `c` may be part of a tag. Some characters may only between angle brackets. -/
def isTagChar (bracketed : Bool) (c : Char) : Bool :=
  isNameChar c || ";/?:@&=+$.%!~*'()".toList.contains c || (bracketed && ",[]".toList.contains c)

/-- Reads the text of a tag, of which there must be some. -/
def tagText (bracketed : Bool) (cs : List Char) : List Char × List Char :=
  (cs.takeWhile (isTagChar bracketed), cs.dropWhile (isTagChar bracketed))

def tagParts (cs : List Char) : Option (String × String × List Char) :=
  match cs with
  | '!' :: '<' :: cs =>
    match tagText true cs with
    | (text, '>' :: rest) => if text.isEmpty then none else some ("", String.ofList text, rest)
    | _ => none
  | '!' :: cs =>
    let name := cs.takeWhile isNameChar
    match cs.drop name.length with
    | '!' :: cs =>
      let (text, rest) := tagText false cs
      if text.isEmpty then none else some ("!" ++ String.ofList name ++ "!", String.ofList text, rest)
    | cs =>
      let (text, rest) := tagText false cs
      let suffix := name ++ text
      if suffix.isEmpty then some ("", "!", rest) else some ("!", String.ofList suffix, rest)
  | _ => none

def tag (s : State) : Option State :=
  s.remember.bind fun s =>
    (tagParts s.source.rest).bind fun (handle, suffix, rest) =>
      if atWordEnd rest || (s.inFlow && rest.head? = some ',') then
        some { (s.allow false).push (.tag handle suffix) with source := s.source.moveTo rest }
      else none

def words (cs : List Char) : List (List Char) :=
  let line := (lines cs).head?.map Line.text |>.getD []
  (go [] line).filter (!·.isEmpty)
where
  go (word : List Char) : List Char → List (List Char)
    | [] => [word]
    | c :: cs => if isSpace c then word :: go [] cs else if c = '#' ∧ word = [] then [] else go (word ++ [c]) cs

def decimal? (cs : List Char) : Option Nat :=
  if cs.isEmpty || !cs.all Char.isDigit || 9 < cs.length then none
  else some (cs.foldl (fun n c => 10 * n + (c.toNat - '0'.toNat)) 0)

def directiveToken : List (List Char) → Option Token
  | [['Y', 'A', 'M', 'L'], version] =>
    let major := version.takeWhile (· ≠ '.')
    match version.drop major.length with
    | '.' :: minor => do return .version (← decimal? major) (← decimal? minor)
    | _ => none
  | [['T', 'A', 'G'], '!' :: handle, text] =>
    if (handle.isEmpty || (handle.getLast? = some '!' && handle.dropLast.all isNameChar)) &&
        text.all (isTagChar true) then
      some (.tagPrefix (String.ofList ('!' :: handle)) (String.ofList text))
    else none
  | _ => none

def directive (s : State) : Option State :=
  (s.closeBlocks none).forget.bind fun s =>
    (directiveToken (words (s.source.rest.drop 1))).map fun t =>
      ((s.allow false).push t).skip (s.source.rest.takeWhile fun c => !isBreak c).length

/-! ### Texts -/

def beginsPlain (inFlow : Bool) : List Char → Bool
  | [] => false
  | c :: cs =>
    !(isSpace c || "-?:,[]\x7b\x7d#&*!|>'\"%@`".toList.contains c) ||
      (c = '-' && !(match cs with
        | [] => false
        | d :: _ => isSpace d)) ||
      (!inFlow && (c = '?' || c = ':') && !atWordEnd cs)

def token (s : State) : Option State :=
  match s.source.rest with
  | [] => (s.closeBlocks none).forget.map fun s => s.push .streamEnd
  | c :: cs =>
    let spaced := atWordEnd cs
    if s.source.column = 0 ∧ c = '%' then s.directive
    else if s.source.column = 0 ∧ atMarker (c :: cs) then
      s.mark (if c = '-' then .documentStart else .documentEnd) 3
    else if c = '[' then s.openFlow .flowListStart
    else if c = '{' then s.openFlow .flowMapStart
    else if c = ']' then s.closeFlow .flowListEnd
    else if c = '}' then s.closeFlow .flowMapEnd
    else if c = ',' then s.comma
    else if c = '-' ∧ spaced then s.entry
    else if c = '?' ∧ (s.inFlow ∨ spaced) then s.key
    else if c = ':' ∧ (s.inFlow ∨ spaced) then s.value
    else if c = '*' then s.named .alias
    else if c = '&' then s.named .anchor
    else if c = '!' then s.tag
    else if c = '|' ∧ !s.inFlow then s.blockScalar false
    else if c = '>' ∧ !s.inFlow then s.blockScalar true
    else if c = '\'' then s.quotedScalar false
    else if c = '"' then s.quotedScalar true
    else if beginsPlain s.inFlow (c :: cs) then s.plainScalar
    else none

def next (s : State) : Option State := do
  let s ← s.toToken.dropAllStale
  (s.closeBlocks (some s.source.column)).token

def all : (limit : Nat) → State → Option (List Token)
  | 0, _ => none
  | limit + 1, s => s.next.bind fun s => if s.tokens.getLast? = some .streamEnd then some s.tokens else all limit s

end State

def isPrintable (c : Char) : Bool :=
  let n := c.toNat
  c = '\t' || c = '\n' || c = '\r' || (0x20 ≤ n && n ≤ 0x7e) || n = 0x85 ||
    (0xa0 ≤ n && n ≤ 0xfffd && n ≠ 0xfeff) || 0x10000 ≤ n

/-- The characters of a text with all usual line ends made line feeds. -/
def unifyBreaks : List Char → List Char
  | '\r' :: '\n' :: cs => '\n' :: unifyBreaks cs
  | c :: cs => (if c = '\r' ∨ c = '\u0085' then '\n' else c) :: unifyBreaks cs
  | [] => []

def Token.ofText? (text : String) : Option (List Token) :=
  let cs := match text.toList with
    | '\ufeff' :: cs => cs
    | cs => cs
  if cs.all isPrintable then
    let cs := unifyBreaks cs
    State.all (cs.length + 1) { source := { rest := cs } }
  else none

end Mcfunction.Yaml
