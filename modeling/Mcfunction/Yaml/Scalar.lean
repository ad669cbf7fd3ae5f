import Mcfunction.Yaml.Basic

/-! Reading the scalars of YAML from the characters of a text, in which all line ends but two rare ones have
been made line feeds. A reader gives the text of the scalar and what follows it, or nothing if the scalar is
malformed. A single line end between two lines of a scalar is read as a space, and one of several is
dropped. -/

namespace Mcfunction.Yaml

def isBreak (c : Char) : Bool := c = '\n' || c = '\u2028' || c = '\u2029'

def isSpace (c : Char) : Bool := c = ' ' || c = '\t'

def atWordEnd : List Char → Bool
  | [] => true
  | c :: _ => isSpace c || isBreak c

/-- Whether some characters at the start of a line mark the start or the end of a document. -/
def atMarker : List Char → Bool
  | '-' :: '-' :: '-' :: rest => atWordEnd rest
  | '.' :: '.' :: '.' :: rest => atWordEnd rest
  | _ => false

def isNameChar (c : Char) : Bool := c.isAlphanum || c = '_' || c = '-'

inductive Gap where
  | spaces (text : List Char)
  /-- Line ends, the first of which may not count because it is escaped. -/
  | breaks (escaped : Bool) (ends : List Char)

namespace Gap

def none : Gap := .spaces []

def text : Gap → List Char
  | .spaces s => s
  | .breaks false ['\n'] => [' ']
  | .breaks false ('\n' :: more) => more
  | .breaks _ ends => ends

/-- The gap with a space after it. At the start of a line it does not count. -/
def space (c : Char) : Gap → Gap
  | .spaces s => .spaces (s ++ [c])
  | g => g

/-- The gap with a line end after it. Spaces before it do not count. -/
def lineEnd (c : Char) : Gap → Gap
  | .spaces _ => .breaks false [c]
  | .breaks escaped ends => .breaks escaped (ends ++ [c])

def isBroken : Gap → Bool
  | .spaces _ => false
  | .breaks _ _ => true

end Gap

/-! ### Plain scalars -/

/-- Whether a plain scalar ends before some characters, which are no space. -/
def endsPlain (flow : Bool) : List Char → Bool
  | ':' :: rest => atWordEnd rest
  | c :: _ => flow && [',', '[', ']', '{', '}'].contains c
  | [] => true

/-- Reads the rest of a plain scalar, of which `read` has been read, up to a gap. Lines that follow have to
start at the column `indent` at least, except in brackets. Says too whether the next word is on another
line. -/
def plain (flow : Bool) (indent : Nat) :
    (column : Nat) → (read : List Char) → Gap → List Char → Option (List Char × List Char × Bool)
  | _, read, gap, [] => some (read, [], gap.isBroken)
  | column, read, gap, c :: rest =>
    if isBreak c then plain flow indent 0 read (gap.lineEnd c) rest
    else if isSpace c then
      if gap.isBroken && c = '\t' && column < indent then none
      else plain flow indent (column + 1) read (gap.space c) rest
    else if (gap.isBroken && !flow && column < indent) || (column = 0 && atMarker (c :: rest)) ||
        (c = '#' && (gap.isBroken || !gap.text.isEmpty)) then some (read, c :: rest, gap.isBroken)
    else if flow && c = ':' && [',', '?', '[', ']', '{', '}'].contains (rest.headD ' ') then none
    else if endsPlain flow (c :: rest) then some (read, c :: rest, gap.isBroken)
    else plain flow indent (column + 1) (read ++ gap.text ++ [c]) .none rest

/-! ### Quoted scalars -/

def hexadecimal? (cs : List Char) : Option Nat :=
  cs.foldl (fun n c => n.bind fun n =>
    if '0' ≤ c ∧ c ≤ '9' then some (16 * n + (c.toNat - '0'.toNat))
    else if 'a' ≤ c ∧ c ≤ 'f' then some (16 * n + (c.toNat - 'a'.toNat + 10))
    else if 'A' ≤ c ∧ c ≤ 'F' then some (16 * n + (c.toNat - 'A'.toNat + 10))
    else none) (some 0)

def character? (n : Nat) : Option Char := if n.isValidChar then some (Char.ofNat n) else none

def escape? (c : Char) : Option Char :=
  [('0', '\x00'), ('a', '\x07'), ('b', '\x08'), ('t', '\t'), ('\t', '\t'), ('n', '\n'), ('v', '\x0b'),
    ('f', '\x0c'), ('r', '\r'), ('e', '\x1b'), (' ', ' '), ('"', '"'), ('/', '/'), ('\\', '\\'),
    ('N', '\u0085'), ('_', '\u00a0'), ('L', '\u2028'), ('P', '\u2029')].lookup c

def escapeDigits? (c : Char) : Option Nat := [('x', 2), ('u', 4), ('U', 8)].lookup c

def quoted (double : Bool) (column : Nat) (read : List Char) (gap : Gap) (cs : List Char) :
    Option (List Char × List Char) :=
  match cs with
  | [] => none
  | c :: rest =>
    if column = 0 ∧ atMarker (c :: rest) then none
    else if isBreak c then quoted double 0 read (gap.lineEnd c) rest
    else if isSpace c then quoted double (column + 1) read (gap.space c) rest
    else if c = '\'' ∧ !double then
      match rest with
      | '\'' :: rest => quoted double (column + 2) (read ++ gap.text ++ ['\'']) .none rest
      | _ => some (read ++ gap.text, rest)
    else if c = '"' ∧ double then some (read ++ gap.text, rest)
    else if c = '\\' ∧ double then
      match rest with
      | [] => none
      | d :: rest =>
        if isBreak d then quoted double 0 (read ++ gap.text) (.breaks true []) rest
        else
          match escapeDigits? d with
          | some n =>
            if rest.length < n then none
            else
              match (hexadecimal? (rest.take n)).bind character? with
              | some e => quoted double (column + 2 + n) (read ++ gap.text ++ [e]) .none (rest.drop n)
              | none => none
          | none =>
            match escape? d with
            | some e => quoted double (column + 2) (read ++ gap.text ++ [e]) .none rest
            | none => none
    else quoted double (column + 1) (read ++ gap.text ++ [c]) .none rest
termination_by cs.length
decreasing_by all_goals simp only [List.length_cons, List.length_drop]; omega

/-! ### Blocks -/

structure Line where
  text : List Char
  stop : Option Char

namespace Line

def size (l : Line) : Nat := l.text.length + l.stop.toList.length

def indent (l : Line) : Nat := (l.text.takeWhile (· = ' ')).length

def isBlank (n : Nat) (l : Line) : Bool := l.stop.isSome && l.text.length ≤ n && l.text.all (· = ' ')

end Line

def lines : List Char → List Line
  | [] => [⟨[], none⟩]
  | c :: cs =>
    if isBreak c then ⟨[], some c⟩ :: lines cs
    else
      match lines cs with
      | [] => [⟨[c], none⟩]
      | l :: ls => { l with text := c :: l.text } :: ls

inductive Chomp where
  | strip
  | clip
  | keep
  deriving DecidableEq

/-- The columns by which a block without a given indentation is indented: those of its first line with text,
or of a longer one before it. -/
def blockIndent (least : Nat) : List Line → Nat
  | [] => least
  | l :: ls => if l.stop.isSome ∧ l.text.all (· = ' ') then blockIndent (max least l.indent) ls else max least l.indent

structure Block where
  read : List Char := []
  lineEnd : List Char := []
  blanks : List Char := []
  spaced : Bool := false
  size : Nat := 0

/-- A block with another line of text, without its indentation. In a folded block, the end of a line is read
as a space unless the line or the one after it begins with one. -/
def Block.add (folded : Bool) (b : Block) (text stop : List Char) : Block :=
  let spaced := (text.head?.map isSpace).getD false
  let joint :=
    if folded ∧ b.lineEnd = ['\n'] ∧ !b.spaced ∧ !spaced then if b.blanks = [] then [' '] else [] else b.lineEnd
  { b with read := b.read ++ joint ++ b.blanks ++ text, lineEnd := stop, blanks := [], spaced }

def blockLines (folded : Bool) (indent : Nat) : Block → List Line → Option Block
  | b, [] => some b
  | b, l :: ls =>
    let more := { b with size := b.size + l.size }
    if l.isBlank indent then blockLines folded indent { more with blanks := b.blanks ++ l.stop.toList } ls
    else if l.indent < indent then if l.text[l.indent]? = some '\t' then none else some b
    else if l.stop.isNone ∧ l.text.length = indent then some b
    else blockLines folded indent (more.add folded (l.text.drop indent) l.stop.toList) ls

def chomp? : List Char → Option Chomp × List Char
  | '+' :: cs => (some .keep, cs)
  | '-' :: cs => (some .strip, cs)
  | cs => (none, cs)

/-- Reads by how much a block is indented, which is not nothing. -/
def increment? : List Char → Option (Option Nat × List Char)
  | '0' :: _ => none
  | c :: cs => if c.isDigit then some (some (c.toNat - '0'.toNat), cs) else some (none, c :: cs)
  | [] => some (none, [])

def isEnded (cs : List Char) : Bool :=
  match cs.dropWhile isSpace with
  | [] => true
  | c :: _ => c = '#'

/-- Reads the rest of the first line of a block: what to keep of its end, and by how much it is indented, in
either order. -/
def blockHeader (cs : List Char) : Option (Chomp × Option Nat) :=
  let (before, cs) := chomp? cs
  (increment? cs).bind fun (increment, cs) =>
    let (after, cs) := if before.isSome ∨ increment.isNone then (none, cs) else chomp? cs
    if isEnded cs then some ((before <|> after).getD .clip, increment) else none

/-- Reads a block after the sign that begins it. `parent` is the indentation around it, and one. -/
def block (folded : Bool) (parent : Nat) (cs : List Char) : Option (List Char × List Char) :=
  match lines cs with
  | [] => none
  | first :: ls =>
    (blockHeader first.text).bind fun (chomp, given) =>
      let indent := match given with
        | some n => if parent = 0 then n else parent - 1 + n
        | none => blockIndent (max parent 1) ls
      if given.isNone ∧ tabbed ls then none
      else
        (blockLines folded indent { size := first.size } ls).map fun b =>
          (b.read ++ (if chomp = .strip then [] else b.lineEnd) ++ (if chomp = .keep then b.blanks else []),
            cs.drop b.size)
where
  /-- Whether the indentation of the first line with text, or of one before it, has a tab. -/
  tabbed : List Line → Bool
    | [] => false
    | l :: ls =>
      if l.stop.isSome ∧ l.text.all (· = ' ') then tabbed ls else l.text[l.indent]? = some '\t'

end Mcfunction.Yaml
