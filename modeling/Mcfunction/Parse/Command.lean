import Mcfunction.Grammar.Prototype

/-! Reading commands along a command tree. A word that names a literal child is taken at once; otherwise
the argument children are tried in order, each with the whole rest of the command, and the first that
succeeds wins. If all fail, the complaint that lies furthest into the text is the one that counts.

The reading ends for every tree: each step of a command moves over a separator, a colon or an argument,
and each of these is at least one character. -/

namespace Mcfunction

structure ParseOptions where
  multiline : Bool := false
  keepComments : Bool := false

structure Parser where
  tree : CommandTree
  registry : Registry := .standard
  options : ParseOptions := {}

namespace Cursor

theorem lineRest_pos_of_atComment {c : Cursor} (h : c.atComment = true) : 0 < c.lineRest.length := by
  obtain ⟨rest, l⟩ := c
  cases rest with
  | nil => simp [atComment] at h
  | cons x xs =>
    have hx : x ≠ '\n' ∧ x ≠ '\r' := by
      by_cases hs : isSpace x = true
      · simp only [isSpace, Bool.or_eq_true, decide_eq_true_eq] at hs
        rcases hs with rfl | rfl <;> decide
      · simp only [atComment, List.dropWhile_cons, hs, decide_eq_true_eq] at h
        simp only [Bool.false_eq_true, ↓reduceIte, List.head?_cons, Option.some.injEq] at h
        subst h
        decide
    simp only [lineRest]
    rw [List.takeWhile_cons_of_pos (by simpa using hx.1)]
    split
    · rename_i hlast
      cases htail : xs.takeWhile (· ≠ '\n') with
      | nil =>
        rw [htail] at hlast
        simp [hx.2] at hlast
      | cons y ys => simp
    · simp

def skipComments (c : Cursor) : Cursor :=
  if _h : c.atComment then
    let d := c.drop c.lineRest.length
    (d.skipNewline?.getD d).skipBlankLines.skipComments
  else c
termination_by c.remaining
decreasing_by
  have hpos := lineRest_pos_of_atComment _h
  have hne : 0 < c.remaining := List.length_pos_iff.2 (Parse.lineRest_ne_nil hpos)
  have hd : (c.drop c.lineRest.length).remaining < c.remaining := by
    simp only [remaining_drop]
    omega
  have hn : ((c.drop c.lineRest.length).skipNewline?.getD (c.drop c.lineRest.length)).remaining ≤
      (c.drop c.lineRest.length).remaining := by
    cases hs : (c.drop c.lineRest.length).skipNewline? with
    | none => simp
    | some e =>
      have := skipNewline?_remaining hs
      simp only [Option.getD_some]
      omega
  have := (skipBlankLines_reaches
    ((c.drop c.lineRest.length).skipNewline?.getD (c.drop c.lineRest.length))).remaining_le
  show ((c.drop c.lineRest.length).skipNewline?.getD (c.drop c.lineRest.length)).skipBlankLines.remaining < _
  omega

/-- The indentation of the block that opens at the end of a line: that of the first line after it that is
neither blank nor a comment, and none if there is no such line. -/
def blockIndentation (c : Cursor) : Nat :=
  let d := (c.skipNewline?.getD c).skipBlankLines.skipComments
  if d.atEnd then 0 else d.indentation

/-- The first line from here on that is not blank, or the end of the text. Unless the cursor stands at a
first line, a line has to end here. -/
def nextLine? (first : Bool) (c : Cursor) : Option Cursor :=
  (if first then some c else c.skipNewline?).map skipBlankLines

theorem nextLine?_reaches {first : Bool} {c d : Cursor} (h : c.nextLine? first = some d) : c.Reaches d := by
  obtain ⟨e, he, rfl⟩ := Option.map_eq_some_iff.1 h
  cases first with
  | true =>
    cases he
    exact skipBlankLines_reaches _
  | false => exact (skipNewline?_reaches he).trans (skipBlankLines_reaches _)

theorem nextLine?_remaining {c d : Cursor} (h : c.nextLine? false = some d) : d.remaining < c.remaining := by
  obtain ⟨e, he, rfl⟩ := Option.map_eq_some_iff.1 h
  exact Nat.lt_of_le_of_lt (skipBlankLines_reaches e).remaining_le (skipNewline?_remaining he)

theorem skipSpaces_reaches (c : Cursor) : c.Reaches c.skipSpaces := c.reaches_drop _

def wordLength (c : Cursor) : Nat := Token.value c.rest

def word (c : Cursor) : String := String.ofList (c.rest.take c.wordLength)

def skipLine (c : Cursor) : Cursor := c.drop c.lineRest.length

theorem skipLine_reaches (c : Cursor) : c.Reaches c.skipLine := c.reaches_drop _

end Cursor

/-- How a line is indented, compared with the lines of the block around it. -/
def Parser.indentationOrder (p : Parser) (indent : Option Nat) (width : Nat) : Ordering :=
  match indent with
  | some n => compare width n
  | none => if p.options.multiline then compare width 0 else .eq

structure Pending where
  scope : Path := []
  arguments : List Node := []
  start : Location

namespace Pending

def literal (p : Pending) (word : String) : Pending := { p with scope := p.scope ++ [word] }

def argument (p : Pending) (name : String) (value : Node) : Pending :=
  { p with scope := p.scope ++ [name], arguments := p.arguments ++ [value] }

def finish (p : Pending) (c : Cursor) : Node :=
  ⟨.command (":".intercalate p.scope) p.arguments, c.spanFrom p.start⟩

end Pending

namespace Parser

/-- The first success, or else what the failures combine to; nothing if there is nothing to try. -/
def firstOk {α β ε : Type} (combine : ε → ε → ε) (f : α → Except ε β) : List α → Option (Except ε β)
  | [] => none
  | a :: rest =>
    match f a with
    | .ok b => some (.ok b)
    | .error e =>
      match firstOk combine f rest with
      | none => some (.error e)
      | some (.ok b) => some (.ok b)
      | some (.error e') => some (.error (combine e e'))

def separator (c : Cursor) : Except SyntaxError { x : Step c Unit // x.next.remaining < c.remaining } :=
  if h : c.peek = some ' ' then
    let d := c.drop 1
    if d.peek = some ' ' ∨ d.peek = some '\t' then .error ⟨.unexpectedWhitespace, d.spanHere⟩
    else .ok ⟨c.stepOver 1, c.drop_one_remaining h⟩
  else .error ⟨.expected "whitespace", c.spanHere⟩

def unexpected (scope : Path) (word : String) (owner : CommandTree) : Complaint :=
  if scope = [] then .unknownCommand word else .unexpectedWord word (Entries.keys owner.children)

theorem block_decreases {first : Bool} {c d e : Cursor} (h : c.nextLine? first = some d)
    (he : e.remaining ≤ d.skipSpaces.remaining) :
    8 * e.remaining + (if false then 6 else 5) < 8 * c.remaining + (if first then 6 else 5) := by
  have hd := d.skipSpaces_remaining_le
  cases first with
  | true =>
    have := (Cursor.nextLine?_reaches h).remaining_le
    simp only [Bool.false_eq_true, ↓reduceIte]
    omega
  | false =>
    have := Cursor.nextLine?_remaining h
    simp only [Bool.false_eq_true, ↓reduceIte]
    omega

mutual

/-- Reads an argument. Lines of the block around it are indented by `indent`. -/
def argument (p : Parser) (indent : Option Nat) (node : CommandTree) (c : Cursor) :
    Except SyntaxError { x : Step c Node // x.next.remaining < c.remaining } :=
  match p.registry (node.reader?.getD "") with
  | none => .error ⟨.unsupportedParser (node.reader?.getD ""), c.spanHere⟩
  | some (.leaf l) =>
    match h : l.read node.properties c with
    | .error e => .error e
    | .ok x => .ok ⟨x, l.read_strict node.properties c h⟩
  | some .block =>
    if !p.options.multiline then .error ⟨.blocksOff, c.spanHere⟩
    else if h : c.peek = some ':' then
      have hd := c.drop_one_remaining h
      if !(c.drop 1).atLineEnd then
        .error ⟨.expected "end of line after \":\"", (c.drop 1).spanHere⟩
      else if (c.drop 1).blockIndentation ≤ indent.getD 0 then
        .error ⟨.expected "indented block", (c.drop 1).spanHere⟩
      else
        match block p (some (c.drop 1).blockIndentation) false (c.drop 1) with
        | .error e => .error e
        | .ok x =>
          .ok ⟨⟨⟨.root x.value, x.next.spanFrom c.location⟩, x.next, (c.reaches_drop 1).trans x.ahead⟩,
            Nat.lt_of_le_of_lt x.left_le hd⟩
    else .error ⟨.expectedText ":", c.spanHere⟩
termination_by 8 * c.remaining
decreasing_by
  rw [if_neg (by decide)]
  omega

/-- Reads a block that opens here, if the node before it can be followed by one. -/
def nested (p : Parser) (indent : Option Nat) (owner : CommandTree) (pending : Pending) (c : Cursor) :
    Option (Except SyntaxError (Step c Node)) :=
  firstOk (fun _ e => e) (fun (name, child) =>
    match argument p indent child c with
    | .error e => .error e
    | .ok ⟨x, _⟩ =>
      match afterNode p indent child (pending.argument name x.value) x.next with
      | .error e => .error e
      | .ok y => .ok (y.since x.ahead))
    (owner.children.filter fun (_, child) => child.reader? = some ArgumentReader.blockName)
termination_by 8 * c.remaining + 1
decreasing_by all_goals omega

def follow (p : Parser) (indent : Option Nat) (owner : CommandTree) (pending : Pending) (c : Cursor) :
    Except SyntaxError (Step c Node) :=
  if owner.children.isEmpty then
    .error ⟨if c.atLineEnd then .incompleteCommand else .expected "end of line", c.spanHere⟩
  else
    match if c.peek = some ':' then nested p indent owner pending c else none with
    | some result => result
    | none =>
      if c.atLineEnd then .error ⟨.incompleteCommand, c.spanHere⟩
      else
        match separator c with
        | .error e => .error e
        | .ok ⟨x, _⟩ =>
          match children p indent owner pending x.next with
          | .error e => .error e
          | .ok y => .ok (y.since x.ahead)
termination_by 8 * c.remaining + 2
decreasing_by all_goals omega

def afterNode (p : Parser) (indent : Option Nat) (node : CommandTree) (pending : Pending) (c : Cursor) :
    Except SyntaxError (Step c Node) :=
  if c.atLineEnd && node.executable then .ok ⟨pending.finish c, c, .refl c⟩
  else
    match node.redirect? with
    | none => follow p indent node pending c
    | some path =>
      match p.tree.at? path with
      | none => .error ⟨.unresolvedRedirect path, c.spanHere⟩
      | some target =>
        if target.subcommand then
          if c.atLineEnd then .error ⟨.incompleteCommand, c.spanHere⟩
          else
            match separator c with
            | .error e => .error e
            | .ok ⟨x, _⟩ =>
              match children p indent target { scope := path, start := x.next.location } x.next with
              | .error e => .error e
              | .ok y =>
                .ok ⟨(pending.argument Slot.subcommandName y.value).finish y.next, y.next, x.ahead.trans y.ahead⟩
        else follow p indent target pending c
termination_by 8 * c.remaining + 3
decreasing_by all_goals omega

/-- Reads the next part of a command, which is one of the children of a node. -/
def children (p : Parser) (indent : Option Nat) (owner : CommandTree) (pending : Pending) (c : Cursor) :
    Except SyntaxError (Step c Node) :=
  match (owner.children.lookup c.word).filter (·.role = .literal) with
  | some child =>
    have := (c.reaches_drop c.wordLength).remaining_le
    match afterNode p indent child (pending.literal c.word) (c.drop c.wordLength) with
    | .error e => .error e
    | .ok y => .ok (y.since (c.reaches_drop c.wordLength))
  | none =>
    (firstOk SyntaxError.furthest (fun (name, child) =>
      match argument p indent child c with
      | .error e => .error e
      | .ok ⟨x, _⟩ =>
        match afterNode p indent child (pending.argument name x.value) x.next with
        | .error e => .error e
        | .ok y => .ok (y.since x.ahead))
      (owner.children.filter fun (_, child) => child.role = .argument)).getD
      (.error ⟨unexpected pending.scope c.word owner, ⟨c.location, (c.drop c.wordLength).location⟩⟩)
termination_by 8 * c.remaining + 4
decreasing_by all_goals omega

/-- Reads the lines of a block. The block of the whole text starts with its first line; any other starts
at the end of the line that opens it, and ends before a line that is indented less. -/
def block (p : Parser) (indent : Option Nat) (first : Bool) (c : Cursor) :
    Except SyntaxError (Step c (List Node)) :=
  match _h : c.nextLine? first with
  | none => .ok ⟨[], c, .refl c⟩
  | some d =>
    have hd : c.Reaches d.skipSpaces := (Cursor.nextLine?_reaches _h).trans d.skipSpaces_reaches
    if d.atEnd then .ok ⟨[], d, Cursor.nextLine?_reaches _h⟩
    else if d.atComment then
      match block p indent false d.skipSpaces.skipLine with
      | .error e => .error e
      | .ok x =>
        .ok ⟨(if p.options.keepComments then
            [⟨.comment (String.ofList (d.skipSpaces.lineRest.drop 1)),
              d.skipSpaces.skipLine.spanFrom d.skipSpaces.location⟩]
          else []) ++ x.value, x.next, hd.trans (d.skipSpaces.skipLine_reaches.trans x.ahead)⟩
    else
      match p.indentationOrder indent d.indentation with
      | .lt => .ok ⟨[], c, .refl c⟩
      | .gt => .error ⟨.unexpectedIndentation, d.skipSpaces.spanHere⟩
      | .eq =>
        match children p indent p.tree { start := d.skipSpaces.location } d.skipSpaces with
        | .error e => .error e
        | .ok x =>
          match block p indent false x.next with
          | .error e => .error e
          | .ok y => .ok ⟨x.value :: y.value, y.next, hd.trans (x.ahead.trans y.ahead)⟩
termination_by 8 * c.remaining + (if first then 6 else 5)
decreasing_by
  · exact block_decreases _h d.skipSpaces.skipLine_reaches.remaining_le
  · have h := hd.remaining_le
    split <;> omega
  · exact block_decreases _h x.left_le

end

def command (p : Parser) (c : Cursor) : Except SyntaxError (Step c Node) :=
  children p none p.tree { start := c.location } c

def parse (p : Parser) (source : String) : Except SyntaxError Node :=
  match block p none true (.start source) with
  | .error e => .error e
  | .ok x => .ok ⟨.root x.value, x.next.spanFrom .origin⟩

end Parser

end Mcfunction
