import Mathlib.Data.List.DropRight
import Mathlib.Logic.Relation
import Mcfunction.Proofs.Indentation

/-! How the readers of a text call each other. Each reader is written down once more with the answers to its own calls
as a parameter, so that it is known which calls there are. Main statement: reading a text ends, whatever the tree and
the options, since each way back to the same reader moves over a separator, a colon, an argument or a line. -/

namespace Mcfunction

open List Cursor

/-! ### Lines -/

namespace Cursor

variable {c d : Cursor}

theorem Reaches.eq_or_lt (h : c.Reaches d) : d = c ∨ d.remaining < c.remaining := by
  obtain ⟨n, rfl⟩ := h
  obtain ⟨rest, l⟩ := c
  cases n with
  | zero => exact .inl rfl
  | succ n =>
    cases rest with
    | nil => exact .inl rfl
    | cons ch rest =>
      right
      rw [remaining_drop, remaining, length_cons]
      omega

theorem skipLine_remaining (h : c.atComment = true) : c.skipSpaces.skipLine.remaining < c.remaining := by
  have hcomment : c.skipSpaces.atComment = true := by
    rw [atComment, skipSpaces, rest_drop, indentation, drop_length_takeWhile, dropWhile_idempotent]
    exact h
  have hpos := lineRest_pos_of_atComment hcomment
  have hne : 0 < c.skipSpaces.remaining := length_pos_iff.2 (Parse.lineRest_ne_nil hpos)
  have hle := c.skipSpaces_remaining_le
  rw [skipLine, remaining_drop]
  omega

end Cursor

namespace Parser

/-! ### Calls and their answers -/

/-- Readers of blocks, of parts of commands and of arguments: what each of them gives, with the cursor behind it, or the
error. -/
structure Readers where
  block : Option Nat → Bool → Cursor → Except SyntaxError (List Node × Cursor)
  part : Option Nat → Stage → Cursor → Except SyntaxError (Node × Cursor)
  argument : Option Nat → CommandTree → Cursor → Except SyntaxError (Node × Cursor)

def readers (p : Parser) : Readers := ⟨p.blockOutcome, p.outcome, p.argumentOutcome⟩

/-- A call of one of the readers. -/
inductive Call where
  | block (indent : Option Nat) (first : Bool) (c : Cursor)
  | part (indent : Option Nat) (stage : Stage) (c : Cursor)
  | argument (indent : Option Nat) (node : CommandTree) (c : Cursor)

namespace Call

def remaining : Call → Nat
  | .block _ _ c => c.remaining
  | .part _ _ c => c.remaining
  | .argument _ _ c => c.remaining

/-- The number of the reader that is called. A reader calls only those with smaller numbers at the same place. -/
def reader : Call → Nat
  | .block .. => 4
  | .part _ (.child ..) _ => 3
  | .part _ (.after ..) _ => 2
  | .part _ (.follow ..) _ => 1
  | .argument .. => 0

def rank (k : Call) : Nat := 5 * k.remaining + k.reader

end Call

def Readers.AgreeOn (r r' : Readers) : Call → Prop
  | .block indent first c => r.block indent first c = r'.block indent first c
  | .part indent stage c => r.part indent stage c = r'.part indent stage c
  | .argument indent node c => r.argument indent node c = r'.argument indent node c

namespace Readers

variable (r : Readers) (p : Parser) (indent : Option Nat)

/-- One child reads the next part of a command, and the command goes on behind it. -/
def attempt (pending : Pending) (c : Cursor) (entry : String × CommandTree) : Except SyntaxError (Node × Cursor) :=
  match r.argument indent entry.2 c with
  | .error e => .error e
  | .ok (value, d) => r.part indent (.after entry.2 (pending.argument entry.1 value)) d

def separated (stage : Cursor → Stage) (c : Cursor) : Except SyntaxError (Node × Cursor) :=
  match gap c with
  | .error e => .error e
  | .ok d => r.part indent (stage d) d

/-- The reader of a part of a command, with the readers that it calls. -/
def nextPart : Stage → Cursor → Except SyntaxError (Node × Cursor)
  | .child owner pending, c =>
    match literal? owner c with
    | some child => r.part indent (.after child (pending.literal c.word)) (c.drop c.wordLength)
    | none =>
      (firstOk SyntaxError.furthest (r.attempt indent pending c) (owner.children.filter isArgument)).getD
        (.error (unexpectedHere owner pending c))
  | .follow owner pending, c =>
    if owner.children.isEmpty then
      .error ⟨if c.atLineEnd then .incompleteCommand else .expected "end of line", c.spanHere⟩
    else
      match if c.peek = some ':' then
          firstOk (fun _ e => e) (r.attempt indent pending c) (owner.children.filter isBlock)
        else none with
      | some result => result
      | none =>
        if c.atLineEnd then .error ⟨.incompleteCommand, c.spanHere⟩
        else r.separated indent (fun _ => .child owner pending) c
  | .after node pending, c =>
    if c.atLineEnd && node.executable then .ok (pending.finish c, c)
    else
      match node.redirect? with
      | none => r.part indent (.follow node pending) c
      | some path =>
        match p.tree.at? path with
        | none => .error ⟨.unresolvedRedirect path, c.spanHere⟩
        | some target =>
          if target.subcommand then
            if c.atLineEnd then .error ⟨.incompleteCommand, c.spanHere⟩
            else (r.separated indent (fun d => .child target { scope := path, start := d.location }) c).map
              (around pending)
          else r.part indent (.follow target pending) c

def nextArgument (node : CommandTree) (c : Cursor) : Except SyntaxError (Node × Cursor) :=
  match p.registry (node.reader?.getD "") with
  | none => .error ⟨.unsupportedParser (node.reader?.getD ""), c.spanHere⟩
  | some (.leaf l) => (l.read node.properties c).map Step.pair
  | some .block =>
    if !p.options.multiline then .error ⟨.blocksOff, c.spanHere⟩
    else if c.peek = some ':' then
      if !(c.drop 1).atLineEnd then .error ⟨.expected "end of line after \":\"", (c.drop 1).spanHere⟩
      else if (c.drop 1).blockIndentation ≤ indent.getD 0 then
        .error ⟨.expected "indented block", (c.drop 1).spanHere⟩
      else
        (r.block (some (c.drop 1).blockIndentation) false (c.drop 1)).map fun (lines, d) =>
          (⟨.root lines, d.spanFrom c.location⟩, d)
    else .error ⟨.expectedText ":", c.spanHere⟩

def nextBlock (first : Bool) (c : Cursor) : Except SyntaxError (List Node × Cursor) :=
  match c.nextLine? first with
  | none => .ok ([], c)
  | some d =>
    if d.atEnd then .ok ([], d)
    else if d.atComment then
      (r.block indent false d.skipSpaces.skipLine).map fun (lines, e) => (p.commentLine d ++ lines, e)
    else
      match p.indentationOrder indent d.indentation with
      | .lt => .ok ([], c)
      | .gt => .error ⟨.unexpectedIndentation, d.skipSpaces.spanHere⟩
      | .eq =>
        match r.part indent (.child p.tree { start := d.skipSpaces.location }) d.skipSpaces with
        | .error e => .error e
        | .ok (n, e) => (r.block indent false e).map fun (lines, e) => (n :: lines, e)

def next : Readers := ⟨r.nextBlock p, r.nextPart p, r.nextArgument p⟩

/-- The readers of a text with their calls nested up to a depth. Deeper calls are answered by others. -/
def nested : Nat → Readers
  | 0 => r
  | depth + 1 => (nested depth).next p

end Readers

/-- A reader calls another one. -/
inductive Calls (p : Parser) : Call → Call → Prop where
  | comment {indent first c d} (hline : c.nextLine? first = some d) (hcomment : d.atComment = true) :
      Calls p (.block indent first c) (.block indent false d.skipSpaces.skipLine)
  | command {indent first c d} (hline : c.nextLine? first = some d) :
      Calls p (.block indent first c) (.part indent (.child p.tree { start := d.skipSpaces.location }) d.skipSpaces)
  | line {indent first c d n e} (hline : c.nextLine? first = some d) (hend : d.atEnd = false)
      (hcmd : p.outcome indent (.child p.tree { start := d.skipSpaces.location }) d.skipSpaces = .ok (n, e)) :
      Calls p (.block indent first c) (.block indent false e)
  | literal {indent owner pending c child} (hchild : literal? owner c = some child) :
      Calls p (.part indent (.child owner pending) c)
        (.part indent (.after child (pending.literal c.word)) (c.drop c.wordLength))
  | argument {indent owner pending c entry} (hentry : entry ∈ owner.children) :
      Calls p (.part indent (.child owner pending) c) (.argument indent entry.2 c)
  | behindArgument {indent owner pending c entry value d} (hentry : entry ∈ owner.children)
      (harg : p.argumentOutcome indent entry.2 c = .ok (value, d)) :
      Calls p (.part indent (.child owner pending) c)
        (.part indent (.after entry.2 (pending.argument entry.1 value)) d)
  | block {indent owner pending c entry} (hentry : entry ∈ owner.children) (hcolon : c.peek = some ':') :
      Calls p (.part indent (.follow owner pending) c) (.argument indent entry.2 c)
  | behindBlock {indent owner pending c entry value d} (hentry : entry ∈ owner.children) (hcolon : c.peek = some ':')
      (harg : p.argumentOutcome indent entry.2 c = .ok (value, d)) :
      Calls p (.part indent (.follow owner pending) c)
        (.part indent (.after entry.2 (pending.argument entry.1 value)) d)
  | separated {indent owner pending c d} (hgap : gap c = .ok d) :
      Calls p (.part indent (.follow owner pending) c) (.part indent (.child owner pending) d)
  | on {indent node pending c} :
      Calls p (.part indent (.after node pending) c) (.part indent (.follow node pending) c)
  | redirected {indent node pending c path target} (hred : node.redirect? = some path)
      (htarget : p.tree.at? path = some target) :
      Calls p (.part indent (.after node pending) c) (.part indent (.follow target pending) c)
  | subcommand {indent node pending c path target d} (hred : node.redirect? = some path)
      (htarget : p.tree.at? path = some target) (hgap : gap c = .ok d) :
      Calls p (.part indent (.after node pending) c)
        (.part indent (.child target { scope := path, start := d.location }) d)
  | lines {indent node c} (hcolon : c.peek = some ':') :
      Calls p (.argument indent node c) (.block (some (c.drop 1).blockIndentation) false (c.drop 1))

variable {p : Parser} {k k' : Call} {stage : Stage} {first : Bool}

/-! ### Calls move on -/

theorem command_remaining {indent : Option Nat} {c d e : Cursor} {n : Node}
    (hline : c.nextLine? first = some d) (hend : d.atEnd = false)
    (hcmd : p.outcome indent stage d.skipSpaces = .ok (n, e)) : e.remaining < c.remaining := by
  have hle := ((nextLine?_reaches hline).trans d.skipSpaces_reaches).remaining_le
  rcases (outcome_reaches hcmd).eq_or_lt with rfl | hlt
  · have hstop := outcome_atLineEnd hcmd
    rw [atLineEnd_nextLine? hline hend] at hstop
    cases hstop
  · exact lt_of_lt_of_le hlt hle

/-- A call is made further into the text, or at the same place to a reader with a smaller number. -/
theorem Calls.remaining_lt_or (h : p.Calls k k') :
    k'.remaining < k.remaining ∨ k'.remaining ≤ k.remaining ∧ k'.reader < k.reader := by
  cases h with
  | comment hline hcomment =>
    exact .inl (lt_of_lt_of_le (skipLine_remaining hcomment) (nextLine?_reaches hline).remaining_le)
  | @command _ _ _ d hline =>
    refine .inr ⟨?_, show 3 < 4 by decide⟩
    exact ((nextLine?_reaches hline).trans d.skipSpaces_reaches).remaining_le
  | line hline hend hcmd => exact .inl (command_remaining hline hend hcmd)
  | literal => exact .inr ⟨(reaches_drop _ _).remaining_le, show 2 < 3 by decide⟩
  | argument => exact .inr ⟨le_refl _, show 0 < 3 by decide⟩
  | behindArgument _ harg | behindBlock _ _ harg => exact .inl (argumentOutcome_remaining harg)
  | block => exact .inr ⟨le_refl _, show 0 < 1 by decide⟩
  | separated hgap | subcommand _ _ hgap => exact .inl (gap_remaining hgap)
  | on | redirected => exact .inr ⟨le_refl _, show 1 < 2 by decide⟩
  | lines hcolon => exact .inl (drop_one_remaining _ hcolon)

theorem Call.reader_le (k : Call) : k.reader ≤ 4 := by
  unfold reader
  split <;> decide

theorem Calls.rank_lt (h : p.Calls k k') : k'.rank < k.rank := by
  have := k'.reader_le
  rw [Call.rank, Call.rank]
  rcases h.remaining_lt_or with hlt | ⟨hle, hreader⟩ <;> omega

theorem calls_wellFounded (p : Parser) : WellFounded fun k' k => p.Calls k k' :=
  Subrelation.wf Calls.rank_lt (measure Call.rank).wf

theorem rank_lt_of_transGen (h : Relation.TransGen p.Calls k k') : k'.rank < k.rank := by
  induction h with
  | single h => exact h.rank_lt
  | tail _ h ih => exact h.rank_lt.trans ih

theorem remaining_lt_of_transGen (h : Relation.TransGen p.Calls k k') (hreader : k'.reader = k.reader) :
    k'.remaining < k.remaining := by
  have hrank := rank_lt_of_transGen h
  rw [Call.rank, Call.rank] at hrank
  omega

/-! ### Answers come from calls -/

theorem firstOk_congr {α β ε : Type} (combine : ε → ε → ε) {f f' : α → Except ε β} {l : List α}
    (h : ∀ a ∈ l, f a = f' a) : firstOk combine f l = firstOk combine f' l := by
  induction l with
  | nil => rfl
  | cons a rest ih =>
    rw [forall_mem_cons] at h
    rw [firstOk, firstOk, h.1, ih h.2]

namespace Readers

variable {r : Readers} {indent : Option Nat} {c : Cursor}

theorem attempt_eq {pending : Pending} {entry : String × CommandTree}
    (harg : r.AgreeOn p.readers (.argument indent entry.2 c))
    (hbehind : ∀ value d, p.argumentOutcome indent entry.2 c = .ok (value, d) →
      r.AgreeOn p.readers (.part indent (.after entry.2 (pending.argument entry.1 value)) d)) :
    r.attempt indent pending c entry = p.attempt indent pending c entry := by
  rw [attempt, Parser.attempt, show r.argument indent entry.2 c = p.argumentOutcome indent entry.2 c from harg]
  cases hvalue : p.argumentOutcome indent entry.2 c with
  | error e => rfl
  | ok x => exact hbehind x.1 x.2 hvalue

theorem separated_eq {stage : Cursor → Stage}
    (h : ∀ d, gap c = .ok d → r.AgreeOn p.readers (.part indent (stage d) d)) :
    r.separated indent stage c = p.separated indent stage c := by
  rw [separated, Parser.separated]
  cases hgap : gap c with
  | error e => rfl
  | ok d => exact h d hgap

theorem nextPart_eq (h : ∀ k', p.Calls (.part indent stage c) k' → r.AgreeOn p.readers k') :
    r.nextPart p indent stage c = p.outcome indent stage c := by
  cases stage with
  | child owner pending =>
    rw [nextPart, outcome_child]
    cases hchild : literal? owner c with
    | some child => exact h _ (.literal hchild)
    | none =>
      have hattempt : ∀ entry ∈ owner.children.filter isArgument,
          r.attempt indent pending c entry = p.attempt indent pending c entry := by
        intro entry hentry
        have hentry := (mem_filter.1 hentry).1
        exact attempt_eq (h _ (.argument hentry)) fun value d hvalue => h _ (.behindArgument hentry hvalue)
      rw [firstOk_congr _ hattempt]
  | follow owner pending =>
    rw [nextPart, outcome_follow, blockOutcomes, separated_eq fun d hgap => h _ (.separated hgap)]
    split
    · rfl
    · by_cases hcolon : c.peek = some ':'
      · have hattempt : ∀ entry ∈ owner.children.filter isBlock,
            r.attempt indent pending c entry = p.attempt indent pending c entry := by
          intro entry hentry
          have hentry := (mem_filter.1 hentry).1
          exact attempt_eq (h _ (.block hentry hcolon)) fun value d hvalue => h _ (.behindBlock hentry hcolon hvalue)
        exact firstOk_congr (fun _ e => e) hattempt ▸ rfl
      · rw [if_neg hcolon, if_neg hcolon]
  | after node pending =>
    rw [nextPart, outcome_after]
    split
    · rfl
    · cases hred : node.redirect? with
      | none => exact h _ .on
      | some path =>
        dsimp only
        cases htarget : p.tree.at? path with
        | none => rfl
        | some target =>
          dsimp only
          rw [separated_eq fun d hgap => h _ (.subcommand hred htarget hgap)]
          split
          · rfl
          · exact h _ (.redirected hred htarget)

theorem nextArgument_eq {node : CommandTree} (h : ∀ k', p.Calls (.argument indent node c) k' → r.AgreeOn p.readers k') :
    r.nextArgument p indent node c = p.argumentOutcome indent node c := by
  rw [nextArgument, argumentOutcome_eq]
  cases p.registry (node.reader?.getD "") with
  | none => rfl
  | some reader =>
    cases reader with
    | leaf l => rfl
    | block =>
      dsimp only
      rw [blockArgument]
      split
      · rfl
      · by_cases hcolon : c.peek = some ':'
        · have hlines : r.block _ false (c.drop 1) = p.blockOutcome _ false (c.drop 1) := h _ (.lines hcolon)
          rw [if_pos hcolon, if_pos hcolon, hlines]
        · rw [if_neg hcolon, if_neg hcolon]

theorem nextBlock_eq (h : ∀ k', p.Calls (.block indent first c) k' → r.AgreeOn p.readers k') :
    r.nextBlock p indent first c = p.blockOutcome indent first c := by
  rw [nextBlock, blockOutcome_eq]
  cases hline : c.nextLine? first with
  | none => rfl
  | some d =>
    dsimp only
    by_cases hend : d.atEnd = true
    · rw [if_pos hend, if_pos hend]
    · by_cases hcomment : d.atComment = true
      · have hlines : r.block indent false d.skipSpaces.skipLine = p.blockOutcome indent false d.skipSpaces.skipLine :=
          h _ (.comment hline hcomment)
        rw [if_pos hcomment, if_pos hcomment, hlines]
      · rw [if_neg hcomment, if_neg hcomment]
        cases p.indentationOrder indent d.indentation with
        | lt | gt => rfl
        | eq =>
          have hcmd : r.part indent (.child p.tree { start := d.skipSpaces.location }) d.skipSpaces =
              p.outcome indent (.child p.tree { start := d.skipSpaces.location }) d.skipSpaces := h _ (.command hline)
          rw [hcmd]
          cases hresult : p.outcome indent (.child p.tree { start := d.skipSpaces.location }) d.skipSpaces with
          | error e => rfl
          | ok x =>
            have hlines : r.block indent false x.2 = p.blockOutcome indent false x.2 :=
              h _ (.line hline (Bool.eq_false_iff.2 hend) hresult)
            dsimp only
            rw [hlines]

/-- The answer to a call is known from those to the calls that it makes. -/
theorem next_agreeOn (h : ∀ k', p.Calls k k' → r.AgreeOn p.readers k') : (r.next p).AgreeOn p.readers k := by
  cases k with
  | block indent first c => exact nextBlock_eq h
  | part indent stage c => exact nextPart_eq h
  | argument indent node c => exact nextArgument_eq h

theorem nested_agreeOn (r : Readers) {depth : Nat} (h : k.rank < depth) : (r.nested p depth).AgreeOn p.readers k := by
  induction depth generalizing k with
  | zero => exact absurd h (Nat.not_lt_zero _)
  | succ depth ih =>
    exact next_agreeOn fun k' hcalls => ih (lt_of_lt_of_le hcalls.rank_lt (Nat.le_of_lt_succ h))

end Readers

/-- Reading a text ends, whatever the tree and the options. A reader of an argument that succeeds leaves fewer characters
than it found. The answer to a call is known from those to the calls that it makes, a reader that is called again has
moved on, and no chain of calls is endless. With calls nested up to about five times the length of a text, the readers
give its tree, whatever others would answer to deeper calls. -/
theorem parse_ends (p : Parser) :
    (∀ (l : Leaf) (properties : Properties), (l.read properties).Strict) ∧
      (∀ indent node c value d, p.argumentOutcome indent node c = .ok (value, d) → d.remaining < c.remaining) ∧
      (∀ (k : Call) (r : Readers), (∀ k', p.Calls k k' → r.AgreeOn p.readers k') → (r.next p).AgreeOn p.readers k) ∧
      (∀ k k', Relation.TransGen p.Calls k k' → k'.reader = k.reader → k'.remaining < k.remaining) ∧
      (WellFounded fun k' k => p.Calls k k') ∧
      ∀ (source : String) (r : Readers) (depth : Nat), 5 * source.length + 5 ≤ depth →
        ((r.nested p depth).block none true (.start source)).map
          (fun (lines, d) => ⟨.root lines, d.spanFrom .origin⟩) = p.parse source := by
  refine ⟨fun l properties => l.read_strict properties, fun _ _ _ _ _ => argumentOutcome_remaining,
    fun _ _ => Readers.next_agreeOn, fun _ _ => remaining_lt_of_transGen, p.calls_wellFounded, ?_⟩
  intro source r depth hdepth
  have hlength : (Cursor.start source).remaining = source.length := String.length_toList
  have hrank : (Call.block none true (.start source)).rank < depth := by
    change 5 * (Cursor.start source).remaining + 4 < depth
    omega
  have hblock : (r.nested p depth).block none true (.start source) = p.blockOutcome none true (.start source) :=
    r.nested_agreeOn hrank
  rw [hblock, parse_eq]

end Parser

end Mcfunction
