import Mcfunction.Proofs.Columns
import Mcfunction.Proofs.RoundTrip

/-! The widths of open blocks as a stack. The readers are written down once more so that no width is handed on: those of
the open blocks are on a stack, which only the reader of a block as an argument changes. Main statement: blocks follow
indentation, and the readers with a stack answer as those without do and leave it as they found it. -/

namespace Mcfunction.Parser

/-- Computations that have the widths of the open blocks at hand, the innermost first. -/
abbrev Stacked := StateM (List Nat)

abbrev Answer (α : Type) := Except SyntaxError (α × Cursor)

/-- Readers that are not given the width around them: it is on a stack. -/
structure StackReaders where
  block : Option Nat → Bool → Cursor → Stacked (Answer (List Node))
  part : Stage → Cursor → Stacked (Answer Node)
  argument : CommandTree → Cursor → Stacked (Answer Node)

namespace StackReaders

/-- The first success of a list, or else what the failures combine to; `other` if there is nothing to try. -/
def firstOk {α : Type} (combine : SyntaxError → SyntaxError → SyntaxError) (f : α → Stacked (Answer Node)) (other : Stacked (Answer Node)) :
    List α → Stacked (Answer Node)
  | [] => other
  | [a] => f a
  | a :: rest => do
    match ← f a with
    | .ok x => return .ok x
    | .error e => return (← firstOk combine f other rest).mapError (combine e)

variable (r : StackReaders) (p : Parser)

def attempt (pending : Pending) (c : Cursor) (entry : String × CommandTree) : Stacked (Answer Node) := do
  match ← r.argument entry.2 c with
  | .error e => return .error e
  | .ok (value, d) => r.part (.after entry.2 (pending.argument entry.1 value)) d

def separated (stage : Cursor → Stage) (c : Cursor) : Stacked (Answer Node) :=
  match gap c with
  | .error e => return .error e
  | .ok d => r.part (stage d) d

def nextPart : Stage → Cursor → Stacked (Answer Node)
  | .child owner pending, c =>
    match literal? owner c with
    | some child => r.part (.after child (pending.literal c.word)) (c.drop c.wordLength)
    | none => firstOk SyntaxError.furthest (r.attempt pending c) (return .error (unexpectedHere owner pending c))
        (owner.children.filter isArgument)
  | .follow owner pending, c =>
    if owner.children.isEmpty then
      return .error ⟨if c.atLineEnd then .incompleteCommand else .expected "end of line", c.spanHere⟩
    else
      firstOk (fun _ e => e) (r.attempt pending c)
        (if c.atLineEnd then return .error ⟨.incompleteCommand, c.spanHere⟩
          else r.separated (fun _ => .child owner pending) c)
        (if c.peek = some ':' then owner.children.filter isBlock else [])
  | .after node pending, c =>
    if c.atLineEnd && node.executable then return .ok (pending.finish c, c)
    else
      match node.redirect? with
      | none => r.part (.follow node pending) c
      | some path =>
        match p.tree.at? path with
        | none => return .error ⟨.unresolvedRedirect path, c.spanHere⟩
        | some target =>
          if target.subcommand then
            if c.atLineEnd then return .error ⟨.incompleteCommand, c.spanHere⟩
            else do
              let inner ← r.separated (fun d => .child target { scope := path, start := d.location }) c
              return inner.map (around pending)
          else r.part (.follow target pending) c

/-- A block as an argument compares its width with the top of the stack, and is on the stack while its lines are read. -/
def nextArgument (node : CommandTree) (c : Cursor) : Stacked (Answer Node) :=
  match p.registry (node.reader?.getD "") with
  | none => return .error ⟨.unsupportedParser (node.reader?.getD ""), c.spanHere⟩
  | some (.leaf l) => return (l.read node.properties c).map Step.pair
  | some .block =>
    if !p.options.multiline then return .error ⟨.blocksOff, c.spanHere⟩
    else if c.peek = some ':' then
      if !(c.drop 1).atLineEnd then return .error ⟨.expected "end of line after \":\"", (c.drop 1).spanHere⟩
      else do
        let widths ← get
        if (c.drop 1).blockIndentation ≤ widths.head?.getD 0 then
          return .error ⟨.expected "indented block", (c.drop 1).spanHere⟩
        else
          set ((c.drop 1).blockIndentation :: widths)
          let lines ← r.block (some (c.drop 1).blockIndentation) false (c.drop 1)
          modify List.tail
          return lines.map fun (lines, d) => (⟨.root lines, d.spanFrom c.location⟩, d)
    else return .error ⟨.expectedText ":", c.spanHere⟩

def nextBlock (indent : Option Nat) (first : Bool) (c : Cursor) : Stacked (Answer (List Node)) :=
  match c.nextLine? first with
  | none => return .ok ([], c)
  | some d =>
    if d.atEnd then return .ok ([], d)
    else if d.atComment then do
      return (← r.block indent false d.skipSpaces.skipLine).map fun (lines, e) => (p.commentLine d ++ lines, e)
    else
      match p.indentationOrder indent d.indentation with
      | .lt => return .ok ([], c)
      | .gt => return .error ⟨.unexpectedIndentation, d.skipSpaces.spanHere⟩
      | .eq => do
        match ← r.part (.child p.tree { start := d.skipSpaces.location }) d.skipSpaces with
        | .error e => return .error e
        | .ok (n, e) => return (← r.block indent false e).map fun (lines, e) => (n :: lines, e)

end StackReaders

/-- The readers of a text with a stack, with their calls nested up to a depth. Deeper calls are answered by readers
without one. -/
def Readers.stacked (s : Readers) (p : Parser) : Nat → StackReaders
  | 0 =>
    { block := fun indent first c => return s.block indent first c
      part := fun stage c => return s.part (← get).head? stage c
      argument := fun node c => return s.argument (← get).head? node c }
  | depth + 1 =>
    let r := stacked s p depth
    ⟨r.nextBlock p, r.nextPart p, r.nextArgument p⟩

/-- Readers with a stack answer as those do that are given the width on top of it, and leave it as it was. -/
structure StackReaders.Follow (r : StackReaders) (s : Readers) (widths : List Nat) : Prop where
  block : ∀ first c, r.block widths.head? first c widths = (s.block widths.head? first c, widths)
  part : ∀ stage c, r.part stage c widths = (s.part widths.head? stage c, widths)
  argument : ∀ node c, r.argument node c widths = (s.argument widths.head? node c, widths)

namespace StackReaders

section Runs

variable {α β : Type} {widths left : List Nat}

theorem bind_run {x : Stacked α} {a : α} (hx : x widths = (a, left)) (f : α → Stacked β) :
    (x >>= f) widths = f a left := by
  change (let y := x widths; f y.1 y.2) = _
  rw [hx]

theorem firstOk_follows (combine : SyntaxError → SyntaxError → SyntaxError) {f : α → Stacked (Answer Node)}
    {g : α → Answer Node} {other : Stacked (Answer Node)} {o : Answer Node}
    (h : ∀ a, f a widths = (g a, widths)) (hother : other widths = (o, widths)) (l : List α) :
    firstOk combine f other l widths = ((Parser.firstOk combine g l).getD o, widths) := by
  induction l using firstOk.induct with
  | case1 => exact hother
  | case2 a =>
    rw [firstOk, Parser.firstOk, h a]
    cases g a <;> rfl
  | case3 a rest hrest ih =>
    rw [firstOk, Parser.firstOk, bind_run (h a)]
    · cases g a with
      | ok x => rfl
      | error e =>
        dsimp only
        rw [bind_run ih]
        cases hfirst : Parser.firstOk combine g rest with
        | none => exact absurd ((firstOk_eq_none combine).1 hfirst) hrest
        | some result => cases result <;> rfl
    · exact hrest

end Runs

variable {p : Parser} {r : StackReaders} {s : Readers} {widths : List Nat}

section

variable (h : r.Follow s widths)

include h

theorem attempt_follows (pending : Pending) (c : Cursor) (entry : String × CommandTree) :
    r.attempt pending c entry widths = (s.attempt widths.head? pending c entry, widths) := by
  rw [attempt, Readers.attempt, bind_run (h.argument entry.2 c)]
  cases s.argument widths.head? entry.2 c with
  | error e => rfl
  | ok x => exact h.part _ _

theorem separated_follows (stage : Cursor → Stage) (c : Cursor) :
    r.separated stage c widths = (s.separated widths.head? stage c, widths) := by
  rw [separated, Readers.separated]
  cases gap c with
  | error e => rfl
  | ok d => exact h.part _ _

theorem nextPart_follows (stage : Stage) (c : Cursor) :
    r.nextPart p stage c widths = (s.nextPart p widths.head? stage c, widths) := by
  cases stage with
  | child owner pending =>
    rw [nextPart, Readers.nextPart]
    cases literal? owner c with
    | some child => exact h.part _ _
    | none => exact firstOk_follows _ (attempt_follows h pending c) rfl _
  | follow owner pending =>
    rw [nextPart, Readers.nextPart]
    split
    · rfl
    · rw [firstOk_follows _ (attempt_follows h pending c) (o := if c.atLineEnd then .error ⟨.incompleteCommand, c.spanHere⟩
        else s.separated widths.head? (fun _ => .child owner pending) c)]
      · split
        · cases Parser.firstOk (fun _ e => e) (s.attempt widths.head? pending c) _ <;> rfl
        · rfl
      · split
        · rfl
        · exact separated_follows h _ c
  | after node pending =>
    rw [nextPart, Readers.nextPart]
    split
    · rfl
    · cases node.redirect? with
      | none => exact h.part _ _
      | some path =>
        dsimp only
        cases p.tree.at? path with
        | none => rfl
        | some target =>
          dsimp only
          split
          · split
            · rfl
            · exact bind_run (separated_follows h _ c) _
          · exact h.part _ _

theorem nextBlock_follows (first : Bool) (c : Cursor) :
    r.nextBlock p widths.head? first c widths = (s.nextBlock p widths.head? first c, widths) := by
  rw [nextBlock, Readers.nextBlock]
  cases c.nextLine? first with
  | none => rfl
  | some d =>
    dsimp only
    split
    · rfl
    · split
      · exact bind_run (h.block _ _) _
      · cases p.indentationOrder widths.head? d.indentation with
        | lt | gt => rfl
        | eq =>
          dsimp only
          rw [bind_run (h.part _ _)]
          cases s.part widths.head? (.child p.tree { start := d.skipSpaces.location }) d.skipSpaces with
          | error e => rfl
          | ok x => exact bind_run (h.block _ _) _

end

theorem nextArgument_follows (h : ∀ widths, r.Follow s widths) (node : CommandTree) (c : Cursor) :
    r.nextArgument p node c widths = (s.nextArgument p widths.head? node c, widths) := by
  rw [nextArgument, Readers.nextArgument]
  cases p.registry (node.reader?.getD "") with
  | none => rfl
  | some reader =>
    cases reader with
    | leaf l => rfl
    | block =>
      dsimp only
      split
      · rfl
      · split
        · split
          · rfl
          · rw [bind_run (show (get : Stacked _) widths = (widths, widths) from rfl)]
            split
            · rfl
            · -- the lines leave the pushed width on top of the stack, so the pop restores what was there
              generalize (c.drop 1).blockIndentation = width
              have hlines : r.block (some width) false _ (width :: widths) = _ := (h (width :: widths)).block false (c.drop 1)
              rw [bind_run (show (set (width :: widths) : Stacked _) widths = (⟨⟩, width :: widths) from rfl), bind_run hlines]
              rfl
        · rfl

theorem stacked_follow (p : Parser) (s : Readers) (depth : Nat) (widths : List Nat) :
    (s.stacked p depth).Follow (s.nested p depth) widths := by
  induction depth generalizing widths with
  | zero => exact ⟨fun _ _ => rfl, fun _ _ => rfl, fun _ _ => rfl⟩
  | succ depth ih => exact ⟨nextBlock_follows (ih widths), nextPart_follows (ih widths), nextArgument_follows ih⟩

end StackReaders

/-- Blocks follow indentation, whatever the grammar. In a text that is read with blocks, commands that stand in no block
begin at column 1; all commands of one block begin at the same column, and those of the blocks within it further right.
The widths of the open blocks may be kept on a stack. With calls nested deep enough, the readers that push and pop them
answer as those that hand them on, and leave the stack as they found it, whether they succeed or fail. -/
theorem blocks_follow_indentation (p : Parser) :
    (∀ source tree, p.options.multiline = true → p.parse source = .ok tree →
      Laid 1 tree ∧ ∀ b ∈ tree.walk, b.kind = .root → ∃ column, Laid column b) ∧
      ∀ (s : Readers) (widths : List Nat) (depth : Nat),
        (∀ first c, (Call.block widths.head? first c).rank < depth →
          (s.stacked p depth).block widths.head? first c widths = (p.blockOutcome widths.head? first c, widths)) ∧
        (∀ stage c, (Call.part widths.head? stage c).rank < depth →
          (s.stacked p depth).part stage c widths = (p.outcome widths.head? stage c, widths)) ∧
        ∀ node c, (Call.argument widths.head? node c).rank < depth →
          (s.stacked p depth).argument node c widths = (p.argumentOutcome widths.head? node c, widths) := by
  refine ⟨fun _ _ hmultiline => parse_laid hmultiline, fun s widths depth => ?_⟩
  have hfollow := StackReaders.stacked_follow p s depth widths
  refine ⟨fun first c hrank => ?_, fun stage c hrank => ?_, fun node c hrank => ?_⟩
  · exact (hfollow.block first c).trans (congrArg (·, widths) (s.nested_agreeOn hrank))
  · exact (hfollow.part stage c).trans (congrArg (·, widths) (s.nested_agreeOn hrank))
  · exact (hfollow.argument node c).trans (congrArg (·, widths) (s.nested_agreeOn hrank))

/-- A block in the middle of a subcommand of another one, behind a comment that is indented less. -/
theorem blocks_follow_indentation_nested :
    let p : Parser := { tree := CommandTree.bundled.carryOut CommandTree.bundledPlan, options := { multiline := true } }
    let source := "function a:b:\n #\n  execute run function c:d:\n\t\t\tsay x\n  say y\nsay z\n"
    ∃ tree, p.parse source = .ok tree ∧ (tree.walk.filter (·.kind = .root)).length = 3 ∧ Laid 1 tree ∧
      ∀ b ∈ tree.walk, b.kind = .root → ∃ column, Laid column b := by
  intro p source
  have hread : (p.parse source).toOption.any (fun tree =>
      decide ((tree.walk.filter (·.kind = .root)).length = 3)) = true := by decide +kernel
  obtain ⟨tree, hparse, hroots⟩ := exists_ok_of_any hread
  exact ⟨tree, hparse, of_decide_eq_true hroots, (blocks_follow_indentation p).1 source tree rfl hparse⟩

end Mcfunction.Parser
