import Mcfunction.Parse.Command

/-! The stages of reading a command. Each reader of a part of a command is a stage, and its outcome is a plain value:
the command with the cursor behind it, or the error. One equation for each stage says how its outcome comes from later
ones, and one induction principle follows the calls. -/

namespace Mcfunction

open Step SyntaxError Cursor

def Step.pair {σ α : Type} [Forward σ] {s : σ} (x : Step s α) : α × σ := (x.value, x.next)

namespace Parser

/-- How far the reading of a command has come. -/
inductive Stage where
  | child (owner : CommandTree) (pending : Pending)
  | follow (owner : CommandTree) (pending : Pending)
  | after (node : CommandTree) (pending : Pending)

def Stage.pending : Stage → Pending
  | .child _ pending => pending
  | .follow _ pending => pending
  | .after _ pending => pending

/-- The command that is read from a stage on and the cursor behind it, or the error. -/
def outcome (p : Parser) (indent : Option Nat) : Stage → Cursor → Except SyntaxError (Node × Cursor)
  | .child owner pending, c => (p.children indent owner pending c).map pair
  | .follow owner pending, c => (p.follow indent owner pending c).map pair
  | .after node pending, c => (p.afterNode indent node pending c).map pair

/-- The argument that a node reads and the cursor behind it, or the error. -/
def argumentOutcome (p : Parser) (indent : Option Nat) (node : CommandTree) (c : Cursor) :
    Except SyntaxError (Node × Cursor) :=
  (p.argument indent node c).map fun x => x.val.pair

/-- The lines that a block holds and the cursor behind them, or the error. -/
def blockOutcome (p : Parser) (indent : Option Nat) (first : Bool) (c : Cursor) :
    Except SyntaxError (List Node × Cursor) :=
  (p.block indent first c).map pair

/-- The outcome if the next part of a command is read by one child. -/
def attempt (p : Parser) (indent : Option Nat) (pending : Pending) (c : Cursor)
    (entry : String × CommandTree) : Except SyntaxError (Node × Cursor) :=
  match p.argumentOutcome indent entry.2 c with
  | .error e => .error e
  | .ok (value, d) => p.outcome indent (.after entry.2 (pending.argument entry.1 value)) d

def isArgument (entry : String × CommandTree) : Bool := entry.2.role = .argument

def isBlock (entry : String × CommandTree) : Bool := entry.2.reader? = some ArgumentReader.blockName

def literal? (owner : CommandTree) (c : Cursor) : Option CommandTree :=
  (owner.children.lookup c.word).filter (·.role = .literal)

def unexpectedHere (owner : CommandTree) (pending : Pending) (c : Cursor) : SyntaxError :=
  ⟨unexpected pending.scope c.word owner, ⟨c.location, (c.drop c.wordLength).location⟩⟩

def around (pending : Pending) (inner : Node × Cursor) : Node × Cursor :=
  ((pending.argument Slot.subcommandName inner.1).finish inner.2, inner.2)

/-! ### The first success of a list -/

section FirstOk

variable {α β γ ε : Type} (combine : ε → ε → ε)

theorem firstOk_map (f : α → Except ε β) (g : β → γ) (l : List α) :
    (firstOk combine f l).map (Except.map g) = firstOk combine (fun a => (f a).map g) l := by
  induction l with
  | nil => rfl
  | cons a rest ih =>
    rw [firstOk, firstOk, ← ih]
    cases f a with
    | ok b => rfl
    | error e =>
      cases firstOk combine f rest with
      | none => rfl
      | some r => cases r <;> rfl

theorem firstOk_eq_none {f : α → Except ε β} {l : List α} : firstOk combine f l = none ↔ l = [] := by
  cases l with
  | nil => simp [firstOk]
  | cons a rest =>
    rw [firstOk]
    cases f a with
    | ok b => simp
    | error e =>
      cases firstOk combine f rest with
      | none => simp
      | some r => cases r <;> simp

end FirstOk

/-! ### One equation for each stage -/

variable (p : Parser) (indent : Option Nat)

/-- One child reads the next part of a command, and the command goes on behind it. -/
def attemptStep (pending : Pending) (c : Cursor) (entry : String × CommandTree) :
    Except SyntaxError (Step c Node) :=
  match p.argument indent entry.2 c with
  | .error e => .error e
  | .ok ⟨x, _⟩ =>
    match p.afterNode indent entry.2 (pending.argument entry.1 x.value) x.next with
    | .error e => .error e
    | .ok y => .ok (y.since x.ahead)

theorem attempt_eq (pending : Pending) (c : Cursor) :
    p.attempt indent pending c = fun entry => (p.attemptStep indent pending c entry).map pair := by
  funext entry
  rw [attempt, argumentOutcome, attemptStep]
  cases p.argument indent entry.2 c with
  | error e => rfl
  | ok x =>
    change p.outcome indent (.after entry.2 (pending.argument entry.1 x.val.value)) x.val.next = _
    rw [outcome]
    dsimp only
    cases p.afterNode indent entry.2 (pending.argument entry.1 x.val.value) x.val.next <;> rfl

theorem outcome_child (owner : CommandTree) (pending : Pending) (c : Cursor) :
    p.outcome indent (.child owner pending) c =
      match literal? owner c with
      | some child => p.outcome indent (.after child (pending.literal c.word)) (c.drop c.wordLength)
      | none =>
        (firstOk furthest (p.attempt indent pending c)
          (owner.children.filter isArgument)).getD (.error (unexpectedHere owner pending c)) := by
  rw [outcome, children, literal?]
  cases hl : (owner.children.lookup c.word).filter (·.role = .literal) with
  | some child =>
    dsimp only
    rw [outcome]
    cases p.afterNode indent child (pending.literal c.word) (c.drop c.wordLength) <;> rfl
  | none =>
    rw [attempt_eq, ← firstOk_map]
    change Except.map pair ((firstOk furthest (p.attemptStep indent pending c)
      (owner.children.filter isArgument)).getD _) = _
    cases firstOk furthest (p.attemptStep indent pending c) (owner.children.filter isArgument) <;>
      rfl

def blockOutcomes (owner : CommandTree) (pending : Pending) (c : Cursor) :
    Option (Except SyntaxError (Node × Cursor)) :=
  if c.peek = some ':' then
    firstOk (fun _ e => e) (p.attempt indent pending c) (owner.children.filter isBlock)
  else none

theorem blockOutcomes_eq (owner : CommandTree) (pending : Pending) (c : Cursor) :
    (if c.peek = some ':' then p.nested indent owner pending c else none).map (Except.map pair) =
      p.blockOutcomes indent owner pending c := by
  rw [blockOutcomes]
  by_cases hc : c.peek = some ':'
  · rw [if_pos hc, if_pos hc, nested, attempt_eq, ← firstOk_map]
    rfl
  · rw [if_neg hc, if_neg hc]
    rfl

/-- The cursor behind the one space between two parts of a command. -/
def gap (c : Cursor) : Except SyntaxError Cursor := (separator c).map fun x => x.val.next

def separated (stage : Cursor → Stage) (c : Cursor) : Except SyntaxError (Node × Cursor) :=
  match gap c with
  | .error e => .error e
  | .ok d => p.outcome indent (stage d) d

theorem outcome_follow (owner : CommandTree) (pending : Pending) (c : Cursor) :
    p.outcome indent (.follow owner pending) c =
      if owner.children.isEmpty then
        .error ⟨if c.atLineEnd then .incompleteCommand else .expected "end of line", c.spanHere⟩
      else
        match p.blockOutcomes indent owner pending c with
        | some result => result
        | none =>
          if c.atLineEnd then .error ⟨.incompleteCommand, c.spanHere⟩
          else p.separated indent (fun _ => .child owner pending) c := by
  rw [outcome, follow, ← blockOutcomes_eq]
  split
  · rfl
  · generalize (if c.peek = some ':' then p.nested indent owner pending c else none) = blocks
    cases blocks with
    | some result => rfl
    | none =>
      dsimp only [Option.map]
      split
      · rfl
      · rw [separated, gap]
        cases separator c with
        | error e => rfl
        | ok x =>
          change _ = p.outcome indent (.child owner pending) x.val.next
          rw [outcome]
          dsimp only
          cases p.children indent owner pending x.val.next <;> rfl

theorem outcome_after (node : CommandTree) (pending : Pending) (c : Cursor) :
    p.outcome indent (.after node pending) c =
      if c.atLineEnd && node.executable then .ok (pending.finish c, c)
      else
        match node.redirect? with
        | none => p.outcome indent (.follow node pending) c
        | some path =>
          match p.tree.at? path with
          | none => .error ⟨.unresolvedRedirect path, c.spanHere⟩
          | some target =>
            if target.subcommand then
              if c.atLineEnd then .error ⟨.incompleteCommand, c.spanHere⟩
              else (p.separated indent
                (fun d => .child target { scope := path, start := d.location }) c).map (around pending)
            else p.outcome indent (.follow target pending) c := by
  change (p.afterNode indent node pending c).map pair = _
  rw [afterNode]
  split
  · rfl
  · cases node.redirect? with
    | none => rfl
    | some path =>
      dsimp only
      cases p.tree.at? path with
      | none => rfl
      | some target =>
        dsimp only
        by_cases hsub : target.subcommand = true
        · rw [if_pos hsub, if_pos hsub]
          by_cases hend : c.atLineEnd = true
          · rw [if_pos hend, if_pos hend]
            rfl
          · rw [if_neg hend, if_neg hend, separated, gap]
            cases separator c with
            | error e => rfl
            | ok x =>
              change _ = (p.outcome indent (.child target { scope := path, start := x.val.next.location })
                x.val.next).map (around pending)
              rw [outcome]
              dsimp only
              cases p.children indent target { scope := path, start := x.val.next.location } x.val.next <;> rfl
        · rw [if_neg hsub, if_neg hsub]
          rfl

/-- An indented block as an argument. It does not matter which node reads it. -/
def blockArgument (c : Cursor) : Except SyntaxError (Node × Cursor) :=
  if !p.options.multiline then .error ⟨.blocksOff, c.spanHere⟩
  else if c.peek = some ':' then
    if !(c.drop 1).atLineEnd then .error ⟨.expected "end of line after \":\"", (c.drop 1).spanHere⟩
    else if (c.drop 1).blockIndentation ≤ indent.getD 0 then
      .error ⟨.expected "indented block", (c.drop 1).spanHere⟩
    else
      (p.blockOutcome (some (c.drop 1).blockIndentation) false (c.drop 1)).map fun (lines, d) =>
        (⟨.root lines, d.spanFrom c.location⟩, d)
  else .error ⟨.expectedText ":", c.spanHere⟩

theorem argumentOutcome_eq (node : CommandTree) (c : Cursor) :
    p.argumentOutcome indent node c =
      match p.registry (node.reader?.getD "") with
      | none => .error ⟨.unsupportedParser (node.reader?.getD ""), c.spanHere⟩
      | some (.leaf l) => (l.read node.properties c).map pair
      | some .block => p.blockArgument indent c := by
  rw [argumentOutcome, argument]
  cases p.registry (node.reader?.getD "") with
  | none => rfl
  | some reader =>
    cases reader with
    | leaf l =>
      dsimp only
      split
      · rename_i he
        rw [he]
        rfl
      · rename_i hx
        simp only [hx]
        rfl
    | block =>
      dsimp only
      rw [blockArgument]
      split
      · rfl
      · by_cases hc : c.peek = some ':'
        · rw [dif_pos hc]
          split
          · rfl
          · split
            · rfl
            · rw [blockOutcome]
              cases p.block (some (c.drop 1).blockIndentation) false (c.drop 1) <;> rfl
        · rw [dif_neg hc, if_neg hc]
          rfl

def commentLine (d : Cursor) : List Node :=
  if p.options.keepComments then
    [⟨.comment (String.ofList (d.skipSpaces.lineRest.drop 1)),
      d.skipSpaces.skipLine.spanFrom d.skipSpaces.location⟩]
  else []

theorem blockOutcome_eq (first : Bool) (c : Cursor) :
    p.blockOutcome indent first c =
      match c.nextLine? first with
      | none => .ok ([], c)
      | some d =>
        if d.atEnd then .ok ([], d)
        else if d.atComment then
          (p.blockOutcome indent false d.skipSpaces.skipLine).map fun (lines, e) => (p.commentLine d ++ lines, e)
        else
          match p.indentationOrder indent d.indentation with
          | .lt => .ok ([], c)
          | .gt => .error ⟨.unexpectedIndentation, d.skipSpaces.spanHere⟩
          | .eq =>
            match p.outcome indent (.child p.tree { start := d.skipSpaces.location }) d.skipSpaces with
            | .error e => .error e
            | .ok (n, e) => (p.blockOutcome indent false e).map fun (lines, e) => (n :: lines, e) := by
  change (p.block indent first c).map pair = _
  rw [block]
  split
  · rename_i hd
    rw [hd]
    rfl
  · rename_i d hd
    simp only [hd]
    split
    · rfl
    · split
      · rw [blockOutcome]
        cases p.block indent false d.skipSpaces.skipLine <;> rfl
      · cases p.indentationOrder indent d.indentation with
        | lt | gt => rfl
        | eq =>
          rw [outcome]
          cases p.children indent p.tree { start := d.skipSpaces.location } d.skipSpaces with
          | error e => rfl
          | ok x =>
            change _ = (p.blockOutcome indent false x.next).map _
            rw [blockOutcome]
            dsimp only
            cases p.block indent false x.next <;> rfl

/-! ### How far a stage reads -/

variable {p indent}

variable {c d : Cursor}

theorem gap_ok (h : gap c = .ok d) : c.peek = some ' ' ∧ d = c.drop 1 := by
  rw [gap, separator] at h
  split at h
  · rename_i hc
    dsimp only at h
    split at h
    · cases h
    · cases h
      exact ⟨hc, rfl⟩
  · cases h

theorem gap_remaining (h : gap c = .ok d) : d.remaining < c.remaining := by
  obtain ⟨hc, rfl⟩ := gap_ok h
  exact c.drop_one_remaining hc

theorem argumentOutcome_remaining {node n : _}
    (h : p.argumentOutcome indent node c = .ok (n, d)) : d.remaining < c.remaining := by
  obtain ⟨x, -, heq⟩ := map_ok h
  cases heq
  exact x.property

theorem argumentOutcome_reaches {node n : _} (h : p.argumentOutcome indent node c = .ok (n, d)) : c.Reaches d := by
  obtain ⟨x, -, heq⟩ := map_ok h
  cases heq
  exact x.val.ahead

theorem outcome_reaches {stage : Stage} {n : Node} (h : p.outcome indent stage c = .ok (n, d)) : c.Reaches d := by
  have map_reaches : ∀ {r : Except SyntaxError (Step c Node)}, r.map pair = .ok (n, d) → c.Reaches d := by
    intro r hr
    obtain ⟨x, -, heq⟩ := map_ok hr
    cases heq
    exact x.ahead
  cases stage with
  | child owner pending | follow owner pending | after node pending => exact map_reaches h

/-- Whatever holds after a node if it holds of what follows, before the children of a node if it holds after
them, and of what follows if it holds strictly further into the text, holds of every stage. -/
theorem Stage.induction {P : Stage → Cursor → Prop} (child : ∀ owner pending c,
      (∀ node pending' d, d.remaining ≤ c.remaining → P (.after node pending') d) → P (.child owner pending) c)
    (follow : ∀ owner pending c, (∀ stage d, d.remaining < c.remaining → P stage d) → P (.follow owner pending) c)
    (after : ∀ node pending c, (∀ owner, P (.follow owner pending) c) →
      (∀ stage d, d.remaining < c.remaining → P stage d) → P (.after node pending) c)
    (stage : Stage) (c : Cursor) : P stage c := by
  induction c using induct generalizing stage with
  | hstep c ih =>
    have ahead : ∀ (d : Cursor), d.remaining ≤ c.remaining →
        ∀ stage e, e.remaining < d.remaining → P stage e := by
      intro d hd stage e he
      exact ih e (Nat.lt_of_lt_of_le he hd) stage
    have hfollow : ∀ owner pending d, d.remaining ≤ c.remaining → P (.follow owner pending) d := by
      intro owner pending d hd
      exact follow owner pending d (ahead d hd)
    have hafter : ∀ node pending d, d.remaining ≤ c.remaining → P (.after node pending) d := by
      intro node pending d hd
      exact after node pending d (fun owner => hfollow owner pending d hd) (ahead d hd)
    cases stage with
    | child owner pending => exact child owner pending c hafter
    | follow owner pending => exact hfollow owner pending c (Nat.le_refl _)
    | after node pending => exact hafter node pending c (Nat.le_refl _)

theorem block_induction {P : Bool → Cursor → Prop}
    (step : ∀ first c, (∀ d e, c.nextLine? first = some d → e.remaining ≤ d.remaining → P false e) → P first c)
    (first : Bool) (c : Cursor) : P first c := by
  have later : ∀ c, P false c := by
    intro c
    induction c using induct with
    | hstep c ih =>
      refine step false c fun d e hd he => ih e ?_
      exact Nat.lt_of_le_of_lt he (nextLine?_remaining hd)
  cases first with
  | false => exact later c
  | true => exact step true c fun _ e _ _ => later e

/-- The lines that a block holds, read one after the other. -/
inductive BlockRead (p : Parser) (indent : Option Nat) : Bool → Cursor → List Node → Cursor → Prop where
  | unended {first c} (hline : c.nextLine? first = none) : BlockRead p indent first c [] c
  | ended {first c d} (hline : c.nextLine? first = some d) (hend : d.atEnd = true) : BlockRead p indent first c [] d
  | comment {first c d lines e} (hline : c.nextLine? first = some d) (hcomment : d.atComment = true)
      (rest : BlockRead p indent false d.skipSpaces.skipLine lines e) :
      BlockRead p indent first c (p.commentLine d ++ lines) e
  | left {first c d} (hline : c.nextLine? first = some d) (hend : d.atEnd = false) (hcomment : d.atComment = false)
      (horder : p.indentationOrder indent d.indentation = .lt) : BlockRead p indent first c [] c
  | command {first c d n e lines f} (hline : c.nextLine? first = some d) (hend : d.atEnd = false)
      (hcomment : d.atComment = false) (horder : p.indentationOrder indent d.indentation = .eq)
      (hn : p.outcome indent (.child p.tree { start := d.skipSpaces.location }) d.skipSpaces = .ok (n, e))
      (rest : BlockRead p indent false e lines f) : BlockRead p indent first c (n :: lines) f

theorem blockRead_of_ok {first : Bool} {lines : List Node}
    (h : p.blockOutcome indent first c = .ok (lines, d)) : BlockRead p indent first c lines d := by
  induction first, c using block_induction generalizing lines with
  | step first c ih =>
    rw [blockOutcome_eq] at h
    cases hline : c.nextLine? first with
    | none =>
      rw [hline] at h
      cases h
      exact .unended hline
    | some line =>
      have hspaces := line.skipSpaces_remaining_le
      simp only [hline] at h
      split at h
      · rename_i hend
        cases h
        exact .ended hline hend
      · rename_i hend
        split at h
        · rename_i hcomment
          obtain ⟨x, hrest, heq⟩ := map_ok h
          cases heq
          exact .comment hline hcomment
            (ih line _ hline (Nat.le_trans (skipLine_reaches _).remaining_le hspaces) hrest)
        · rename_i hcomment
          rw [Bool.not_eq_true] at hend hcomment
          split at h
          · rename_i horder
            cases h
            exact .left hline hend hcomment horder
          · cases h
          · rename_i horder
            split at h
            · cases h
            · rename_i e hn
              obtain ⟨x, hrest, heq⟩ := map_ok h
              cases heq
              exact .command hline hend hcomment horder hn
                (ih line e hline (Nat.le_trans (outcome_reaches hn).remaining_le hspaces) hrest)

theorem blockArgument_ok {value : Node} (h : p.blockArgument indent c = .ok (value, d)) :
    p.options.multiline = true ∧ c.peek = some ':' ∧ (c.drop 1).atLineEnd = true ∧
      indent.getD 0 < (c.drop 1).blockIndentation ∧
      ∃ lines, p.blockOutcome (some (c.drop 1).blockIndentation) false (c.drop 1) = .ok (lines, d) ∧
        value = ⟨.root lines, d.spanFrom c.location⟩ := by
  rw [blockArgument] at h
  split at h
  · cases h
  · rename_i hmultiline
    split at h
    · rename_i hcolon
      split at h
      · cases h
      · rename_i hend
        split at h
        · cases h
        · rename_i hdeeper
          obtain ⟨⟨lines, e⟩, hlines, heq⟩ := map_ok h
          cases heq
          exact ⟨by simpa using hmultiline, hcolon, by simpa using hend, Nat.lt_of_not_le hdeeper, lines, hlines, rfl⟩
    · cases h

theorem parse_eq (p : Parser) (source : String) :
    p.parse source = (p.blockOutcome none true (.start source)).map fun (lines, d) =>
      ⟨.root lines, d.spanFrom .origin⟩ := by
  rw [parse, blockOutcome]
  cases p.block none true (.start source) <;> rfl

end Parser

end Mcfunction
