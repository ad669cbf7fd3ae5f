import Mcfunction.Proofs.Stage

/-! Two readings in step. One grammar is read twice, with other options or in another text. A likeness says which cursors,
errors, nodes and commands of the two readings go together, and that every small move keeps them together. Main
statements: if arguments are read alike, so are commands, and blocks of them; and arguments are, if single ones are. -/

namespace Mcfunction

open Cursor Option List

theorem Cursor.skipBlankLines_eq (c : Cursor) : c.skipBlankLines =
    if c.skipSpaces.atEnd then c.skipSpaces
    else match c.skipSpaces.skipNewline? with
      | some d => d.skipBlankLines
      | none => c := by
  rw [skipBlankLines]
  split
  · rfl
  · split
    · rename_i hd
      rw [hd]
    · rename_i hd
      rw [hd]

theorem Cursor.skipComments_eq (c : Cursor) : c.skipComments =
    if c.atComment then (c.skipLine.skipNewline?.getD c.skipLine).skipBlankLines.skipComments else c := by
  rw [skipComments]
  split <;> rfl

/-! ### Outcomes that meet -/

section Meet

variable {α β : Type} {E : SyntaxError → SyntaxError → Prop} {C : Cursor → Cursor → Prop} {V W : α → α → Prop}
  {x y : Except SyntaxError (α × Cursor)}

/-- Two outcomes meet: related errors, or related values and related cursors behind them. -/
def Meet (E : SyntaxError → SyntaxError → Prop) (C : Cursor → Cursor → Prop) (V : α → α → Prop) :
    Except SyntaxError (α × Cursor) → Except SyntaxError (α × Cursor) → Prop
  | .error e, .error g => E e g
  | .ok (a, c), .ok (b, d) => V a b ∧ C c d
  | _, _ => False

theorem Meet.mono (h : Meet E C V x y) (hVW : ∀ a b, V a b → W a b) : Meet E C W x y := by
  rcases x with e | ⟨a, c⟩ <;> rcases y with g | ⟨b, d⟩
  · exact h
  · exact h.elim
  · exact h.elim
  · exact ⟨hVW a b h.1, h.2⟩

theorem Meet.map {W : β → β → Prop} (h : Meet E C V x y) {f g : α → β} (hfg : ∀ a b, V a b → W (f a) (g b)) :
    Meet E C W (x.map fun a => (f a.1, a.2)) (y.map fun b => (g b.1, b.2)) := by
  rcases x with e | ⟨a, c⟩ <;> rcases y with e' | ⟨b, d⟩
  · exact h
  · exact h.elim
  · exact h.elim
  · exact ⟨hfg a b h.1, h.2⟩

/-- The first success of two lists of attempts that meet one by one, or what the failures combine to. -/
theorem Parser.firstOk_meet {combine : SyntaxError → SyntaxError → SyntaxError}
    (hcombine : ∀ {e g e' g'}, E e g → E e' g' → E (combine e e') (combine g g'))
    {f g : β → Except SyntaxError (α × Cursor)} (l : List β) (hfg : ∀ b ∈ l, Meet E C V (f b) (g b)) :
    Rel (Meet E C V) (firstOk combine f l) (firstOk combine g l) := by
  induction l with
  | nil => exact .none
  | cons b rest ih =>
    have hhead := hfg b mem_cons_self
    have htail := ih fun x hx => hfg x (mem_cons_of_mem b hx)
    rw [firstOk, firstOk]
    cases hx : f b <;> cases hy : g b <;> rw [hx, hy] at hhead
    · generalize firstOk combine f rest = x at htail
      generalize firstOk combine g rest = y at htail
      cases htail with
      | none => exact .some hhead
      | @some x y hxy =>
        cases x <;> cases y
        · exact .some (hcombine hhead hxy)
        · exact hxy.elim
        · exact hxy.elim
        · exact .some hxy
    · exact hhead.elim
    · exact hhead.elim
    · exact .some hhead

end Meet

/-! ### Likenesses -/

/-- What goes together in two readings. Commands of which a part has been read, and whole ones, are told apart by what is
known of the scopes in front of them; `inner` is for those that begin with a given scope on both sides. -/
structure Likeness (ι : Type) where
  Cursors : Cursor → Cursor → Prop
  Errors : SyntaxError → SyntaxError → Prop
  Nodes : Node → Node → Prop
  Pendings : ι → Pending → Pending → Prop
  Commands : ι → Node → Node → Prop
  inner : Path → ι
  word_eq : ∀ {c d}, Cursors c d → d.word = c.word
  behindWord : ∀ {c d}, Cursors c d → Cursors (c.drop c.wordLength) (d.drop d.wordLength)
  atLineEnd_eq : ∀ {c d}, Cursors c d → d.atLineEnd = c.atLineEnd
  peek_iff : ∀ {c d}, Cursors c d → ∀ {ch : Char}, ch ≠ '\n' ∧ ch ≠ '\r' → (d.peek = some ch ↔ c.peek = some ch)
  overChar : ∀ {c d}, Cursors c d → ∀ {ch : Char}, ch ≠ '\n' → c.peek = some ch → Cursors (c.drop 1) (d.drop 1)
  refused : ∀ {c d}, Cursors c d → ∀ complaint, Errors ⟨complaint, c.spanHere⟩ ⟨complaint, d.spanHere⟩
  unexpected : ∀ {c d i a b}, Cursors c d → Pendings i a b → ∀ owner,
    Errors (Parser.unexpectedHere owner a c) (Parser.unexpectedHere owner b d)
  furthest : ∀ {e g e' g'}, Errors e g → Errors e' g' → Errors (e.furthest e') (g.furthest g')
  literal : ∀ {i a b}, Pendings i a b → ∀ word, Pendings i (a.literal word) (b.literal word)
  argument : ∀ {i a b n k}, Pendings i a b → Nodes n k → ∀ name, Pendings i (a.argument name n) (b.argument name k)
  finish : ∀ {i a b c d}, Pendings i a b → Cursors c d → Commands i (a.finish c) (b.finish d)
  start : ∀ {c d}, Cursors c d → ∀ scope,
    Pendings (inner scope) { scope, start := c.location } { scope, start := d.location }
  nodes : ∀ {scope n k}, Commands (inner scope) n k → Nodes n k

namespace Parser

def under (p : Parser) (o : ParseOptions) : Parser := { p with options := o }

@[simp] theorem tree_under (p : Parser) (o : ParseOptions) : (p.under o).tree = p.tree := rfl

@[simp] theorem registry_under (p : Parser) (o : ParseOptions) : (p.under o).registry = p.registry := rfl

@[simp] theorem options_under (p : Parser) (o : ParseOptions) : (p.under o).options = o := rfl

theorem gap_eq (c : Cursor) : gap c =
    if c.peek = some ' ' then
      if (c.drop 1).peek = some ' ' ∨ (c.drop 1).peek = some '\t' then
        .error ⟨.unexpectedWhitespace, (c.drop 1).spanHere⟩
      else .ok (c.drop 1)
    else .error ⟨.expected "whitespace", c.spanHere⟩ := by
  rw [gap, separator]
  by_cases hc : c.peek = some ' '
  · rw [dif_pos hc]
    dsimp only
    split <;> rfl
  · rw [dif_neg hc, if_neg hc]
    rfl

end Parser

variable {Lines : List Node → List Node → Prop} {V : Node → Node → Prop} {o : ParseOptions} {p : Parser}

namespace Likeness

open Mcfunction.Parser

variable {ι : Type} (L : Likeness ι) {i : ι} {indent : Option Nat} {c d : Cursor} {a b : Pending}

protected abbrev Meet {α : Type} (V : α → α → Prop) :
    Except SyntaxError (α × Cursor) → Except SyntaxError (α × Cursor) → Prop := Mcfunction.Meet L.Errors L.Cursors V

/-- Stages at the same node of the tree. -/
inductive Stages (i : ι) : Stage → Stage → Prop where
  | child (owner : CommandTree) {a b : Pending} (h : L.Pendings i a b) : Stages i (.child owner a) (.child owner b)
  | follow (owner : CommandTree) {a b : Pending} (h : L.Pendings i a b) : Stages i (.follow owner a) (.follow owner b)
  | after (node : CommandTree) {a b : Pending} (h : L.Pendings i a b) : Stages i (.after node a) (.after node b)

def Arguments (p : Parser) (o : ParseOptions) (c d : Cursor) : Prop :=
  ∀ indent node, L.Meet L.Nodes (p.argumentOutcome indent node c) ((p.under o).argumentOutcome indent node d)

def ArgumentsFrom (p : Parser) (o : ParseOptions) (c : Cursor) : Prop :=
  ∀ e g, e.remaining ≤ c.remaining → L.Cursors e g → L.Arguments p o e g

variable {L}

theorem ArgumentsFrom.later (h : L.ArgumentsFrom p o c) {e : Cursor} (he : e.remaining ≤ c.remaining) :
    L.ArgumentsFrom p o e := fun g k hg => h g k (Nat.le_trans hg he)

theorem meet_refused {α : Type} {V : α → α → Prop} (h : L.Cursors c d) (complaint : Complaint) :
    L.Meet V (.error ⟨complaint, c.spanHere⟩) (.error ⟨complaint, d.spanHere⟩) := L.refused h complaint

/-! ### Commands -/

theorem separated_meet (h : L.Cursors c d) {stage stage' : Cursor → Stage}
    (hstage : ∀ e g, e.remaining < c.remaining → L.Cursors e g →
      L.Meet V (p.outcome indent (stage e) e) ((p.under o).outcome indent (stage' g) g)) :
    L.Meet V (p.separated indent stage c) ((p.under o).separated indent stage' d) := by
  rw [separated, separated, gap_eq, gap_eq]
  by_cases hc : c.peek = some ' '
  · have hdrop := L.overChar h (by decide) hc
    rw [if_pos hc, if_pos ((L.peek_iff h (by decide)).2 hc)]
    have hblank : ((d.drop 1).peek = some ' ' ∨ (d.drop 1).peek = some '\t') ↔
        ((c.drop 1).peek = some ' ' ∨ (c.drop 1).peek = some '\t') :=
      or_congr (L.peek_iff hdrop (by decide)) (L.peek_iff hdrop (by decide))
    by_cases hspace : (c.drop 1).peek = some ' ' ∨ (c.drop 1).peek = some '\t'
    · rw [if_pos hspace, if_pos (hblank.2 hspace)]
      exact meet_refused hdrop _
    · rw [if_neg hspace, if_neg fun hd => hspace (hblank.1 hd)]
      exact hstage _ _ (c.drop_one_remaining hc) hdrop
  · rw [if_neg hc, if_neg fun hd => hc ((L.peek_iff h (by decide)).1 hd)]
    exact meet_refused h _

theorem attempt_meet (hargs : L.Arguments p o c d) (hp : L.Pendings i a b) (entry : String × CommandTree)
    (hafter : ∀ {a' b' e g}, L.Pendings i a' b' → e.remaining < c.remaining → L.Cursors e g →
      L.Meet V (p.outcome indent (.after entry.2 a') e) ((p.under o).outcome indent (.after entry.2 b') g)) :
    L.Meet V (p.attempt indent a c entry) ((p.under o).attempt indent b d entry) := by
  have hmeet := hargs indent entry.2
  rw [attempt, attempt]
  cases hx : p.argumentOutcome indent entry.2 c <;> cases hy : (p.under o).argumentOutcome indent entry.2 d <;>
    rw [hx, hy] at hmeet
  · exact hmeet
  · exact hmeet.elim
  · exact hmeet.elim
  · exact hafter (L.argument hp hmeet.1 entry.1) (argumentOutcome_remaining hx) hmeet.2

theorem around_meet {scope : Path} {x y : Except SyntaxError (Node × Cursor)} (hp : L.Pendings i a b)
    (hxy : L.Meet (L.Commands (L.inner scope)) x y) :
    L.Meet (L.Commands i) (x.map (around a)) (y.map (around b)) := by
  rcases x with e | ⟨n, c⟩ <;> rcases y with g | ⟨k, d⟩
  · exact hxy
  · exact hxy.elim
  · exact hxy.elim
  · exact ⟨L.finish (L.argument hp (L.nodes hxy.1) _) hxy.2, hxy.2⟩

theorem outcome_meet {stage stage' : Stage} (hstages : L.Stages i stage stage') (h : L.Cursors c d)
    (hargs : L.ArgumentsFrom p o c) :
    L.Meet (L.Commands i) (p.outcome indent stage c) ((p.under o).outcome indent stage' d) := by
  refine Stage.induction (P := fun stage c => ∀ i stage' d, L.Stages i stage stage' → L.Cursors c d →
    L.ArgumentsFrom p o c → L.Meet (L.Commands i) (p.outcome indent stage c) ((p.under o).outcome indent stage' d))
    ?_ ?_ ?_ stage c i stage' d hstages h hargs
  · rintro owner a c ih i _ d (@⟨_, _, b, hp⟩ | _ | _) h hargs
    rw [outcome_child, outcome_child, literal?, literal?, L.word_eq h]
    split
    · rename_i child _
      exact ih child _ _ (c.reaches_drop _).remaining_le i _ _ (.after child (L.literal hp c.word)) (L.behindWord h)
        (hargs.later (c.reaches_drop _).remaining_le)
    · have hfirst := firstOk_meet L.furthest (owner.children.filter isArgument)
        fun entry _ => attempt_meet (hargs c d (Nat.le_refl _) h) hp entry fun hp' he hmoved =>
          ih entry.2 _ _ (Nat.le_of_lt he) i _ _ (.after entry.2 hp') hmoved (hargs.later (Nat.le_of_lt he))
      generalize firstOk SyntaxError.furthest (p.attempt indent a c) _ = x at hfirst
      generalize firstOk SyntaxError.furthest ((p.under o).attempt indent b d) _ = y at hfirst
      cases hfirst with
      | none => exact L.unexpected h hp owner
      | some hmeet => exact hmeet
  · rintro owner a c ih i _ d (_ | @⟨_, _, b, hp⟩ | _) h hargs
    rw [outcome_follow, outcome_follow, L.atLineEnd_eq h]
    have hblocks : Rel (L.Meet (L.Commands i)) (p.blockOutcomes indent owner a c)
        ((p.under o).blockOutcomes indent owner b d) := by
      rw [blockOutcomes, blockOutcomes]
      by_cases hcolon : c.peek = some ':'
      · rw [if_pos hcolon, if_pos ((L.peek_iff h (by decide)).2 hcolon)]
        refine firstOk_meet (fun _ h' => h') _ fun entry _ => ?_
        refine attempt_meet (hargs c d (Nat.le_refl _) h) hp entry fun hp' he hmoved => ?_
        exact ih _ _ he i _ _ (.after entry.2 hp') hmoved (hargs.later (Nat.le_of_lt he))
      · rw [if_neg hcolon, if_neg fun hd => hcolon ((L.peek_iff h (by decide)).1 hd)]
        exact .none
    split
    · exact meet_refused h _
    · generalize p.blockOutcomes indent owner a c = x at hblocks
      generalize (p.under o).blockOutcomes indent owner b d = y at hblocks
      cases hblocks with
      | some hmeet => exact hmeet
      | none =>
        dsimp only
        split
        · exact meet_refused h _
        · refine separated_meet h fun e g he hmoved => ?_
          exact ih _ _ he i _ _ (.child owner hp) hmoved (hargs.later (Nat.le_of_lt he))
  · rintro node a c ihfollow ih i _ d (_ | _ | @⟨_, _, b, hp⟩) h hargs
    rw [outcome_after, outcome_after, L.atLineEnd_eq h, tree_under]
    split
    · exact ⟨L.finish hp h, h⟩
    · split
      · exact ihfollow node i _ d (.follow node hp) h hargs
      · rename_i path _
        split
        · exact meet_refused h _
        · rename_i target _
          split
          · split
            · exact meet_refused h _
            · refine around_meet hp (separated_meet (V := L.Commands (L.inner path)) h fun e g he hmoved => ?_)
              exact ih _ _ he _ _ _ (.child target (L.start hmoved path)) hmoved (hargs.later (Nat.le_of_lt he))
          · exact ihfollow target i _ d (.follow target hp) h hargs

theorem command_meet (indent : Option Nat) (h : L.Cursors c d) (hargs : L.ArgumentsFrom p o c) :
    L.Meet (L.Commands (L.inner [])) (p.outcome indent (.child p.tree { start := c.location }) c)
      ((p.under o).outcome indent (.child p.tree { start := d.location }) d) :=
  outcome_meet (.child p.tree (L.start h [])) h hargs

/-! ### Lines -/

/-- Two readings go together from line to line, with a relation between the lines of their blocks. -/
structure Linewise (L : Likeness ι) (p : Parser) (o : ParseOptions) (Lines : List Node → List Node → Prop) : Prop where
  multiline_eq : o.multiline = p.options.multiline
  newline : ∀ {c d}, L.Cursors c d → Rel L.Cursors c.skipNewline? d.skipNewline?
  atEnd_eq : ∀ {c d}, L.Cursors c d → d.atEnd = c.atEnd
  atComment_eq : ∀ {c d}, L.Cursors c d → d.atComment = c.atComment
  indentation_eq : ∀ {c d}, L.Cursors c d → d.indentation = c.indentation
  spaces : ∀ {c d}, L.Cursors c d → L.Cursors c.skipSpaces d.skipSpaces
  line : ∀ {c d}, L.Cursors c d → L.Cursors c.skipLine d.skipLine
  nil : Lines [] []
  cons : ∀ {n k ns ks}, L.Commands (L.inner []) n k → Lines ns ks → Lines (n :: ns) (k :: ks)
  comment : ∀ {c d ns ks}, L.Cursors c d → Lines ns ks → Lines (p.commentLine c ++ ns) ((p.under o).commentLine d ++ ks)
  root : ∀ {c d e g ns ks}, L.Cursors c d → L.Cursors e g → Lines ns ks →
    L.Nodes ⟨.root ns, e.spanFrom c.location⟩ ⟨.root ks, g.spanFrom d.location⟩

namespace Linewise

variable (hl : L.Linewise p o Lines)

include hl

theorem skipBlankLines (h : L.Cursors c d) : L.Cursors c.skipBlankLines d.skipBlankLines := by
  have hspaces : ∀ {c d}, L.Cursors c d → d.skipSpaces.atEnd = c.skipSpaces.atEnd := fun h => hl.atEnd_eq (hl.spaces h)
  fun_induction Cursor.skipBlankLines c generalizing d with
  | case1 c hend =>
    rw [skipBlankLines_eq d, hspaces h, if_pos hend]
    exact hl.spaces h
  | case2 c hend e he ih =>
    have hnewline := hl.newline (hl.spaces h)
    rw [he] at hnewline
    rw [skipBlankLines_eq d, hspaces h, if_neg hend]
    cases hd : d.skipSpaces.skipNewline? with
    | none =>
      rw [hd] at hnewline
      cases hnewline
    | some g =>
      rw [hd] at hnewline
      cases hnewline with
      | some hmoved => exact ih hmoved
  | case3 c hend he =>
    have hnewline := hl.newline (hl.spaces h)
    rw [he] at hnewline
    rw [skipBlankLines_eq d, hspaces h, if_neg hend]
    cases hd : d.skipSpaces.skipNewline? with
    | none => exact h
    | some g =>
      rw [hd] at hnewline
      cases hnewline

theorem overNewline (h : L.Cursors c d) : L.Cursors (c.skipNewline?.getD c) (d.skipNewline?.getD d) := by
  have hnewline := hl.newline h
  generalize c.skipNewline? = x at hnewline
  generalize d.skipNewline? = y at hnewline
  cases hnewline with
  | none => exact h
  | some hmoved => exact hmoved

theorem skipComments (h : L.Cursors c d) : L.Cursors c.skipComments d.skipComments := by
  fun_induction Cursor.skipComments c generalizing d with
  | case1 c hcomment e =>
    rename_i ih
    rw [skipComments_eq d, hl.atComment_eq h, if_pos hcomment]
    exact ih (hl.skipBlankLines (hl.overNewline (hl.line h)))
  | case2 c hcomment =>
    rw [skipComments_eq d, hl.atComment_eq h, if_neg hcomment]
    exact h

theorem blockIndentation_eq (h : L.Cursors c d) : d.blockIndentation = c.blockIndentation := by
  have hline := hl.skipComments (hl.skipBlankLines (hl.overNewline h))
  rw [blockIndentation, blockIndentation, hl.atEnd_eq hline, hl.indentation_eq hline]

theorem nextLine? (h : L.Cursors c d) (first : Bool) : Rel L.Cursors (c.nextLine? first) (d.nextLine? first) := by
  rw [Cursor.nextLine?, Cursor.nextLine?]
  cases first with
  | true => exact .some (hl.skipBlankLines h)
  | false =>
    have hnewline := hl.newline h
    generalize c.skipNewline? = x at hnewline
    generalize d.skipNewline? = y at hnewline
    cases hnewline with
    | none => exact .none
    | some hmoved => exact .some (hl.skipBlankLines hmoved)

theorem indentationOrder_eq (indent : Option Nat) (width : Nat) :
    (p.under o).indentationOrder indent width = p.indentationOrder indent width := by
  cases indent with
  | none => rw [indentationOrder, indentationOrder, options_under, hl.multiline_eq]
  | some n => rfl

theorem blockOutcome_meet (indent : Option Nat) (first : Bool) (h : L.Cursors c d) (hargs : L.ArgumentsFrom p o c) :
    L.Meet Lines (p.blockOutcome indent first c) ((p.under o).blockOutcome indent first d) := by
  refine block_induction (P := fun first c => ∀ d, L.Cursors c d → L.ArgumentsFrom p o c →
    L.Meet Lines (p.blockOutcome indent first c) ((p.under o).blockOutcome indent first d)) ?_ first c d h hargs
  intro first c ih d h hargs
  have hline := hl.nextLine? h first
  rw [blockOutcome_eq, blockOutcome_eq]
  generalize hx : c.nextLine? first = x at hline
  generalize d.nextLine? first = y at hline
  cases hline with
  | none => exact ⟨hl.nil, h⟩
  | @some e g hmoved =>
    have hce := (nextLine?_reaches hx).remaining_le
    have hspaces := hl.spaces hmoved
    dsimp only
    rw [hl.atEnd_eq hmoved, hl.atComment_eq hmoved, hl.indentation_eq hmoved, hl.indentationOrder_eq, tree_under]
    split
    · exact ⟨hl.nil, hmoved⟩
    · split
      · have hle := (e.skipSpaces_reaches.trans e.skipSpaces.skipLine_reaches).remaining_le
        have hrest := ih e _ hx hle _ (hl.line hspaces) (hargs.later (Nat.le_trans hle hce))
        exact hrest.map
          fun _ _ hlines => hl.comment hmoved hlines
      · split
        · exact ⟨hl.nil, h⟩
        · exact meet_refused hspaces _
        · have hle := e.skipSpaces_remaining_le
          have hcmd := command_meet indent hspaces (hargs.later (Nat.le_trans hle hce))
          cases hn : p.outcome indent (.child p.tree { start := e.skipSpaces.location }) e.skipSpaces <;>
            cases hk : (p.under o).outcome indent (.child p.tree { start := g.skipSpaces.location }) g.skipSpaces <;>
            rw [hn, hk] at hcmd
          · exact hcmd
          · exact hcmd.elim
          · exact hcmd.elim
          · rename_i n k
            have hbehind : n.2.remaining ≤ e.remaining := Nat.le_trans (outcome_reaches hn).remaining_le hle
            have hrest := ih e _ hx hbehind _ hcmd.2 (hargs.later (Nat.le_trans hbehind hce))
            exact hrest.map
              fun _ _ hlines => hl.cons hcmd.1 hlines

theorem blockArgument_meet (h : L.Cursors c d) (hargs : ∀ e, e.remaining < c.remaining → L.ArgumentsFrom p o e) :
    L.Meet L.Nodes (p.blockArgument indent c) ((p.under o).blockArgument indent d) := by
  rw [blockArgument, blockArgument, options_under, hl.multiline_eq]
  split
  · exact meet_refused h _
  · by_cases hcolon : c.peek = some ':'
    · have hdrop := L.overChar h (by decide) hcolon
      rw [if_pos hcolon, if_pos ((L.peek_iff h (by decide)).2 hcolon), L.atLineEnd_eq hdrop, hl.blockIndentation_eq hdrop]
      split
      · exact meet_refused hdrop _
      · split
        · exact meet_refused hdrop _
        · have hlines := hl.blockOutcome_meet (some (c.drop 1).blockIndentation) false hdrop
            (hargs _ (c.drop_one_remaining hcolon))
          generalize p.blockOutcome _ false (c.drop 1) = x at hlines
          generalize (p.under o).blockOutcome _ false (d.drop 1) = y at hlines
          rcases x with e | ⟨ns, e⟩ <;> rcases y with g | ⟨ks, g⟩
          · exact hlines
          · exact hlines.elim
          · exact hlines.elim
          · exact ⟨hl.root h hlines.2 hlines.1, hlines.2⟩
    · rw [if_neg hcolon, if_neg fun hd => hcolon ((L.peek_iff h (by decide)).1 hd)]
      exact meet_refused h _

end Linewise

/-! ### Arguments -/

def Singles (L : Likeness ι) : Prop := ∀ (l : Leaf) (properties : Properties) {c d : Cursor}, L.Cursors c d →
  L.Meet L.Nodes ((l.read properties c).map Step.pair) ((l.read properties d).map Step.pair)

theorem arguments_of_blocks (hsingles : L.Singles)
    (hblocks : ∀ indent {c d : Cursor}, L.Cursors c d → (∀ e, e.remaining < c.remaining → L.ArgumentsFrom p o e) →
      L.Meet L.Nodes (p.blockArgument indent c) ((p.under o).blockArgument indent d)) (h : L.Cursors c d) :
    L.Arguments p o c d := by
  induction c using induct generalizing d with
  | hstep c ih =>
    intro indent node
    rw [argumentOutcome_eq, argumentOutcome_eq, registry_under]
    split
    · exact meet_refused h _
    · rename_i l _
      exact hsingles l node.properties h
    · exact hblocks indent h fun e he g k hg hmoved => ih g (Nat.lt_of_le_of_lt hg he) hmoved

theorem Linewise.arguments (hl : L.Linewise p o Lines) (hsingles : L.Singles) (c : Cursor) : L.ArgumentsFrom p o c :=
  fun _ _ _ h => arguments_of_blocks hsingles (fun _ _ _ h hargs => hl.blockArgument_meet h hargs) h

theorem Linewise.parse_alike (hl : L.Linewise p o Lines) (hsingles : L.Singles) {source source' : String}
    (h : L.Cursors (.start source) (.start source')) :
    (∃ e g, p.parse source = .error e ∧ (p.under o).parse source' = .error g ∧ L.Errors e g) ∨
      ∃ n k, p.parse source = .ok n ∧ (p.under o).parse source' = .ok k ∧ L.Nodes n k := by
  have hmeet := hl.blockOutcome_meet none true h (hl.arguments hsingles _)
  rw [parse_eq, parse_eq]
  generalize p.blockOutcome none true (.start source) = x at hmeet
  generalize (p.under o).blockOutcome none true (.start source') = y at hmeet
  rcases x with e | ⟨ns, e⟩ <;> rcases y with g | ⟨ks, g⟩
  · exact .inl ⟨e, g, rfl, rfl, hmeet⟩
  · exact hmeet.elim
  · exact hmeet.elim
  · exact .inr ⟨_, _, rfl, rfl, hl.root h hmeet.2 hmeet.1⟩

end Likeness

/-! ### One text -/

/-- Two readings that are always at the same place of one text. A function leads from the nodes of the first to those of
the second. -/
structure InPlace where
  At : Cursor → Prop
  Errors : SyntaxError → SyntaxError → Prop
  convert : Node → Node
  reaches : ∀ {c d}, At c → c.Reaches d → At d
  refl : ∀ e, Errors e e
  furthest : ∀ {e g e' g'}, Errors e g → Errors e' g' → Errors (e.furthest e') (g.furthest g')
  command : ∀ identifier arguments span,
    convert ⟨.command identifier arguments, span⟩ = ⟨.command identifier (arguments.map convert), span⟩

namespace InPlace

open Mcfunction.Parser

variable (s : InPlace)

def likeness : Likeness Unit where
  Cursors c d := d = c ∧ s.At c
  Errors := s.Errors
  Nodes n k := k = s.convert n
  Pendings _ a b := b = { a with arguments := a.arguments.map s.convert }
  Commands _ n k := k = s.convert n ∧ n.kind = .command
  inner _ := ()
  word_eq := by
    rintro _ c ⟨rfl, -⟩
    rfl
  behindWord := by
    rintro _ c ⟨rfl, hc⟩
    exact ⟨rfl, s.reaches hc (c.reaches_drop _)⟩
  atLineEnd_eq := by
    rintro _ c ⟨rfl, -⟩
    rfl
  peek_iff := by
    rintro _ c ⟨rfl, -⟩ ch -
    exact Iff.rfl
  overChar := by
    rintro _ c ⟨rfl, hc⟩ ch - -
    exact ⟨rfl, s.reaches hc (c.reaches_drop 1)⟩
  refused := by
    rintro _ c ⟨rfl, -⟩ complaint
    exact s.refl _
  unexpected := by
    rintro _ c _ a _ ⟨rfl, -⟩ rfl owner
    exact s.refl _
  furthest := s.furthest
  literal := by
    rintro _ a _ rfl word
    rfl
  argument := by
    rintro _ a _ n _ rfl rfl name
    simp only [Pending.argument, map_append]
    rfl
  finish := by
    rintro _ a _ _ c rfl ⟨rfl, -⟩
    exact ⟨(s.command _ _ _).symm, rfl⟩
  start := by
    rintro _ c ⟨rfl, -⟩ scope
    rfl
  nodes h := h.1

theorem singles (hleaf : ∀ (l : Leaf) properties c x, l.read properties c = .ok x → s.convert x.value = x.value) :
    s.likeness.Singles := by
  rintro l properties _ c ⟨rfl, hc⟩
  cases hx : l.read properties c with
  | error e => exact s.refl e
  | ok x => exact ⟨(hleaf l properties c x hx).symm, rfl, s.reaches hc x.ahead⟩

theorem linewise {convertLines : List Node → List Node} (hmultiline : o.multiline = p.options.multiline)
    (hnil : convertLines [] = [])
    (hcons : ∀ n ns, n.kind = .command → convertLines (n :: ns) = s.convert n :: convertLines ns)
    (hcomment : ∀ c ns, convertLines (p.commentLine c ++ ns) = (p.under o).commentLine c ++ convertLines ns)
    (hroot : ∀ ns span, s.convert ⟨.root ns, span⟩ = ⟨.root (convertLines ns), span⟩) :
    s.likeness.Linewise p o fun ns ks => ks = convertLines ns where
  multiline_eq := hmultiline
  newline := by
    rintro _ c ⟨rfl, hc⟩
    cases hd : c.skipNewline? with
    | none => exact .none
    | some d => exact .some ⟨rfl, s.reaches hc (skipNewline?_reaches hd)⟩
  atEnd_eq := by
    rintro _ c ⟨rfl, -⟩
    rfl
  atComment_eq := by
    rintro _ c ⟨rfl, -⟩
    rfl
  indentation_eq := by
    rintro _ c ⟨rfl, -⟩
    rfl
  spaces := by
    rintro _ c ⟨rfl, hc⟩
    exact ⟨rfl, s.reaches hc c.skipSpaces_reaches⟩
  line := by
    rintro _ c ⟨rfl, hc⟩
    exact ⟨rfl, s.reaches hc c.skipLine_reaches⟩
  nil := hnil.symm
  cons := by
    rintro n _ ns _ ⟨rfl, hn⟩ rfl
    exact (hcons n ns hn).symm
  comment := by
    rintro _ c ns _ ⟨rfl, -⟩ rfl
    exact (hcomment c ns).symm
  root := by
    rintro _ c _ e ns _ ⟨rfl, -⟩ ⟨rfl, -⟩ rfl
    exact (hroot _ _).symm

end InPlace

end Mcfunction
