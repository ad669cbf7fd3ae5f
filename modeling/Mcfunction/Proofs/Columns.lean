import Mcfunction.Proofs.Calls
import Mcfunction.Proofs.Spans

/-! Columns. A line begins behind a line feed, and its first word behind its indentation, so a block decides at which
column its commands begin. What the readers of parts, of commands and of blocks keep holds of the tree of every text.
Main statement: the commands of a block begin at one column, further right than those around it. -/

namespace Mcfunction

open List Cursor Text Node

variable {source : String}

namespace Cursor

variable {c d : Cursor}

theorem column_skipSpaces (h : (start source).Reaches c) (hline : LineStart source.toList c.rest) :
    c.skipSpaces.location.column = c.indentation + 1 := by
  obtain ⟨before, hbefore, -, -, hcolumn⟩ := (h.trans c.skipSpaces_reaches).standsIn
  have hrest := takeWhile_append_dropWhile (p := isSpace) (l := c.rest)
  have hspaces : ∀ ch ∈ (c.rest.takeWhile isSpace).reverse, decide (ch ≠ '\n') = true :=
    fun ch hch => decide_eq_true (mem_spaces (mem_reverse.1 hch)).1
  rw [hbefore, String.toList_append, String.toList_ofList, rest_skipSpaces] at hline
  rw [hcolumn, add_comm, indentation]
  refine congrArg (· + 1) ?_
  rcases hline with hline | ⟨front, hline⟩
  · rw [← append_cancel_right (hrest.trans hline), takeWhile_eq_self_iff.2 hspaces, length_reverse]
  · have heq : before.toList = front ++ '\n' :: c.rest.takeWhile isSpace := by
      refine append_cancel_right (hline.trans ?_)
      rw [append_assoc, cons_append, hrest]
    rw [heq, reverse_append, reverse_cons, append_assoc, takeWhile_append_of_pos hspaces]
    simp

end Cursor

namespace Parser

/-! ### What passes on from nodes to the nodes around them -/

def BeginsAt (column : Nat) (n : Node) : Prop := n.kind = .command → n.span.start.column = column

/-- What holds of nodes made of parts only, and passes on from arguments to commands and from the lines of blocks to the
blocks. It may depend on how deep the lines around a node are indented. -/
structure Passes (Good : Option Nat → Node → Prop) : Prop where
  part {indent : Option Nat} {n : Node} (h : ∀ m ∈ n.walk, m.kind.isPart = true) : Good indent n
  command {indent : Option Nat} {n : Node} (hkind : n.kind = .command) (h : ∀ a ∈ n.children, Good indent a) :
    Good indent n
  block {indent : Option Nat} {width : Nat} {n : Node} (hkind : n.kind = .root) (hdeeper : indent.getD 0 < width)
    (h : ∀ m ∈ n.children, BeginsAt (width + 1) m ∧ Good (some width) m) : Good indent n

variable {p : Parser} {indent : Option Nat} {c d : Cursor} {n tree : Node} {Good : Option Nat → Node → Prop}
  {width : Nat}

def ArgumentsGood (p : Parser) (Good : Option Nat → Node → Prop) (c : Cursor) : Prop :=
  ∀ indent node n d, p.argumentOutcome indent node c = .ok (n, d) → Good indent n

theorem Branch.passes {stage : Stage} {ks : List Nat} {r : Except SyntaxError (Node × Cursor)}
    (h : Branch p indent stage c ks r) (hgood : Passes Good) (hargs : ∀ d, c.Reaches d → ArgumentsGood p Good d)
    (hpending : ∀ a ∈ stage.pending.arguments, Good indent a) (hr : r = .ok (n, d)) :
    n.span.start = stage.pending.start ∧ Good indent n := by
  have hsnoc : ∀ {pending : Pending} {value : Node} (name : String),
      (∀ a ∈ pending.arguments, Good indent a) → Good indent value →
        ∀ a ∈ (pending.argument name value).arguments, Good indent a :=
    fun _ hall hvalue => forall_mem_append.2 ⟨hall, forall_mem_singleton.2 hvalue⟩
  induction h generalizing n d with
  | literal _ _ ih => exact ih (fun e he => hargs e ((reaches_drop _ _).trans he)) hpending hr
  | accepted _ _ _ hread _ ih | blockAccepted _ _ _ hread _ ih =>
    refine ih (fun e he => hargs e ((argumentOutcome_reaches hread).trans he)) (hsnoc _ hpending ?_) hr
    exact hargs _ (.refl _) _ _ _ _ hread
  | separated _ _ _ hgap _ ih => exact ih (fun e he => hargs e ((gap_onLine hgap).reaches.trans he)) hpending hr
  | complete =>
    cases hr
    exact ⟨rfl, hgood.command rfl hpending⟩
  | next _ _ _ ih | aliased _ _ _ _ _ ih => exact ih hargs hpending hr
  | subcommand _ _ _ _ _ hgap _ ih =>
    obtain ⟨⟨m, e⟩, hinner, heq⟩ := map_ok hr
    cases heq
    obtain ⟨-, hm⟩ := ih (fun g hg => hargs g ((gap_onLine hgap).reaches.trans hg)) (forall_mem_nil _) hinner
    exact ⟨rfl, hgood.command rfl (hsnoc _ hpending hm)⟩
  | refused | unknown | childless | blockRefused | ended | unseparated | unresolved | subcommandEnded
  | subcommandUnseparated => cases hr

theorem width_of_order (hmultiline : p.options.multiline = true)
    (h : p.indentationOrder indent width = .eq) : width = indent.getD 0 := by
  cases indent with
  | some depth => exact Nat.compare_eq_eq.1 h
  | none =>
    rw [indentationOrder, if_pos hmultiline] at h
    exact Nat.compare_eq_eq.1 h

/-- The commands of a block begin where it is indented, and its lines are good. -/
theorem BlockRead.passes {first : Bool} {lines : List Node} (h : BlockRead p indent first c lines d)
    (hgood : Passes Good) (hmultiline : p.options.multiline = true) (hc : (start source).Reaches c)
    (hfirst : first = true → LineStart source.toList c.rest) (hargs : ∀ d, c.Reaches d → ArgumentsGood p Good d) :
    ∀ m ∈ lines, BeginsAt (indent.getD 0 + 1) m ∧ Good indent m := by
  induction h with
  | unended | ended | left => exact forall_mem_nil _
  | @comment first c line rest e hline _ _ ih =>
    have hreach := (nextLine?_reaches hline).trans (line.skipSpaces_reaches.trans line.skipSpaces.skipLine_reaches)
    refine forall_mem_append.2 ⟨?_, ih (hc.trans hreach) Bool.noConfusion fun e he => hargs e (hreach.trans he)⟩
    rw [commentLine]
    split
    · refine forall_mem_singleton.2 ⟨fun hkind => ?_, hgood.part fun m hm => ?_⟩
      · cases hkind
      · cases mem_walk.1 hm with
        | self => rfl
        | child hchild => cases hchild
    · exact forall_mem_nil _
  | @command first c line n e rest f hline hend _ horder hn _ ih =>
    have hreach := (nextLine?_reaches hline).trans line.skipSpaces_reaches
    have hbehind := hreach.trans (outcome_reaches hn)
    obtain ⟨ks, hks⟩ := exists_branch p indent (.child p.tree { start := line.skipSpaces.location }) line.skipSpaces
    obtain ⟨hstart, hcommand⟩ := hks.passes hgood (fun e he => hargs e (hreach.trans he)) (forall_mem_nil _) hn
    refine forall_mem_cons.2 ⟨⟨fun _ => ?_, hcommand⟩,
      ih (hc.trans hbehind) Bool.noConfusion fun e he => hargs e (hbehind.trans he)⟩
    rw [hstart, ← width_of_order hmultiline horder]
    exact column_skipSpaces (hc.trans (nextLine?_reaches hline)) (lineStart_nextLine? hc.suffix hfirst hline hend)

theorem argumentsGood (hgood : Passes Good) (hc : (start source).Reaches c) : ArgumentsGood p Good c := by
  induction c using Cursor.induct with
  | hstep c ih =>
    intro indent node n d h
    rw [argumentOutcome_eq] at h
    split at h
    · cases h
    · obtain ⟨x, hx, heq⟩ := map_ok h
      cases heq
      exact hgood.part (Leaf.read_placed hx).plain.isPart
    · obtain ⟨hmultiline, hcolon, -, hdeeper, lines, hlines, rfl⟩ := blockArgument_ok h
      have hdrop := hc.trans (c.reaches_drop 1)
      refine hgood.block rfl hdeeper ((blockRead_of_ok hlines).passes hgood hmultiline hdrop Bool.noConfusion fun e he => ?_)
      exact ih e (lt_of_le_of_lt he.remaining_le (c.drop_one_remaining hcolon)) (hdrop.trans he)

/-- The commands that stand in no block begin at column 1, and all lines of a text are good. -/
theorem parse_passes (hgood : Passes Good) (hmultiline : p.options.multiline = true) (h : p.parse source = .ok tree) :
    ∀ m ∈ tree.children, BeginsAt 1 m ∧ Good none m := by
  rw [parse_eq] at h
  obtain ⟨⟨lines, d⟩, hlines, rfl⟩ := map_ok h
  exact (blockRead_of_ok hlines).passes hgood hmultiline (.refl _) (fun _ => .inl rfl) fun e he => argumentsGood hgood he

/-! ### Trees of indented blocks -/

/-- The commands of a block begin at a column, and those of the blocks within it further right. -/
def Laid (column : Nat) (b : Node) : Prop :=
  ∀ m ∈ b.children, BeginsAt column m ∧ ∀ inner, m.Within inner → inner.kind = .root →
    ∀ k ∈ inner.children, k.kind = .command → column < k.span.start.column

def Indented (width : Nat) (n : Node) : Prop :=
  ∀ b, n.Within b → b.kind = .root → ∃ depth, width < depth ∧ Laid (depth + 1) b

theorem laid_of_lines (h : ∀ m ∈ n.children, BeginsAt (width + 1) m ∧ Indented width m) : Laid (width + 1) n := by
  refine fun m hm => ⟨(h m hm).1, fun inner hinner hroot k hk hcommand => ?_⟩
  obtain ⟨depth, hdeeper, hlaid⟩ := (h m hm).2 inner hinner hroot
  rw [(hlaid k hk).1 hcommand]
  exact Nat.succ_lt_succ hdeeper

theorem passes_indented : Passes fun indent n => Indented (indent.getD 0) n where
  part h b hb hroot := by
    have hpart := h b (mem_walk.2 hb)
    rw [hroot] at hpart
    cases hpart
  command hkind h b hb hroot := by
    cases hb with
    | self => cases hkind.symm.trans hroot
    | child ha hb => exact h _ ha b hb hroot
  block _ hdeeper h b hb hroot := by
    cases hb with
    | self => exact ⟨_, hdeeper, laid_of_lines h⟩
    | child hm hb =>
      obtain ⟨depth, hlt, hlaid⟩ := (h _ hm).2 b hb hroot
      exact ⟨depth, hdeeper.trans hlt, hlaid⟩

theorem parse_laid (hmultiline : p.options.multiline = true) (h : p.parse source = .ok tree) :
    Laid 1 tree ∧ ∀ b ∈ tree.walk, b.kind = .root → ∃ column, Laid column b := by
  have hlines := parse_passes passes_indented hmultiline h
  have hlaid := laid_of_lines hlines
  refine ⟨hlaid, fun b hb hroot => ?_⟩
  cases mem_walk.1 hb with
  | self => exact ⟨1, hlaid⟩
  | child hm hb =>
    obtain ⟨depth, -, hblock⟩ := (hlines _ hm).2 b hb hroot
    exact ⟨_, hblock⟩

end Parser

end Mcfunction
