import Mcfunction.Proofs.Indentation
import Mcfunction.Proofs.Regular

/-! Spans of whole trees. A command is placed between its start and its end, with its arguments in a row; a block is a
row of commands and comments. Main statement: every location in the tree of a text, or in the error that refuses it, is
exact, children lie inside their parents one after the other, and only blocks and the commands that hold one span more
than a line. -/

namespace Mcfunction.Parser

open List Cursor

/-- A node that lies on one line, unless it is a block or a command with a block inside. -/
def Spread (c d : Cursor) (n : Node) : Prop :=
  c.OnLine d ∨ n.kind = .root ∨ n.kind = .command ∧ ∃ m ∈ n.walk, m.kind = .root

variable {a b c d : Cursor} {n : Node} {p : Parser} {indent : Option Nat} {node : CommandTree}

theorem Spread.line_or_root (h : Spread c d n) : c.OnLine d ∨ ∃ m ∈ n.walk, m.kind = .root := by
  rcases h with h | h | ⟨-, h⟩
  · exact .inl h
  · exact .inr ⟨n, Node.mem_walk.2 (.self n), h⟩
  · exact .inr h

/-! ### Errors -/

/-- Names are found again in the tree, and a command may end behind every node that reads a block. -/
structure Closed (p : Parser) : Prop where
  keyed : p.tree.Keyed
  ends : ∀ path node, p.tree.at? path = some node → p.registry (node.reader?.getD "") = some .block →
    node.executable = true

/-- The cursor lies, behind `b`, on a line on which something stands if commands may end behind blocks. -/
def Shown (p : Parser) (b c : Cursor) : Prop := ∃ a, b.Reaches a ∧ a.OnLine c ∧ (p.Closed → a.rest ≠ [])

/-- The error is about a stretch of such a line. -/
def Points (p : Parser) (b : Cursor) (e : SyntaxError) : Prop :=
  ∃ c d, Shown p b c ∧ c.OnLine d ∧ e.span = ⟨c.location, d.location⟩

theorem Shown.reaches (h : Shown p b c) : b.Reaches c := by
  obtain ⟨a, ha, hac, -⟩ := h
  exact ha.trans hac.reaches

theorem Shown.onLine (h : Shown p b c) (hcd : c.OnLine d) : Shown p b d := by
  obtain ⟨a, ha, hac, hne⟩ := h
  exact ⟨a, ha, hac.trans hcd, hne⟩

theorem Shown.points (h : Shown p b c) (complaint : Complaint) : Points p b ⟨complaint, c.spanHere⟩ := by
  obtain ⟨d, hd, hspan⟩ := c.spanHere_eq
  exact ⟨c, d, h, hd, hspan⟩

theorem Shown.span_marks {source : String} (h : Shown p (.start source) c) (hd : c.OnLine d) :
    Span.Marks source ⟨c.location, d.location⟩ := h.reaches.span_marks hd.reaches

/-- The node is one of the tree, if names are found again in it. -/
def Found (p : Parser) (node : CommandTree) : Prop := p.Closed → ∃ path, p.tree.at? path = some node

/-- A stage at a cursor on such a line. Only where a command may end the text may have ended with a line before. -/
def Stage.Stands (p : Parser) (b c : Cursor) : Stage → Prop
  | .child owner _ | .follow owner _ => Found p owner ∧ Shown p b c
  | .after node _ => Found p node ∧ (Shown p b c ∨ (c.atLineEnd && node.executable) = true)

/-! ### Commands -/

/-- The arguments of a command that begins at `b` and has been read up to `c` are in a row. -/
structure InRow (b c : Cursor) (pending : Pending) : Prop where
  start : pending.start = b.location
  row : Row Spread b c pending.arguments
  line : b.OnLine c ∨ ∃ a ∈ pending.arguments, ∃ m ∈ a.walk, m.kind = .root

def PlacedFrom (p : Parser) (a b : Cursor) : Except SyntaxError (Node × Cursor) → Prop
  | .error e => Points p a e
  | .ok (n, d) => Placed Spread b d n

theorem InRow.start_here (c : Cursor) (scope : Path) : InRow c c { scope, start := c.location } :=
  ⟨rfl, .nil (.refl c), .inl (.refl c)⟩

variable {pending : Pending} {e : SyntaxError}

theorem InRow.move (h : InRow b c pending) (hcd : c.OnLine d) : InRow b d pending where
  start := h.start
  row := by
    rw [← append_nil pending.arguments]
    exact h.row.append (.nil hcd.reaches)
  line := h.line.imp_left fun hbc => hbc.trans hcd

theorem InRow.literal (h : InRow b c pending) (word : String) :
    InRow b c (pending.literal word) := ⟨h.start, h.row, h.line⟩

theorem InRow.argument (h : InRow b c pending) (hn : Placed Spread c d n) (name : String) :
    InRow b d (pending.argument name n) where
  start := h.start
  row := h.row.snoc hn
  line := by
    rcases h.line with hbc | ⟨a, ha, hroot⟩
    · rcases hn.holds.line_or_root with hcd | hroot
      · exact .inl (hbc.trans hcd)
      · exact .inr ⟨n, mem_append_right _ mem_cons_self, hroot⟩
    · exact .inr ⟨a, mem_append_left _ ha, hroot⟩

theorem InRow.finish (h : InRow b c pending) : Placed Spread b c (pending.finish c) where
  span := by rw [Pending.finish, spanFrom, h.start]
  holds := by
    rcases h.line with hbc | ⟨a, ha, m, hm, hroot⟩
    · exact .inl hbc
    · refine .inr (.inr ⟨rfl, m, ?_, hroot⟩)
      exact Node.mem_walk.2 (.child ha (Node.mem_walk.1 hm))
  inside := h.row

theorem gap_onLine (h : gap c = .ok d) : c.OnLine d := by
  obtain ⟨hc, rfl⟩ := gap_ok h
  exact onLine_over (by decide) hc

theorem gap_points (hc : Shown p a c) (h : gap c = .error e) : Points p a e := by
  rw [gap, separator] at h
  split at h
  · rename_i hspace
    dsimp only at h
    split at h
    · cases h
      exact (hc.onLine (onLine_over (by decide) hspace)).points _
    · cases h
  · cases h
    exact hc.points _

def ArgumentsPlaced (p : Parser) (c : Cursor) : Prop :=
  ∀ a indent node, Shown p a c → PlacedFrom p a c (p.argumentOutcome indent node c)

theorem ArgumentsPlaced.error (h : ArgumentsPlaced p c) (hc : Shown p a c)
    (hread : p.argumentOutcome indent node c = .error e) : Points p a e := by
  have hplaced := h a indent node hc
  rwa [hread] at hplaced

theorem ArgumentsPlaced.ok (h : ArgumentsPlaced p c) (hc : Shown p a c)
    (hread : p.argumentOutcome indent node c = .ok (n, d)) : Placed Spread c d n := by
  have hplaced := h a indent node hc
  rwa [hread] at hplaced

theorem Found.literal {owner child : CommandTree} (h : Found p owner) (hword : literal? owner c = some child) :
    Found p child := by
  intro hclosed
  obtain ⟨path, hpath⟩ := h hclosed
  exact ⟨_, (CommandTree.at?_snoc hpath).trans (Option.filter_eq_some_iff.1 hword).1⟩

theorem Found.child {owner : CommandTree} {i : Nat} {entry : String × CommandTree} (h : Found p owner)
    (hentry : owner.children[i]? = some entry) : Found p entry.2 := by
  intro hclosed
  obtain ⟨path, hpath⟩ := h hclosed
  exact ⟨_, hclosed.keyed.at?_child hpath (mem_of_getElem? hentry)⟩

theorem Found.behind (h : Found p node) (hc : Shown p a c) (hread : p.argumentOutcome indent node c = .ok (n, d))
    (pending : Pending) : (Stage.after node pending).Stands p a d := by
  refine ⟨h, ?_⟩
  by_cases hd : p.Closed → d.rest ≠ []
  · exact .inl ⟨d, hc.reaches.trans (argumentOutcome_reaches hread), .refl d, hd⟩
  · obtain ⟨hclosed, hend⟩ := Classical.not_imp.1 hd
    rw [argumentOutcome_eq] at hread
    split at hread
    · cases hread
    · obtain ⟨x, hx, heq⟩ := map_ok hread
      cases heq
      exact .inl (hc.onLine (Leaf.read_placed hx).holds.line)
    · rename_i hblock
      obtain ⟨path, hpath⟩ := h hclosed
      rw [hclosed.ends path node hpath hblock, atLineEnd, not_not.1 hend]
      exact .inr rfl

theorem Stage.Stands.shown (h : (Stage.after node pending).Stands p a c)
    (hgo : (c.atLineEnd && node.executable) = false) : Shown p a c :=
  h.2.resolve_right (ne_true_of_eq_false hgo)

theorem Branch.placed {stage : Stage} {ks : List Nat} {r : Except SyntaxError (Node × Cursor)}
    (h : Branch p indent stage c ks r) (hargs : ∀ d, d.remaining ≤ c.remaining → ArgumentsPlaced p d)
    (hrow : InRow b c stage.pending) (hstage : stage.Stands p a c) : PlacedFrom p a b r := by
  induction h generalizing b with
  | @literal owner pending c child ks r hchild _ ih =>
    have hword : c.OnLine (c.drop c.wordLength) := onLine_drop (Token.value_flat c.rest)
    refine ih (fun d hd => hargs d (le_trans hd hword.reaches.remaining_le)) ((hrow.literal c.word).move hword) ?_
    exact ⟨hstage.1.literal hchild, .inl (hstage.2.onLine hword)⟩
  | refused _ _ _ hread | blockRefused _ _ _ hread => exact (hargs _ (le_refl _)).error hstage.2 hread
  | accepted _ hentry _ hread _ ih | blockAccepted _ hentry _ hread _ ih =>
    have hn := (hargs _ (le_refl _)).ok hstage.2 hread
    exact ih (fun d hd => hargs d (le_trans hd hn.reaches.remaining_le)) (hrow.argument hn _)
      ((hstage.1.child hentry).behind hstage.2 hread _)
  | unknown => exact ⟨_, _, hstage.2, onLine_drop (Token.value_flat _), rfl⟩
  | childless | ended => exact hstage.2.points _
  | unresolved hgo | subcommandEnded hgo => exact (hstage.shown hgo).points _
  | unseparated _ _ _ hgap => exact gap_points hstage.2 hgap
  | subcommandUnseparated hgo _ _ _ _ hgap => exact gap_points (hstage.shown hgo) hgap
  | separated _ _ _ hgap _ ih =>
    have hline := gap_onLine hgap
    exact ih (fun d hd => hargs d (le_trans hd hline.reaches.remaining_le)) (hrow.move hline)
      ⟨hstage.1, hstage.2.onLine hline⟩
  | complete => exact hrow.finish
  | next hgo _ _ ih => exact ih hargs hrow ⟨hstage.1, hstage.shown hgo⟩
  | aliased hgo _ htarget _ _ ih => exact ih hargs hrow ⟨fun _ => ⟨_, htarget⟩, hstage.shown hgo⟩
  | @subcommand node pending c path target d ks inner hgo _ htarget _ _ hgap _ ih =>
    have hline := gap_onLine hgap
    have hinner := ih (fun e he => hargs e (le_trans he hline.reaches.remaining_le)) (InRow.start_here d path)
      ⟨fun _ => ⟨_, htarget⟩, (hstage.shown hgo).onLine hline⟩
    cases inner with
    | error e => exact hinner
    | ok x => exact ((hrow.move hline).argument hinner _).finish

theorem outcome_placed (hargs : ∀ d, d.remaining ≤ c.remaining → ArgumentsPlaced p d) (hc : Shown p a c) :
    PlacedFrom p a c (p.outcome indent (.child p.tree { start := c.location }) c) := by
  obtain ⟨ks, hks⟩ := exists_branch p indent (.child p.tree { start := c.location }) c
  exact hks.placed hargs (InRow.start_here c []) ⟨fun _ => ⟨[], rfl⟩, hc⟩

/-! ### Blocks -/

def LinesPlaced (p : Parser) (a c : Cursor) : Except SyntaxError (List Node × Cursor) → Prop
  | .error e => Points p a e
  | .ok (lines, d) => Row Spread c d lines

theorem LinesPlaced.map_append {lines : List Node} {r : Except SyntaxError (List Node × Cursor)}
    (hlines : Row Spread c d lines) (h : LinesPlaced p a d r) :
    LinesPlaced p a c (r.map fun (rest, e) => (lines ++ rest, e)) := by
  cases r with
  | error e => exact h
  | ok x => exact hlines.append h

theorem commentLine_row (d : Cursor) : Row Spread d.skipSpaces d.skipSpaces.skipLine (p.commentLine d) := by
  have hline := d.skipSpaces.skipLine_onLine
  rw [commentLine]
  split
  · exact .single ⟨rfl, .inl hline, .nil hline.reaches⟩
  · exact .nil hline.reaches

theorem blockOutcome_since (p : Parser) (indent : Option Nat) (first : Bool) (c : Cursor)
    (hargs : ∀ d, d.remaining ≤ c.remaining → ArgumentsPlaced p d) (hac : a.Reaches c) :
    LinesPlaced p a c (p.blockOutcome indent first c) := by
  refine block_induction (P := fun first c => (∀ d, d.remaining ≤ c.remaining → ArgumentsPlaced p d) → a.Reaches c →
    LinesPlaced p a c (p.blockOutcome indent first c)) ?_ first c hargs hac
  intro first c ih hargs hac
  rw [blockOutcome_eq]
  cases hline : c.nextLine? first with
  | none => exact .nil (.refl c)
  | some d =>
    have hcd := nextLine?_reaches hline
    have hcs : c.Reaches d.skipSpaces := hcd.trans d.skipSpaces_reaches
    dsimp only
    split
    · exact .nil hcd
    · rename_i hend
      have hshown : Shown p a d.skipSpaces := by
        refine ⟨_, hac.trans hcs, .refl _, fun _ hnil => ?_⟩
        have hline := atLineEnd_nextLine? hline (Bool.eq_false_iff.2 hend)
        rw [atLineEnd, hnil] at hline
        cases hline
      split
      · have hskip := hcs.trans d.skipSpaces.skipLine_reaches
        have hrest := ih d d.skipSpaces.skipLine hline
          (le_trans d.skipSpaces.skipLine_reaches.remaining_le d.skipSpaces_remaining_le)
          (fun e he => hargs e (le_trans he hskip.remaining_le)) (hac.trans hskip)
        exact LinesPlaced.map_append ((commentLine_row d).before hcs) hrest
      · split
        · exact .nil (.refl c)
        · exact hshown.points _
        · have hcmd : PlacedFrom p a d.skipSpaces
              (p.outcome indent (.child p.tree { start := d.skipSpaces.location }) d.skipSpaces) :=
            outcome_placed (fun e he => hargs e (le_trans he hcs.remaining_le)) hshown
          split
          · rename_i e he
            rwa [he] at hcmd
          · rename_i n e hn
            rw [hn] at hcmd
            have hce := hcs.trans hcmd.reaches
            have hrest := ih d e hline (le_trans hcmd.reaches.remaining_le d.skipSpaces_remaining_le)
              (fun g hg => hargs g (le_trans hg hce.remaining_le)) (hac.trans hce)
            exact LinesPlaced.map_append ((Row.single hcmd).before hcs) hrest

theorem blockOutcome_placed (p : Parser) (indent : Option Nat) (first : Bool) (c : Cursor)
    (hargs : ∀ d, d.remaining ≤ c.remaining → ArgumentsPlaced p d) :
    LinesPlaced p c c (p.blockOutcome indent first c) := blockOutcome_since p indent first c hargs (.refl c)

/-! ### Arguments -/

theorem blockArgument_placed (hargs : ∀ d, d.remaining < c.remaining → ArgumentsPlaced p d) (hc : Shown p a c) :
    PlacedFrom p a c (p.blockArgument indent c) := by
  rw [blockArgument]
  split
  · exact hc.points _
  · split
    · rename_i hcolon
      have hover : Shown p a (c.drop 1) := hc.onLine (onLine_over (by decide) hcolon)
      split
      · exact hover.points _
      · split
        · exact hover.points _
        · have hlines := blockOutcome_since p (some (c.drop 1).blockIndentation) false (c.drop 1)
            (fun d hd => hargs d (lt_of_le_of_lt hd (c.drop_one_remaining hcolon))) hover.reaches
          cases hblock : p.blockOutcome (some (c.drop 1).blockIndentation) false (c.drop 1) with
          | error e => rwa [hblock] at hlines
          | ok x =>
            rw [hblock] at hlines
            exact ⟨rfl, .inr (.inl rfl), Row.before (c.reaches_drop 1) hlines⟩
    · exact hc.points _

theorem argumentsPlaced (p : Parser) (c : Cursor) : ArgumentsPlaced p c := by
  induction c using induct with
  | hstep c ih =>
    intro a indent node hc
    rw [argumentOutcome_eq]
    split
    · exact hc.points _
    · rename_i l hl
      have hread : Parse.Good c (l.read node.properties c) fun n d => Placed LinePart c d n :=
        l.read_at node.properties c
      cases hvalue : l.read node.properties c with
      | error e =>
        rw [hvalue] at hread
        obtain ⟨first, last, hfirst, hlast, hspan⟩ := hread
        exact ⟨first, last, hc.onLine hfirst, hlast, hspan⟩
      | ok x =>
        rw [hvalue] at hread
        exact hread.2.plain.mono fun _ _ _ h => .inl h.line
    · exact blockArgument_placed ih hc

/-! ### Whole texts -/

theorem parse_placed (p : Parser) (source : String) :
    match p.parse source with
    | .error e => Points p (.start source) e
    | .ok tree => ∃ d, Placed Spread (.start source) d tree := by
  have hlines := blockOutcome_placed p none true (.start source) fun d _ => argumentsPlaced p d
  rw [parse_eq]
  cases hblock : p.blockOutcome none true (.start source) with
  | error e =>
    rw [hblock] at hlines
    exact hlines
  | ok x =>
    rw [hblock] at hlines
    exact ⟨x.2, rfl, .inr (.inl rfl), hlines⟩

/-- Positions are exact. If a text is refused, both ends of the span of the error mark places of it in order.
If it is read, the same holds of every node of the tree; moreover its children lie within it, one after the
other, and it ends on the line where it begins unless it is a block or a command that holds one. -/
theorem positions_exact (p : Parser) (source : String) :
    match p.parse source with
    | .error e => e.span.Marks source
    | .ok tree => ∀ n ∈ tree.walk, n.span.Marks source ∧
        (∀ child ∈ n.children, n.span.start.offset ≤ child.span.start.offset ∧
          child.span.stop.offset ≤ n.span.stop.offset) ∧
        n.children.Pairwise (fun a b => a.span.stop.offset ≤ b.span.start.offset) ∧
        (n.kind ≠ .root → ¬(n.kind = .command ∧ ∃ m ∈ n.walk, m.kind = .root) →
          n.span.start.line = n.span.stop.line) := by
  have hplaced := parse_placed p source
  cases hparse : p.parse source with
  | error e =>
      rw [hparse] at hplaced
      obtain ⟨c, d, hc, hd, hspan⟩ := hplaced
      change e.span.Marks source
      rw [hspan]
      exact hc.span_marks hd
  | ok tree =>
      rw [hparse] at hplaced
      obtain ⟨last, hlast⟩ := hplaced
      intro n hn
      have hwithin : ∃ c d, (Cursor.start source).Reaches c ∧ Placed Spread c d n := by
        refine Node.Within.induct (P := fun n => ∃ c d, (Cursor.start source).Reaches c ∧ Placed Spread c d n)
          ?_ ⟨_, last, .refl _, hlast⟩ (Node.mem_walk.1 hn)
        rintro m ⟨c, d, hc, hm⟩ child hchild
        obtain ⟨first, last, hfirst, hplaced, -⟩ := hm.inside.placed hchild
        exact ⟨first, last, hc.trans hfirst, hplaced⟩
      obtain ⟨c, d, hc, hplaced⟩ := hwithin
      rw [hplaced.span]
      refine ⟨hc.span_marks hplaced.reaches, ?_, hplaced.inside.pairwise, ?_⟩
      · intro child hchild
        obtain ⟨first, last, hfirst, hinner, hlast⟩ := hplaced.inside.placed hchild
        rw [hinner.span]
        exact ⟨hfirst.offset_le, hlast.offset_le⟩
      · intro hroot hcommand
        rcases hplaced.holds with hline | hkind | hkind
        · exact hline.line_eq
        · exact absurd hkind hroot
        · exact absurd hkind hcommand

end Mcfunction.Parser
