import Mcfunction.Proofs.Indentation
import Mcfunction.Proofs.RoundTrip
import Mcfunction.Text.Split

/-! Texts without indentation. With blocks, the indentation of a line has a meaning; without them it has none. Main
statement: if no line is indented, except for blank ones and comments, a text is read with blocks as it is read without.
No block can open in such a text: its first command would stand on an indented line. -/

namespace Mcfunction

open List Cursor Text CommandTree Spec Bool

variable {text rest : List Char} {first : Bool} {c line d : Cursor}

namespace Text

/-- Whether a line is not indented, or is blank, or holds nothing but a comment. -/
def isFlush (line : List Char) : Bool :=
  !line.head?.any isSpace || (line.dropWhile isBlank).head?.all (· = '#')

/-- No line of a text is indented, except for blank ones and comments. -/
def Flush (text : List Char) : Prop := ∀ line ∈ split '\n' text, isFlush line = true

instance (text : List Char) : Decidable (Flush text) := decidableBAll (fun line => isFlush line = true) _

theorem isBlank_of_isSpace {ch : Char} (h : isSpace ch = true) : isBlank ch = true := by
  rw [isSpace, or_eq_true, decide_eq_true_eq, decide_eq_true_eq] at h
  rcases h with rfl | rfl <;> decide

theorem mem_split_of_lineStart (h : LineStart text rest) : rest.takeWhile (· ≠ '\n') ∈ split '\n' text := by
  have hfirst : rest.takeWhile (· ≠ '\n') ∈ split '\n' rest := by
    have hline : '\n' ∉ rest.takeWhile (· ≠ '\n') := not_mem_takeWhile rfl rest
    have hrest := takeWhile_append_dropWhile (p := fun ch => decide (ch ≠ '\n')) (l := rest)
    have hhead := head?_dropWhile_not (fun ch => decide (ch ≠ '\n')) rest
    generalize rest.takeWhile (fun ch => decide (ch ≠ '\n')) = line at hline hrest
    generalize rest.dropWhile (fun ch => decide (ch ≠ '\n')) = tail at hrest hhead
    subst hrest
    cases tail with
    | nil =>
      rw [append_nil, split_of_not_mem hline]
      exact mem_cons_self
    | cons ch tail =>
      obtain rfl : ch = '\n' := by simpa using hhead
      rw [split_append_sep, split_of_not_mem hline]
      exact mem_cons_self
  rcases h with rfl | ⟨before, rfl⟩
  · exact hfirst
  · rw [split_append_sep]
    exact mem_append_right _ hfirst

end Text

def CommandTree.Worded (t : CommandTree) : Prop := ∀ entry ∈ t.children, entry.1 ≠ "" ∧ entry.2.role ≠ .argument

theorem CommandTree.bundled_worded : (bundled.carryOut bundledPlan).Worded := by
  intro entry hentry
  refine ⟨(bundled_tidy.nodes [] _ rfl).names _ (mem_map_of_mem hentry), ?_⟩
  rw [(bundled_tidy.root entry hentry).1]
  decide

namespace Cursor

/-- In a text without indentation, a line that is neither blank nor a comment is not indented,
  or begins with white space
of another kind. -/
theorem indentation_of_flush (hflush : Flush text) (hstart : LineStart text c.rest)
    (hline : c.skipSpaces.atLineEnd = false) (hcomment : c.atComment = false) :
    c.indentation = 0 ∨ c.skipSpaces.wordLength = 0 := by
  obtain ⟨ch, rest, hrest⟩ : ∃ ch rest, c.skipSpaces.rest = ch :: rest := by
    cases hrest : c.skipSpaces.rest with
    | nil => simp [atLineEnd, hrest] at hline
    | cons ch rest => exact ⟨ch, rest, rfl⟩
  cases hblank : isBlank ch with
  | true =>
    right
    rw [wordLength, hrest]
    exact congrArg length (takeWhile_cons_of_neg (by simp [hblank]))
  | false =>
    left
    have hfeed : ch ≠ '\n' := by
      rintro rfl
      simp [atLineEnd, hrest] at hline
    have hplain : ch ≠ '#' := by
      rintro rfl
      rw [atComment, ← rest_skipSpaces, hrest] at hcomment
      cases hcomment
    have hflat := hflush _ (mem_split_of_lineStart hstart)
    have hspaces : ∀ x ∈ c.rest.takeWhile isSpace, isBlank x = true :=
      fun x hx => isBlank_of_isSpace (mem_takeWhile_imp hx)
    rw [takeWhile_line, hrest, takeWhile_cons_of_pos (by simpa using hfeed), isFlush,
      dropWhile_append_of_pos hspaces, dropWhile_cons_of_neg (by simp [hblank])] at hflat
    rw [indentation]
    cases hindent : c.rest.takeWhile isSpace with
    | nil => rfl
    | cons x spaces =>
      have hx : isSpace x = true := mem_takeWhile_imp (hindent ▸ mem_cons_self)
      rw [hindent] at hflat
      simp [hx, hplain] at hflat

end Cursor

/-- Readings that are always at the same place of a text, whatever they complain about. -/
def InPlace.within (text : List Char) : InPlace where
  At c := c.rest <:+ text
  Errors _ _ := True
  convert := id
  reaches hc h := h.suffix.trans hc
  refl _ := trivial
  furthest _ _ := trivial
  command identifier arguments span := by
    rw [map_id]
    rfl

namespace Parser

variable {p : Parser} {o : ParseOptions} {indent : Option Nat} {x : Node × Cursor}

theorem outcome_of_wordless (hp : p.tree.Worded) (hword : c.wordLength = 0) (pending : Pending) (x : Node × Cursor) :
    p.outcome indent (.child p.tree pending) c ≠ .ok x := by
  have hliteral : literal? p.tree c = none := by
    rw [literal?, word, hword]
    cases hlookup : p.tree.children.lookup "" with
    | none => exact (congrArg _ hlookup).trans rfl
    | some child => exact absurd rfl (hp _ (Entries.mem_of_lookup hlookup)).1
  have hargs : p.tree.children.filter isArgument = [] :=
    filter_eq_nil_iff.2 fun entry hentry => by simpa [isArgument] using (hp entry hentry).2
  rw [outcome_child, hliteral, hargs]
  intro h
  cases h

section Flush

variable (hflush : Flush text) (hp : p.tree.Worded)

include hflush hp

theorem indentation_of_command {pending : Pending}
    (hc : c.rest <:+ text) (hfirst : first = true → LineStart text c.rest) (hline : c.nextLine? first = some line)
    (hend : line.atEnd = false) (hcomment : line.atComment = false)
    (hx : p.outcome indent (.child p.tree pending) line.skipSpaces = .ok x) : line.indentation = 0 := by
  have hword : line.skipSpaces.wordLength ≠ 0 := fun hword => outcome_of_wordless hp hword pending x hx
  have hstart := lineStart_nextLine? hc hfirst hline hend
  exact (indentation_of_flush hflush hstart (atLineEnd_nextLine? hline hend) hcomment).resolve_right hword

theorem blockArgument_of_flush (hc : c.rest <:+ text) (x : Node × Cursor) : p.blockArgument indent c ≠ .ok x := by
  intro hx
  obtain ⟨-, -, hend, hdeeper, lines, hlines, -⟩ := blockArgument_ok hx
  obtain ⟨e, line, n, f, he, hline, hend, hcomment, hwidth, -, hn⟩ :=
    (blockRead_of_ok hlines).first_command (Nat.zero_lt_of_lt hdeeper) rfl (.inl hend)
  have hsuffix : e.rest <:+ text := (((c.reaches_drop 1).trans he).suffix).trans hc
  have hzero := indentation_of_command hflush hp hsuffix (fun h => absurd h false_ne_true) hline hend hcomment hn
  omega

theorem arguments_of_flush (o : ParseOptions) (c : Cursor) : (InPlace.within text).likeness.ArgumentsFrom p o c := by
  have hsingles : (InPlace.within text).likeness.Singles := InPlace.singles _ fun _ _ _ _ _ => rfl
  refine fun _ _ _ h => Likeness.arguments_of_blocks hsingles ?_ h
  rintro indent _ c ⟨rfl, hc⟩ -
  have hleft : ∀ x, p.blockArgument indent c ≠ .ok x := blockArgument_of_flush hflush hp hc
  have hright : ∀ x, (p.under o).blockArgument indent c ≠ .ok x := blockArgument_of_flush hflush hp hc
  cases hx : p.blockArgument indent c with
  | ok x => exact absurd hx (hleft x)
  | error e =>
    cases hy : (p.under o).blockArgument indent c with
    | ok y => exact absurd hy (hright y)
    | error g => exact trivial

theorem command_of_flush (hc : c.rest <:+ text)
    (hx : p.outcome none (.child p.tree { start := c.location }) c = .ok x) :
    (p.under o).outcome none (.child p.tree { start := c.location }) c = .ok x := by
  have hmeet := Likeness.command_meet (L := (InPlace.within text).likeness) none ⟨rfl, hc⟩ (arguments_of_flush hflush hp o c)
  rw [hx] at hmeet
  cases hy : (p.under o).outcome none (.child p.tree { start := c.location }) c with
  | error g =>
    rw [hy] at hmeet
    exact hmeet.elim
  | ok y =>
    rw [hy] at hmeet
    exact congrArg Except.ok (Prod.ext hmeet.1.1 hmeet.2.1)

theorem BlockRead.of_flush (hkeep : o.keepComments = p.options.keepComments) {lines : List Node}
    (h : BlockRead p none first c lines d) (hc : c.rest <:+ text) (hfirst : first = true → LineStart text c.rest) :
    (p.under o).blockOutcome none first c = .ok (lines, d) := by
  have hfalse : ∀ e : Cursor, false = true → LineStart text e.rest := fun _ h => absurd h false_ne_true
  induction h with
  | unended hline => rw [blockOutcome_eq, hline]
  | ended hline hend =>
    rw [blockOutcome_eq, hline]
    exact if_pos hend
  | @comment first c line lines e hline hcomment _ ih =>
    have hreach := (nextLine?_reaches hline).trans (line.skipSpaces_reaches.trans line.skipSpaces.skipLine_reaches)
    rw [blockOutcome_eq, hline]
    dsimp only
    rw [if_neg (by rw [atEnd_of_atComment hcomment]; decide), if_pos hcomment,
      ih (hreach.suffix.trans hc) (hfalse _), commentLine, commentLine, options_under, hkeep]
    rfl
  | @left first c line hline hend hcomment horder => exact absurd horder (p.indentationOrder_none_ne _)
  | @command first c line n e lines f hline hend hcomment _ hn _ ih =>
    have hreach := (nextLine?_reaches hline).trans line.skipSpaces_reaches
    have hindent := indentation_of_command hflush hp hc hfirst hline hend hcomment hn
    have horder : (p.under o).indentationOrder none 0 = .eq := by
      rw [indentationOrder]
      split <;> rfl
    rw [blockOutcome_eq, hline]
    dsimp only
    rw [if_neg (by rw [hend]; decide), if_neg (by rw [hcomment]; decide), hindent, horder]
    rw [tree_under, command_of_flush hflush hp (hreach.suffix.trans hc) hn]
    dsimp only
    rw [ih ((hreach.trans (outcome_reaches hn)).suffix.trans hc) (hfalse _)]
    rfl

end Flush

theorem parse_of_flush (hp : p.tree.Worded) {source : String} (hflush : Flush source.toList)
    (hkeep : o.keepComments = p.options.keepComments) {root : Node} (h : p.parse source = .ok root) :
    (p.under o).parse source = .ok root := by
  rw [parse_eq] at h ⊢
  cases hlines : p.blockOutcome none true (.start source) with
  | error e =>
    rw [hlines] at h
    cases h
  | ok x =>
    rw [hlines] at h
    rw [BlockRead.of_flush hflush hp hkeep (blockRead_of_ok hlines) (suffix_refl _) fun _ => .inl rfl]
    exact h

/-- Blocks are a conservative extension of the bundled grammar. In a text in which no line is indented, except for blank
ones and comments, they make no difference: it is read with them if and only if it is read without them, as the same tree
at the same spans. -/
theorem parse_multiline_iff {spec : Spec} (hspec : withTrees [] true = .ok spec) (keepComments : Bool)
    (source : String) (hflush : Flush source.toList) (root : Node) :
    Parser.parse { tree := spec.tree, options := { multiline := true, keepComments } } source = .ok root ↔
      Parser.parse { tree := spec.tree, options := { multiline := false, keepComments } } source = .ok root := by
  have hworded : spec.tree.Worded := (bundled_ok hspec).1 ▸ bundled_worded
  constructor
  · exact parse_of_flush (p := { tree := spec.tree, options := ⟨true, keepComments⟩ }) (o := ⟨false, keepComments⟩)
      hworded hflush rfl
  · exact parse_of_flush (p := { tree := spec.tree, options := ⟨false, keepComments⟩ }) (o := ⟨true, keepComments⟩)
      hworded hflush rfl

/-- A colon at a line end, and below it a blank line and a comment that are indented. -/
theorem parse_multiline_iff_commented :
    let source := "say hi:\n  \n\t# note\nexecute as @a run function demo:a\n  # end"
    ∃ spec root, withTrees [] true = .ok spec ∧ Flush source.toList ∧
      Parser.parse { tree := spec.tree, options := { multiline := true, keepComments := true } } source = .ok root ∧
      Parser.parse { tree := spec.tree, options := { multiline := false, keepComments := true } } source = .ok root := by
  intro source
  obtain ⟨prototypes, hprototypes⟩ :=
    bundled_regular.keyed.exists_prototypes bundled_resolve
  have hspec := ofTree_eq bundled_resolve hprototypes
  have hflush : Flush source.toList := by decide
  let plain : Parser :=
    { tree := bundled.carryOut bundledPlan, options := { multiline := false, keepComments := true } }
  have hread : (plain.parse source).toOption.isSome = true := by decide +kernel
  cases hroot : plain.parse source with
  | error e =>
      rw [hroot] at hread
      cases hread
  | ok root => exact ⟨_, root, hspec, hflush, (parse_multiline_iff hspec true source hflush root).2 hroot, hroot⟩

end Parser

end Mcfunction
