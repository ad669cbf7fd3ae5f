import Mcfunction.Proofs.LineLocal

/-! Lines from their starts on, and how deep they are indented. The next line of a text begins behind a line feed, and a
block is as deep as the first of its lines that is neither blank nor a comment. Main statement: a block that is read behind
a line is indented only if its first command is. -/

namespace Mcfunction

open List Cursor Option

def Text.LineStart (text rest : List Char) : Prop := rest = text ∨ ∃ before, text = before ++ '\n' :: rest

open Text

theorem Text.LineStart.suffix {text rest : List Char} (h : LineStart text rest) : rest <:+ text := by
  rcases h with rfl | ⟨before, rfl⟩
  · exact suffix_refl _
  · exact (suffix_cons '\n' rest).trans (suffix_append _ _)

namespace Cursor

variable {c d : Cursor} {text : List Char} {first : Bool}

theorem Reaches.suffix (h : c.Reaches d) : d.rest <:+ c.rest := by
  obtain ⟨n, rfl⟩ := h
  rw [rest_drop]
  exact drop_suffix n _

/-! ### Starts of lines -/

theorem skipNewline?_some (h : c.skipNewline? = some d) : c.rest = '\n' :: d.rest ∨ c.rest = '\r' :: '\n' :: d.rest := by
  rw [skipNewline?] at h
  split at h
  · rename_i hrest
    cases h
    rw [rest_drop, hrest]
    exact .inl rfl
  · rename_i hrest
    cases h
    rw [rest_drop, hrest]
    exact .inr rfl
  · cases h

theorem lineStart_skipNewline? (h : c.rest <:+ text) (hd : c.skipNewline? = some d) : LineStart text d.rest := by
  obtain ⟨before, rfl⟩ := h
  rcases skipNewline?_some hd with hrest | hrest
  · exact .inr ⟨before, by rw [hrest]⟩
  · exact .inr ⟨before ++ ['\r'], by rw [hrest, append_assoc]; rfl⟩

theorem lineStart_skipBlankLines (h : LineStart text c.rest) :
    c.skipBlankLines.atEnd = true ∨ LineStart text c.skipBlankLines.rest := by
  fun_induction skipBlankLines c with
  | case1 c hend => exact .inl hend
  | case2 c hend d hd ih => exact ih (lineStart_skipNewline? (c.skipSpaces_reaches.suffix.trans h.suffix) hd)
  | case3 c hend hd => exact .inr h

theorem lineStart_nextLine? (hc : c.rest <:+ text) (hfirst : first = true → LineStart text c.rest)
    (hd : c.nextLine? first = some d) (hend : d.atEnd = false) : LineStart text d.rest := by
  obtain ⟨e, he, rfl⟩ := map_eq_some_iff.1 hd
  have hstart : LineStart text e.rest := by
    cases first with
    | true =>
      cases he
      exact hfirst rfl
    | false => exact lineStart_skipNewline? hc he
  exact (lineStart_skipBlankLines hstart).resolve_left (by rw [hend]; decide)

theorem atLineEnd_skipBlankLines (hend : c.skipBlankLines.atEnd = false) :
    c.skipBlankLines.skipSpaces.atLineEnd = false := by
  fun_induction skipBlankLines c with
  | case1 c h =>
    rw [h] at hend
    cases hend
  | case2 c h d hd ih => exact ih hend
  | case3 c h hd => exact (skipNewline?_eq_none_iff.1 hd).resolve_left h

theorem atLineEnd_nextLine? (h : c.nextLine? first = some d) (hend : d.atEnd = false) :
    d.skipSpaces.atLineEnd = false := by
  obtain ⟨e, -, rfl⟩ := map_eq_some_iff.1 h
  exact atLineEnd_skipBlankLines hend

theorem atEnd_of_atComment (h : c.atComment = true) : c.atEnd = false := by
  rw [Bool.eq_false_iff]
  intro hend
  rw [atComment, isEmpty_iff.1 hend] at h
  cases h

/-! ### The depth of a block -/

theorem rest_skipSpaces (c : Cursor) : c.skipSpaces.rest = c.rest.dropWhile isSpace := by
  rw [skipSpaces, rest_drop, indentation, drop_length_takeWhile]

theorem mem_spaces {ch : Char} (h : ch ∈ c.rest.takeWhile isSpace) : ch ≠ '\n' ∧ ch ≠ '\r' := by
  have hspace := mem_takeWhile_imp h
  constructor <;> rintro rfl <;> cases hspace

theorem takeWhile_line (c : Cursor) :
    c.rest.takeWhile (· ≠ '\n') = c.rest.takeWhile isSpace ++ c.skipSpaces.rest.takeWhile (· ≠ '\n') := by
  rw [rest_skipSpaces, ← takeWhile_append_of_pos fun ch hch => decide_eq_true (mem_spaces hch).1,
    takeWhile_append_dropWhile]

theorem skipSpaces_skipLine (c : Cursor) : c.skipSpaces.skipLine = c.skipLine := by
  have hlen : c.lineRest.length = c.indentation + c.skipSpaces.lineRest.length := by
    rw [lineRest, lineRest, takeWhile_line, indentation]
    rcases eq_nil_or_concat (c.skipSpaces.rest.takeWhile (· ≠ '\n')) with hnil | ⟨line, ch, hcons⟩
    · rw [hnil, append_nil, if_neg fun hlast => (mem_spaces (mem_of_getLast? hlast)).2 rfl]
      rfl
    · rw [hcons, concat_eq_append, ← append_assoc, getLast?_concat, getLast?_concat]
      split
      · rw [dropLast_concat, dropLast_concat, length_append]
      · rw [append_assoc, length_append]
  rw [skipLine, skipLine, hlen, ← drop_drop, skipSpaces]

theorem blockIndentation_comment (hd : (c.skipNewline?.getD c).skipBlankLines = d) (h : d.atComment = true) :
    c.blockIndentation = d.skipLine.blockIndentation := by
  rw [blockIndentation, blockIndentation, hd, skipComments_eq, if_pos h]

theorem blockIndentation_line (hd : (c.skipNewline?.getD c).skipBlankLines = d) (h : d.atComment = false) :
    c.blockIndentation = if d.atEnd then 0 else d.indentation := by
  have hskip : d.skipComments = d := by rw [skipComments_eq, h, if_neg Bool.false_ne_true]
  rw [blockIndentation, hd, hskip]

theorem blockIndentation_end (hd : (c.skipNewline?.getD c).skipBlankLines = d) (h : d.atEnd = true) :
    c.blockIndentation = 0 := by
  have hcomment : d.atComment = false := by
    rw [atComment, isEmpty_iff.1 h]
    rfl
  rw [blockIndentation_line hd hcomment, if_pos h]

theorem blockIndentation_stopped (h : c.rest = [] ∨ c.rest = ['\r']) : c.blockIndentation = 0 := by
  have hindent : c.indentation = 0 := by
    rw [indentation]
    rcases h with h | h <;> rw [h] <;> rfl
  have hspaces : c.skipSpaces = c := by rw [skipSpaces, hindent, drop_zero]
  have hnone : c.skipNewline? = none := by rcases h with h | h <;> simp [skipNewline?, h]
  have hblank : (c.skipNewline?.getD c).skipBlankLines = c := by
    rw [hnone, getD_none, skipBlankLines_eq, hspaces, hnone]
    exact ite_self c
  have hcomment : c.atComment = false := by
    rw [atComment]
    rcases h with h | h <;> rw [h] <;> rfl
  rw [blockIndentation_line hblank hcomment, hindent, ite_self]

theorem skipBlankLines_of_nextLine? (h : c.nextLine? false = some d) : (c.skipNewline?.getD c).skipBlankLines = d := by
  obtain ⟨e, he, rfl⟩ := map_eq_some_iff.1 h
  rw [show c.skipNewline? = some e from he, getD_some]

end Cursor

namespace Parser

variable {p : Parser} {c d : Cursor} {lines : List Node}

theorem indentationOrder_none_ne (p : Parser) (width : Nat) : p.indentationOrder none width ≠ .lt := by
  rw [indentationOrder]
  split
  · exact fun h => Nat.not_lt_zero _ (Nat.compare_eq_lt.1 h)
  · decide

/-- A block that is indented begins with a command that is indented as deep, perhaps behind comments. -/
theorem BlockRead.first_command {width : Nat} (h : BlockRead p (some width) false c lines d) (hwidth : 0 < width)
    (hdeep : c.blockIndentation = width) (hstop : c.atLineEnd = true ∨ c.rest = ['\r']) :
    ∃ e line n f, c.Reaches e ∧ e.nextLine? false = some line ∧ line.atEnd = false ∧ line.atComment = false ∧
      line.indentation = width ∧ n ∈ lines ∧
      p.outcome (some width) (.child p.tree { start := line.skipSpaces.location }) line.skipSpaces = .ok (n, f) := by
  generalize hfirst : false = first at h
  induction h with
  | @unended first c hline =>
    subst hfirst
    have hnone := skipNewline?_eq_none_iff.1 (map_eq_none_iff.1 hline)
    have hrest : c.rest = [] ∨ c.rest = ['\r'] := by
      refine hstop.imp_left fun hend => isEmpty_iff.1 (hnone.resolve_right ?_)
      rw [hend]
      decide
    rw [blockIndentation_stopped hrest] at hdeep
    omega
  | ended hline hend =>
    subst hfirst
    rw [blockIndentation_end (skipBlankLines_of_nextLine? hline) hend] at hdeep
    omega
  | @comment first c line rest e hline hcomment _ ih =>
    -- the lines behind the comment decide how deep the block is
    subst hfirst
    rw [blockIndentation_comment (skipBlankLines_of_nextLine? hline) hcomment, ← line.skipSpaces_skipLine] at hdeep
    have hreach := (nextLine?_reaches hline).trans (line.skipSpaces_reaches.trans line.skipSpaces.skipLine_reaches)
    obtain ⟨e, found, n, f, he, hfound, hend, hplain, hwide, hn, hread⟩ :=
      ih hdeep (line.skipSpaces.skipLine_stops.imp_right And.left) rfl
    exact ⟨e, found, n, f, hreach.trans he, hfound, hend, hplain, hwide, mem_append_right _ hn, hread⟩
  | left hline hend hcomment horder =>
    subst hfirst
    rw [blockIndentation_line (skipBlankLines_of_nextLine? hline) hcomment, hend, if_neg Bool.false_ne_true] at hdeep
    rw [hdeep, show p.indentationOrder (some width) width = .eq from Nat.compare_eq_eq.2 rfl] at horder
    cases horder
  | @command first c line n f rest g hline hend hcomment _ hn _ _ =>
    subst hfirst
    rw [blockIndentation_line (skipBlankLines_of_nextLine? hline) hcomment, hend] at hdeep
    exact ⟨c, line, n, f, .refl c, hline, hend, hcomment, hdeep, mem_cons_self, hn⟩

end Parser

end Mcfunction
