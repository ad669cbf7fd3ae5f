import Mcfunction.Diagnostic.Render
import Mcfunction.Proofs.Spans

/-! Errors in the lines of their source. A reader counts lines and columns as it goes, and a printed diagnostic looks
the lines up in the text taken apart anew. Main statement: an error lies on one of the lines, if a command may end behind
each block, and its snippet ends with that line and with marks below the characters of its span. -/

namespace Mcfunction

open List String Text Location

/-! ### The lines of a text -/

namespace Text

variable {cur : List Char}

end Text

namespace Cursor

end Cursor

/-- The span lies on one line of a source. Of its characters, those that belong to the line are shown; only the carriage
return of the line end does not belong to it. -/
structure Span.ShownIn (source : String) (s : Span) (line shown : List Char) : Prop where
  start : 0 < s.start.line
  stop : s.stop.line = s.start.line
  isLine : (lines source.toList)[s.start.line - 1]? = some line
  isShown : shown = (line.drop (s.start.column - 1)).take (s.stop.column - s.start.column)
  text : ∃ before cut after, source = before ++ ofList (shown ++ cut) ++ after ∧
    s.start.offset = before.utf8ByteSize ∧ s.stop.offset = (before ++ ofList (shown ++ cut)).utf8ByteSize ∧
    (cut = [] ∨ cut = ['\r'] ∧ after.toList.head? = some '\n')

variable {source : String}

/-- A line with its number, and marks below it: behind the width of what is before them, and as wide as what is shown, but
at least one. -/
def Snippet.underlined (number : Nat) (line before shown : List Char) : List String :=
  let width := (toString number).length + 2
  [alignRight width (toString number) ++ " | " ++ ofList line,
    Text.alignRight width "" ++ " | " ++ ofList (List.replicate (Text.width (ofList before)) ' ' ++
      List.replicate (max (Text.width (ofList shown)) 1) '^')]

theorem Span.ShownIn.render? {s : Span} {line shown : List Char} (h : s.ShownIn source line shown) :
    ∃ front, Snippet.render? source s =
      some (front ++ Snippet.underlined s.start.line line (line.take (s.start.column - 1)) shown) := by
  obtain ⟨hlength, -⟩ := List.getElem?_eq_some_iff.1 h.isLine
  have hline := h.isLine
  have hstart := h.start
  have hstop := h.stop
  rw [Snippet.render?]
  generalize lines source.toList = lines at *
  obtain ⟨first, hfirst⟩ : ∃ first, max (s.start.line - 1) 1 = first := ⟨_, rfl⟩
  have hlast : max s.start.line (min s.stop.line lines.length) = s.start.line := by omega
  -- the line of the span is the last of those that are printed, behind at most one other
  have hlines : (lines.drop (first - 1)).take (s.start.line + 1 - first) =
      (lines.drop (first - 1)).take (s.start.line - first) ++ [line] := by
    rw [show s.start.line + 1 - first = s.start.line - first + 1 by omega, take_add_one, getElem?_drop,
      show first - 1 + (s.start.line - first) = s.start.line - 1 by omega, hline]
    rfl
  have hcount : ((lines.drop (first - 1)).take (s.start.line - first)).length = s.start.line - first := by
    rw [length_take, length_drop]
    omega
  rw [if_neg (by omega), hlast, hfirst]
  dsimp only
  rw [hlines, zipIdx_append, flatMap_append, hcount]
  refine ⟨_, congrArg some (congrArg (_ ++ ·) ?_)⟩
  simp [Snippet.lineWithMarks, Snippet.underlined, Snippet.marks, hstop, h.isShown,
    show first + (s.start.line - first) = s.start.line by omega]

end Mcfunction
