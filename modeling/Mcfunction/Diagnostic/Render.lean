import Mcfunction.Diagnostic.Basic
import Mcfunction.Text.Lines
import Mcfunction.Text.Width

/-! The text of diagnostics: a line with the level, the message and the rule, a line with the place, and,
if the source is at hand, the lines of the source with the span underlined. -/

namespace Mcfunction

namespace Text

def alignRight (n : Nat) (text : String) : String :=
  String.ofList (List.replicate (n - text.length) ' ') ++ text

def alignLeft (n : Nat) (text : String) : String :=
  text ++ String.ofList (List.replicate (n - text.length) ' ')

end Text

namespace Snippet

/-- The marks under the columns from `first` up to `last` of a line. There is at least one mark. -/
def marks (line : List Char) (first last : Nat) : String :=
  let before := Text.width (String.ofList (line.take (first - 1)))
  let marked := Text.width (String.ofList ((line.drop (first - 1)).take (last - first)))
  String.ofList (List.replicate before ' ' ++ List.replicate (max marked 1) '^')

/-- The lines that show line `n`, of which the first is line 1, with its marks if the span covers it. -/
def lineWithMarks (s : Span) (lastLine width n : Nat) (line : List Char) : List String :=
  let shown := Text.alignRight width (toString n) ++ " | " ++ String.ofList line
  if n < s.start.line then [shown]
  else
    let first := if n = s.start.line then s.start.column else 1
    let last := if n = lastLine ∧ s.stop.line = lastLine then s.stop.column else line.length + 1
    [shown, Text.alignRight width "" ++ " | " ++ marks line first last]

/-- The lines of a source that a span covers, and the line before them, with the span underlined. There is
nothing to show if the span starts on no line of the source. -/
def render? (source : String) (s : Span) : Option (List String) :=
  let lines := Text.lines source.toList
  if s.start.line = 0 ∨ lines.length < s.start.line then none
  else
    let lastLine := max s.start.line (min s.stop.line lines.length)
    let firstLine := max (s.start.line - 1) 1
    let width := (toString lastLine).length + 2
    some (((lines.drop (firstLine - 1)).take (lastLine + 1 - firstLine)).zipIdx.flatMap fun (line, i) =>
      lineWithMarks s lastLine width (firstLine + i) line)

end Snippet

namespace Diagnostic

def header (d : Diagnostic) : String :=
  Text.alignLeft 7 d.level.name ++ d.message ++ match d.rule with
    | some rule => " (" ++ rule ++ ")"
    | none => ""

def placeLine? (d : Diagnostic) : Option String :=
  match d.place?, d.start with
  | some file, some l => some (file ++ ":" ++ toString l.line ++ ":" ++ toString l.column)
  | none, some l => some ("line " ++ toString l.line ++ ", column " ++ toString l.column)
  | some file, none => some file
  | none, none => none

def snippet (d : Diagnostic) (source : Option String) : List String :=
  match d.span?, source with
  | some s, some text => (Snippet.render? text s).getD []
  | _, _ => []

/-- The text of a diagnostic, with its place shown in the source if that is given. -/
def render (d : Diagnostic) (source : Option String) : String :=
  "\n".intercalate (d.header :: (d.placeLine?.toList ++ d.snippet source))

end Diagnostic

def Diagnostics.render (ds : Diagnostics) (sourceOf : Diagnostic → Option String) : String :=
  "\n\n".intercalate (ds.sorted.map fun d => d.render (sourceOf d))

/-! ### Annotated sources -/

/-- A part of a source with a label, as offset and length in bytes. -/
structure Label where
  text : String
  offset : Nat
  length : Nat

structure Annotation where
  message : String
  code? : Option String
  severity : String
  help? : Option String
  sourceName? : Option String
  labels? : Option (List Label)

namespace Diagnostic

def severity (d : Diagnostic) : String :=
  match d.level with
  | .error => "Error"
  | .warn => "Warning"
  | .info => "Advice"

def label (text : String) (s : Span) : Label := ⟨text, s.start.offset, s.length⟩

/-- What a graphical report shows: labels need a source and a place. -/
def annotate (d : Diagnostic) (source : Option String) : Annotation :=
  { message := d.message
    code? := d.rule
    severity := d.severity
    help? := d.hint.map ("in " ++ ·)
    sourceName? := source.map fun _ => d.place?.getD "<unknown>"
    labels? := match source, d.span? with
      | some _, some s => some (label d.message s :: d.notes.map fun n => label n.label n.span)
      | _, _ => none }

end Diagnostic

end Mcfunction
