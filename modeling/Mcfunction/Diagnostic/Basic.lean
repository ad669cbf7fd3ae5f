import Mcfunction.SyntaxError

/-! Diagnostics: what is reported about function files, and collections of it. -/

namespace Mcfunction

inductive Level where
  | info
  | warn
  | error
  deriving DecidableEq

namespace Level

def name : Level → String
  | .info => "INFO"
  | .warn => "WARN"
  | .error => "ERROR"

def rank : Level → Nat
  | .info => 0
  | .warn => 1
  | .error => 2

def max (a b : Level) : Level := if a.rank < b.rank then b else a

end Level

structure Handle where
  index : Nat
  deriving DecidableEq

def Handle.write (h : Handle) : String := "#" ++ toString h.index

structure Note where
  label : String
  span : Span
  deriving DecidableEq

structure Diagnostic where
  level : Level
  message : String
  rule : Option String := none
  hint : Option String := none
  filename : Option String := none
  file : Option Handle := none
  start : Option Location := none
  stop : Option Location := none
  notes : List Note := []
  deriving DecidableEq

namespace Diagnostic

def isError (d : Diagnostic) : Bool := d.level = .error

/-- The diagnostic with a span, unless the span was never written down. -/
def withSpan (d : Diagnostic) (s : Span) : Diagnostic :=
  if s.start.isKnown then { d with start := some s.start, stop := some s.stop } else d

def span? (d : Diagnostic) : Option Span := d.start.map fun l => ⟨l, d.stop.getD l⟩

/-- The name of the file: the file name, or else the resource name. -/
def place? (d : Diagnostic) : Option String := d.filename <|> d.hint

end Diagnostic

def SyntaxError.rule : String := "parse"

def SyntaxError.diagnostic (e : SyntaxError) : Diagnostic :=
  { level := .error, message := e.message, rule := some SyntaxError.rule : Diagnostic }.withSpan e.span

/-- Diagnostics, and what they get if they do not have it themselves. -/
structure Diagnostics where
  entries : List Diagnostic := []
  rule : Option String := none
  hint : Option String := none
  filename : Option String := none
  file : Option Handle := none
  deriving DecidableEq

namespace Diagnostics

def empty : Diagnostics := {}

def stamp (ds : Diagnostics) (d : Diagnostic) : Diagnostic :=
  { d with
    rule := d.rule <|> ds.rule
    hint := d.hint <|> ds.hint
    filename := d.filename <|> ds.filename
    file := d.file <|> ds.file }

def add (ds : Diagnostics) (d : Diagnostic) : Diagnostics := { ds with entries := ds.entries ++ [ds.stamp d] }

def extend (ds other : Diagnostics) : Diagnostics := other.entries.foldl add ds

def errorCount (ds : Diagnostics) : Nat := ds.entries.countP Diagnostic.isError

def hasErrors (ds : Diagnostics) : Bool := ds.entries.any Diagnostic.isError

def highest? (ds : Diagnostics) : Option Level :=
  ds.entries.foldl (fun l d => some (match l with
    | some l => l.max d.level
    | none => d.level)) none

/-- Whether `a` comes before `b` or with it: by file, then by place in the file, where what has no place
comes last. -/
def inOrder (a b : Diagnostic) : Bool :=
  match a.place?, b.place? with
  | none, some _ => true
  | some _, none => false
  | none, none => placed a b
  | some x, some y => decide (x < y) || (x = y && placed a b)
where
  placed (a b : Diagnostic) : Bool :=
    match a.start, b.start with
    | _, none => true
    | none, some _ => false
    | some l, some m => l.offset ≤ m.offset

def sorted (ds : Diagnostics) : List Diagnostic := ds.entries.mergeSort inOrder

def failureMessage (ds : Diagnostics) : String :=
  "compilation failed with " ++ toString ds.errorCount ++ " error(s)"

end Diagnostics

end Mcfunction
