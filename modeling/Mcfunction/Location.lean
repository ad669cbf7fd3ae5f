/-! Places in a source text. A location counts bytes of UTF-8 from 0, lines from 1 and characters of
the line from 1; a span is the stretch between two locations. The location with line 0 belongs to no
text at all: nodes made by rules and not by reading carry it. -/

namespace Mcfunction

structure Location where
  offset : Nat
  line : Nat
  column : Nat
  deriving DecidableEq, Inhabited

namespace Location

def origin : Location := ⟨0, 1, 1⟩

def unknown : Location := ⟨0, 0, 0⟩

def isKnown (l : Location) : Bool := 0 < l.line

/-- The place right after the character `c` that stands at `l`. -/
def after (l : Location) (c : Char) : Location :=
  if c = '\n' then ⟨l.offset + c.utf8Size, l.line + 1, 1⟩
  else ⟨l.offset + c.utf8Size, l.line, l.column + 1⟩

def afterAll (l : Location) (cs : List Char) : Location := cs.foldl after l

@[simp] theorem afterAll_nil (l : Location) : l.afterAll [] = l := rfl

@[simp] theorem afterAll_cons (l : Location) (c : Char) (cs : List Char) :
    l.afterAll (c :: cs) = (l.after c).afterAll cs := rfl

theorem afterAll_append (l : Location) (as bs : List Char) :
    l.afterAll (as ++ bs) = (l.afterAll as).afterAll bs := by
  simp [afterAll]

end Location

structure Span where
  start : Location
  stop : Location
  deriving DecidableEq, Inhabited

namespace Span

def unknown : Span := ⟨.unknown, .unknown⟩

/-- The number of bytes in a span; a span that runs backwards has none. -/
def length (s : Span) : Nat := s.stop.offset - s.start.offset

end Span

end Mcfunction
