import Mcfunction.Location
import Mcfunction.Reader

/-! A cursor is a place in a text together with everything that is still to be read there. It only
ever moves forward, one character at a time, and `Cursor.Reaches` says so: whatever reads at a cursor
ends at a cursor that is some number of characters further on. -/

namespace Mcfunction

structure Cursor where
  rest : List Char
  location : Location
  deriving DecidableEq

namespace Cursor

def start (text : String) : Cursor := ⟨text.toList, .origin⟩

def remaining (c : Cursor) : Nat := c.rest.length

/-- Moves over `n` characters, or to the end of the text if there are fewer. -/
def drop : Nat → Cursor → Cursor
  | 0, c => c
  | _ + 1, ⟨[], l⟩ => ⟨[], l⟩
  | n + 1, ⟨ch :: rest, l⟩ => drop n ⟨rest, l.after ch⟩

@[simp] theorem drop_zero (c : Cursor) : c.drop 0 = c := rfl

@[simp] theorem drop_succ_cons (n : Nat) (ch : Char) (rest : List Char) (l : Location) :
    drop (n + 1) ⟨ch :: rest, l⟩ = drop n ⟨rest, l.after ch⟩ := rfl

@[simp] theorem drop_nil (n : Nat) (l : Location) : drop n ⟨[], l⟩ = ⟨[], l⟩ := by
  cases n <;> rfl

theorem drop_eq (n : Nat) (c : Cursor) :
    c.drop n = ⟨c.rest.drop n, c.location.afterAll (c.rest.take n)⟩ := by
  obtain ⟨rest, l⟩ := c
  induction n generalizing rest l with
  | zero => simp
  | succ n ih => cases rest <;> simp [ih]

theorem drop_drop (m n : Nat) (c : Cursor) : (c.drop m).drop n = c.drop (m + n) := by
  simp only [drop_eq, List.drop_drop, ← Location.afterAll_append, mk.injEq, true_and]
  rw [List.take_add]

@[simp] theorem remaining_drop (n : Nat) (c : Cursor) : (c.drop n).remaining = c.remaining - n := by
  simp [drop_eq, remaining]

/-- What a cursor has if all with less text behind them have it, every cursor has. -/
theorem induct {P : Cursor → Prop} (hstep : ∀ c, (∀ d : Cursor, d.remaining < c.remaining → P d) → P c) (c : Cursor) :
    P c :=
  (measure remaining).wf.induction c hstep

def Reaches (c d : Cursor) : Prop := ∃ n, d = c.drop n

theorem Reaches.refl (c : Cursor) : c.Reaches c := ⟨0, rfl⟩

theorem Reaches.trans {c d e : Cursor} : c.Reaches d → d.Reaches e → c.Reaches e := by
  rintro ⟨m, rfl⟩ ⟨n, rfl⟩
  exact ⟨m + n, drop_drop m n c⟩

theorem Reaches.remaining_le {c d : Cursor} : c.Reaches d → d.remaining ≤ c.remaining := by
  rintro ⟨n, rfl⟩
  simp

theorem reaches_drop (n : Nat) (c : Cursor) : c.Reaches (c.drop n) := ⟨n, rfl⟩

instance : Forward Cursor where
  Ahead := Reaches
  refl := Reaches.refl
  trans := Reaches.trans
  left := remaining
  left_le := Reaches.remaining_le

def stepOver (c : Cursor) (n : Nat) : Step c Unit := ⟨(), c.drop n, c.reaches_drop n⟩

def peek (c : Cursor) : Option Char := c.rest.head?

theorem drop_one_remaining (c : Cursor) {ch : Char} (h : c.peek = some ch) :
    (c.drop 1).remaining < c.remaining := by
  obtain ⟨rest, l⟩ := c
  cases rest with
  | nil => cases h
  | cons x xs => simp [remaining]

def atEnd (c : Cursor) : Bool := c.rest.isEmpty

/-- Whether the line ends here: at the end of the text, at a line feed, or at a carriage return
followed by one. -/
def atLineEnd (c : Cursor) : Bool :=
  match c.rest with
  | [] => true
  | '\n' :: _ => true
  | '\r' :: '\n' :: _ => true
  | _ => false

def atLineStart (c : Cursor) : Bool := c.location.column = 1

/-- The rest of the line, without the line feed and one carriage return before its end. -/
def lineRest (c : Cursor) : List Char :=
  let line := c.rest.takeWhile (· ≠ '\n')
  if line.getLast? = some '\r' then line.dropLast else line

def isSpace (ch : Char) : Bool := ch = ' ' || ch = '\t'

def indentation (c : Cursor) : Nat := (c.rest.takeWhile isSpace).length

/-- Whether the line holds nothing but a comment, at any indentation. -/
def atComment (c : Cursor) : Bool := (c.rest.dropWhile isSpace).head? = some '#'

def skipSpaces (c : Cursor) : Cursor := c.drop c.indentation

/-- Moves over a line end, if there is one here other than the end of the text. -/
def skipNewline? (c : Cursor) : Option Cursor :=
  match c.rest with
  | '\n' :: _ => some (c.drop 1)
  | '\r' :: '\n' :: _ => some (c.drop 2)
  | _ => none

theorem skipNewline?_remaining {c d : Cursor} (h : c.skipNewline? = some d) :
    d.remaining < c.remaining := by
  unfold skipNewline? at h
  split at h
  · rename_i hrest
    cases h
    have hpos : 0 < c.remaining := by simp only [remaining, hrest, List.length_cons, Nat.zero_lt_succ]
    rw [remaining_drop]
    omega
  · rename_i hrest
    cases h
    have hpos : 0 < c.remaining := by simp only [remaining, hrest, List.length_cons, Nat.zero_lt_succ]
    rw [remaining_drop]
    omega
  · cases h

theorem skipNewline?_reaches {c d : Cursor} (h : c.skipNewline? = some d) : c.Reaches d := by
  unfold skipNewline? at h
  split at h <;> cases h <;> exact reaches_drop _ _

theorem skipSpaces_remaining_le (c : Cursor) : c.skipSpaces.remaining ≤ c.remaining := by
  simp [skipSpaces]

/-- Moves over blank lines. The cursor stops before the first line that holds something, or at the
end of the text. -/
def skipBlankLines (c : Cursor) : Cursor :=
  if c.skipSpaces.atEnd then c.skipSpaces
  else
    match _h : c.skipSpaces.skipNewline? with
    | some d => d.skipBlankLines
    | none => c
termination_by c.remaining
decreasing_by
  have := skipNewline?_remaining _h
  have := c.skipSpaces_remaining_le
  omega

theorem skipBlankLines_reaches (c : Cursor) : c.Reaches c.skipBlankLines := by
  fun_induction skipBlankLines c with
  | case1 c h => exact reaches_drop _ _
  | case2 c h d hd ih => exact ((reaches_drop _ _).trans (skipNewline?_reaches hd)).trans ih
  | case3 c h hd => exact .refl c

/-- The number of characters that the first `n` bytes of a text touch. -/
def charsWithin : Nat → List Char → Nat
  | 0, _ => 0
  | _, [] => 0
  | n + 1, c :: cs => 1 + charsWithin (n + 1 - c.utf8Size) cs

def spanFrom (c : Cursor) (first : Location) : Span := ⟨first, c.location⟩

/-- The span of the character at the cursor, empty at a line feed and at the end of the text. -/
def spanHere (c : Cursor) : Span :=
  match c.rest with
  | [] => ⟨c.location, c.location⟩
  | ch :: _ => if ch = '\n' then ⟨c.location, c.location⟩ else ⟨c.location, c.location.after ch⟩

end Cursor

end Mcfunction
