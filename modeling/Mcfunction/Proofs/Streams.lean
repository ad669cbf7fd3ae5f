import Mcfunction.Parse.Basic
import Mcfunction.Proofs.Position

/-! A text that is read piece by piece, with places to come back to. Main statement: whatever was read before, the place
where reading goes on is an exact one, between two characters of the text, and a piece is either refused, and nothing
moves, or it is what the place moves over. -/

namespace Mcfunction

open List

/-- The ways to read a piece: the next character, the characters that some bytes touch, a given text, which may be
missing or not, a line end, spaces, a token, a word and a line. -/
inductive Piece where
  | character
  | bytes (count : Nat)
  | given (text : String)
  | required (text : String)
  | lineEnd
  | spaces
  | token (token : Token)
  | word
  | line

namespace Piece

variable {c : Cursor} {α : Type}

def answer (r : Except SyntaxError (Step c α)) (text : α → Option String) : Option String × Cursor :=
  match r with
  | .ok x => (text x.value, x.next)
  | .error _ => (none, c)

/-- The text of the piece that is read at a cursor, if there is one, and where reading goes on. -/
def read : Piece → Cursor → Option String × Cursor
  | .character, c => (c.peek.map String.singleton, c.drop 1)
  | .bytes count, c =>
    (some (String.ofList (c.rest.take (Cursor.charsWithin count c.rest))), c.drop (Cursor.charsWithin count c.rest))
  | .given text, c => answer (Parse.consume text c) fun found => if found then some text else none
  | .required text, c => answer (Parse.expect text c) fun _ => some text
  | .lineEnd, c =>
    (c.skipNewline?.map fun _ => if c.peek = some '\n' then "\n" else "\r\n", c.skipNewline?.getD c)
  | .spaces, c => (some (String.ofList (c.rest.take c.indentation)), c.skipSpaces)
  | .token t, c => answer (Parse.token? t c) fun found => found.map Prod.fst
  | .word, c => answer (Parse.word c) fun found => some found.1
  | .line, c => answer (Parse.line c) fun found => some found.1

/-- A piece is refused and nothing moves, or the cursor moves over it. -/
inductive Moves (c : Cursor) : Option String × Cursor → Prop where
  | refused : Moves c (none, c)
  | read {n : Nat} {text : String} (htext : text.toList = c.rest.take n) : Moves c (some text, c.drop n)

theorem Moves.reaches {r : Option String × Cursor} (h : Moves c r) : c.Reaches r.2 := by
  cases h with
  | refused => exact .refl c
  | read => exact c.reaches_drop _

theorem moves_take (n : Nat) (c : Cursor) : Moves c (some (String.ofList (c.rest.take n)), c.drop n) :=
  .read String.toList_ofList

theorem consume_cases (text : String) (c : Cursor) :
    Parse.consume text c = .ok ⟨false, c, .refl c⟩ ∨ text.toList = c.rest.take text.toList.length ∧
      Parse.consume text c = .ok ⟨true, c.drop text.toList.length, c.reaches_drop _⟩ := by
  cases hp : text.toList.isPrefixOf c.rest with
  | false =>
    simp only [Parse.consume, bind, Reader.bind, Reader.look, hp]
    exact .inl rfl
  | true =>
    simp only [Parse.consume, bind, Reader.bind, Reader.look, hp]
    exact .inr ⟨prefix_iff_eq_take.1 (List.isPrefixOf_iff_prefix.1 hp), rfl⟩

theorem read_moves (piece : Piece) (c : Cursor) : Moves c (piece.read c) := by
  cases piece with
  | character =>
    obtain ⟨rest, l⟩ := c
    cases rest with
    | nil => exact .refused
    | cons ch rest => exact .read (by simp)
  | bytes | spaces | word | line => exact moves_take _ c
  | given text =>
    rw [read]
    rcases consume_cases text c with hno | ⟨htext, hyes⟩
    · rw [hno]
      exact .refused
    · rw [hyes]
      exact .read htext
  | required text =>
    rw [read, Parse.expect]
    simp only [bind, Reader.bind]
    rcases consume_cases text c with hno | ⟨htext, hyes⟩
    · rw [hno]
      exact .refused
    · rw [hyes]
      exact .read htext
  | lineEnd =>
    rw [read]
    cases hnext : c.skipNewline? with
    | none => exact .refused
    | some d =>
      rw [Cursor.skipNewline?] at hnext
      split at hnext
      · rename_i rest hrest
        cases hnext
        exact .read (by simp [Cursor.peek, hrest])
      · rename_i rest hrest
        cases hnext
        exact .read (by simp [Cursor.peek, hrest])
      · cases hnext
  | token t =>
    rw [read, Parse.token?]
    simp only [bind, Reader.bind, Reader.look]
    generalize (if c.rest = [] then 0 else t c.rest) = n
    by_cases hn : n = 0
    · rw [if_pos hn]
      exact .refused
    · rw [if_neg hn]
      exact moves_take n c

end Piece

/-! ### Places to come back to -/

inductive StreamStep where
  | read (piece : Piece)
  | skipBlankLines
  | save
  | restore (n : Nat)

/-- The place where a text is read, and the places that were saved. -/
structure Stream where
  here : Cursor
  saved : List Cursor := []

namespace Stream

def step (s : Stream) : StreamStep → Stream
  | .read piece => { s with here := (piece.read s.here).2 }
  | .skipBlankLines => { s with here := s.here.skipBlankLines }
  | .save => { s with saved := s.saved ++ [s.here] }
  | .restore n => { s with here := s.saved[n]?.getD s.here }

def run (source : String) (steps : List StreamStep) : Stream := steps.foldl step { here := .start source }

/-- All places of a stream were reached from the start of its text. -/
def Reached (source : String) (s : Stream) : Prop := ∀ c ∈ s.here :: s.saved, (Cursor.start source).Reaches c

theorem Reached.step {source : String} {s : Stream} (h : s.Reached source) (step : StreamStep) :
    (s.step step).Reached source := by
  obtain ⟨hhere, hsaved⟩ := forall_mem_cons.1 h
  cases step with
  | read piece => exact forall_mem_cons.2 ⟨hhere.trans (piece.read_moves s.here).reaches, hsaved⟩
  | skipBlankLines => exact forall_mem_cons.2 ⟨hhere.trans s.here.skipBlankLines_reaches, hsaved⟩
  | save => exact forall_mem_cons.2 ⟨hhere, forall_mem_append.2 ⟨hsaved, forall_mem_singleton.2 hhere⟩⟩
  | restore n =>
    refine forall_mem_cons.2 ⟨?_, hsaved⟩
    dsimp only [Stream.step]
    cases hn : s.saved[n]? with
    | none => exact hhere
    | some c => exact hsaved c (mem_of_getElem? hn)

end Stream

end Mcfunction
