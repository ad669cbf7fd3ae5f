import Mcfunction.Cursor
import Mcfunction.Node.Basic
import Mcfunction.SyntaxError
import Mcfunction.Token

/-! Reading function files: what every reader of arguments is made of, and which of these readers are
strict. -/

namespace Mcfunction

abbrev Parse := Reader Cursor SyntaxError

namespace Parse

variable {α : Type}

def fail (complaint : Complaint) : Parse α := Reader.failHere fun c => ⟨complaint, c.spanHere⟩

def failAt (span : Span) (complaint : Complaint) : Parse α := Reader.fail ⟨complaint, span⟩

def peek : Parse (Option Char) := Reader.look Cursor.peek

def here : Parse Location := Reader.look Cursor.location

def advance (n : Nat) : Parse Unit := fun c => .ok (c.stepOver n)

def skipSpaces : Parse Unit := fun c => .ok ⟨(), c.skipSpaces, c.reaches_drop _⟩

def spanned (r : Parse α) : Parse (α × Span) := do
  let first ← here
  let a ← r
  let last ← here
  return (a, ⟨first, last⟩)

/-- Reads the form of a node, which gets the span that was read. -/
def node (r : Parse (Form Node)) : Parse Node := do
  let (form, span) ← spanned r
  return ⟨form, span⟩

def take (n : Nat) : Parse (String × Span) := spanned do
  let text ← Reader.look fun (c : Cursor) => c.rest.take n
  advance n
  return String.ofList text

def token? (token : Token) : Parse (Option (String × Span)) := do
  let n ← Reader.look fun (c : Cursor) => if c.rest = [] then 0 else token c.rest
  if n = 0 then return none else return some (← take n)

def token (token : Token) (what : String) : Parse (String × Span) := do
  match ← token? token with
  | some found => return found
  | none => fail (.expected what)

def consume (text : String) : Parse Bool := do
  if ← Reader.look fun (c : Cursor) => text.toList.isPrefixOf c.rest then do
    advance text.toList.length
    return true
  else return false

def expect (text : String) : Parse Unit := do
  if ← consume text then return () else fail (.expectedText text)

def word : Parse (String × Span) := do
  take (← Reader.look fun (c : Cursor) => Token.value c.rest)

def line : Parse (String × Span) := do
  take (← Reader.look fun (c : Cursor) => c.lineRest.length)

/-! ### Lists -/

/-- Reads items with commas between them up to the closing bracket, onto those read so far. The reader
of an item is told that it starts within the limit. -/
def items {limit : Nat} (close : Char)
    (item : (c : Cursor) → c.remaining ≤ limit → Except SyntaxError (Step c α))
    (read : List α) (c : Cursor) (h : c.remaining ≤ limit) : Except SyntaxError (Step c (List α)) :=
  match item c.skipSpaces (Nat.le_trans c.skipSpaces_remaining_le h) with
  | .error e => .error e
  | .ok x =>
    have hx : c.Reaches x.next.skipSpaces :=
      (c.reaches_drop _).trans (x.ahead.trans (x.next.reaches_drop _))
    if hnext : x.next.skipSpaces.peek = some ',' then
      have hlt : (x.next.skipSpaces.drop 1).remaining < c.remaining := by
        have h₁ := hx.remaining_le
        have h₂ : 0 < x.next.skipSpaces.remaining := by
          cases hr : x.next.skipSpaces.rest <;> simp_all [Cursor.peek, Cursor.remaining]
        simp only [Cursor.remaining_drop]
        omega
      match items close item (x.value :: read) (x.next.skipSpaces.drop 1) (by omega) with
      | .error e => .error e
      | .ok y => .ok (y.since (hx.trans (Cursor.reaches_drop 1 _)))
    else if x.next.skipSpaces.peek = some close then
      .ok ⟨(x.value :: read).reverse, x.next.skipSpaces.drop 1, hx.trans (Cursor.reaches_drop 1 _)⟩
    else .error ⟨.expectedCommaOr close, x.next.skipSpaces.spanHere⟩
termination_by c.remaining
decreasing_by exact hlt

def listWithin {limit : Nat} (close : Char)
    (item : (c : Cursor) → c.remaining ≤ limit → Except SyntaxError (Step c α))
    (c : Cursor) (h : c.remaining ≤ limit) : Except SyntaxError (Step c (List α)) :=
  if c.skipSpaces.peek = some close then
    .ok ⟨[], c.skipSpaces.drop 1, (c.reaches_drop _).trans (Cursor.reaches_drop 1 _)⟩
  else
    match items close item [] c.skipSpaces (Nat.le_trans c.skipSpaces_remaining_le h) with
    | .error e => .error e
    | .ok x => .ok (x.since (c.reaches_drop _))

def list (close : Char) (item : Parse α) : Parse (List α) := fun c =>
  listWithin close (fun d (_ : d.remaining ≤ c.remaining) => item d) c (Nat.le_refl _)

/-! ### Strictness -/

theorem spanned_strict {r : Parse α} (h : r.Strict) : (spanned r).Strict :=
  .bind_right _ fun _ => .bind_left h _

theorem node_strict {r : Parse (Form Node)} (h : r.Strict) : (node r).Strict :=
  .bind_left (spanned_strict h) _

theorem advance_strict {n : Nat} {c : Cursor} {x : Step c Unit} (hn : 0 < n) (hc : c.rest ≠ [])
    (h : advance n c = .ok x) : x.next.remaining < c.remaining := by
  cases h
  have : 0 < c.remaining := List.length_pos_iff.2 hc
  rw [Cursor.stepOver, Cursor.remaining_drop]
  omega

theorem consume_strict {text : String} {c : Cursor} {x : Step c Bool} (ht : text.toList ≠ [])
    (h : consume text c = .ok x) (hx : x.value = true) : x.next.remaining < c.remaining := by
  obtain ⟨y, z, hy, hz, rfl⟩ := Reader.bind_ok h
  cases hy
  by_cases hp : text.toList.isPrefixOf c.rest = true
  · obtain ⟨rest, hrest⟩ := List.isPrefixOf_iff_prefix.1 hp
    simp only [hp] at hz
    cases hz
    refine advance_strict (List.length_pos_iff.2 ht) ?_ rfl
    rw [← hrest]
    exact List.append_ne_nil_of_left_ne_nil ht rest
  · simp only [hp] at hz
    cases hz
    cases hx

theorem take_strict {n : Nat} {c : Cursor} {x : Step c (String × Span)} (hn : 0 < n) (hc : c.rest ≠ [])
    (h : take n c = .ok x) : x.next.remaining < c.remaining := by
  cases h
  exact advance_strict hn hc rfl

theorem token?_some_strict {t : Token} {c : Cursor} {x : Step c (Option (String × Span))}
    (h : token? t c = .ok x) (hx : x.value.isSome) : x.next.remaining < c.remaining := by
  simp only [token?, bind, Reader.bind, Reader.look] at h
  by_cases hc : c.rest = []
  · simp [hc] at h
    cases h
    cases hx
  · by_cases hn : t c.rest = 0
    · simp [hn] at h
      cases h
      cases hx
    · simp [hc, hn] at h
      cases h
      exact take_strict (Nat.pos_of_ne_zero hn) hc rfl

theorem token_strict (t : Token) (what : String) : (token t what).Strict := by
  intro c x h
  obtain ⟨y, z, hy, hz, rfl⟩ := Reader.bind_ok h
  cases hv : y.value with
  | none =>
    rw [hv] at hz
    cases hz
  | some found =>
    have hlt := token?_some_strict hy (by simp [hv])
    exact Nat.lt_of_le_of_lt z.left_le hlt

end Parse

end Mcfunction
