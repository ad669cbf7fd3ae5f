import Mcfunction.Snbt.Scalar

/-! Reading SNBT: compounds of entries, lists, arrays of integers, and scalars. -/

namespace Mcfunction.Snbt

open Parse

def label : Parse String := do
  let key ←
    if ← atQuote then do
      let (text, _) ← quoted
      pure text
    else do
      let (text, _) ← token Token.word "compound key"
      pure text
  skipSpaces
  expect ":"
  skipSpaces
  return key

def scalar : Parse Node := do
  if ← atQuote then do
    let (text, span) ← quoted
    return ⟨.nbtValue (.string text), span⟩
  else do
    let (text, span) ← token Token.word "nbt value"
    return ⟨.nbtValue (classify text), span⟩

def arrayKind? : List Char → Option ArrayKind
  | '[' :: 'B' :: ';' :: _ => some .byte
  | '[' :: 'I' :: ';' :: _ => some .int
  | '[' :: 'L' :: ';' :: _ => some .long
  | _ => none

def isIntegral (n : Node) : Bool :=
  match n.form with
  | .nbtValue s => s.isIntegral
  | _ => false

def tag (c : Cursor) : Except SyntaxError (Step c Node) :=
  match _h : c.rest with
  | '{' :: _ =>
    let entry (d : Cursor) (_hd : d.remaining ≤ (c.drop 1).remaining) : Except SyntaxError (Step d Node) :=
      match label d with
      | .error e => .error e
      | .ok x =>
        match tag x.next with
        | .error e => .error e
        | .ok y => .ok ⟨⟨.nbtCompoundEntry x.value y.value, y.next.spanFrom d.location⟩, y.next,
            x.ahead.trans y.ahead⟩
    match listWithin '}' entry (c.drop 1) (Nat.le_refl _) with
    | .error e => .error e
    | .ok x => .ok ⟨⟨.nbtCompound x.value, x.next.spanFrom c.location⟩, x.next,
        (c.reaches_drop 1).trans x.ahead⟩
  | '[' :: _ =>
    let array := arrayKind? c.rest
    let opening := if array.isSome then 3 else 1
    let element (d : Cursor) (_hd : d.remaining ≤ (c.drop opening).remaining) :
        Except SyntaxError (Step d Node) :=
      match tag d with
      | .error e => .error e
      | .ok y =>
        if array.isSome ∧ !isIntegral y.value then .error ⟨.notIntegerArray, y.value.span⟩ else .ok y
    match listWithin ']' element (c.drop opening) (Nat.le_refl _) with
    | .error e => .error e
    | .ok x =>
      let form : Form Node := match array with
        | some kind => .nbtArray kind x.value
        | none => .nbtList x.value
      .ok ⟨⟨form, x.next.spanFrom c.location⟩, x.next, (c.reaches_drop opening).trans x.ahead⟩
  | _ => scalar c
termination_by c.remaining
decreasing_by
  · have h₁ : x.next.remaining ≤ d.remaining := x.left_le
    have h₂ : 0 < c.remaining := by simp [Cursor.remaining, _h]
    simp only [Cursor.remaining_drop] at _hd
    omega
  · have h₂ : 0 < c.remaining := by simp [Cursor.remaining, _h]
    have h₃ : 0 < opening := by simp only [opening]; split <;> omega
    simp only [Cursor.remaining_drop] at _hd
    omega

def compound : Parse Node := fun c =>
  if c.peek = some '{' then tag c else .error ⟨.expectedText "\x7b", c.spanHere⟩

theorem scalar_strict : scalar.Strict := by
  refine .bind_right _ fun quote => ?_
  cases quote
  · exact .bind_left (token_strict _ _) _
  · exact .bind_left quoted_strict _

theorem tag_strict : Reader.Strict (tag : Parse Node) := by
  intro c x h
  rw [tag] at h
  have pos {n : Nat} (hn : 0 < n) (hc : c.rest ≠ []) : (c.drop n).remaining < c.remaining := by
    have : 0 < c.remaining := List.length_pos_iff.2 hc
    simp only [Cursor.remaining_drop]
    omega
  split at h
  · rename_i hc
    dsimp only at h
    split at h
    · cases h
    · rename_i y hy
      cases h
      exact Nat.lt_of_le_of_lt y.left_le (pos (by omega) (by simp [hc]))
  · rename_i hc
    dsimp only at h
    split at h
    · cases h
    · rename_i y hy
      cases h
      exact Nat.lt_of_le_of_lt y.left_le (pos (by split <;> omega) (by simp [hc]))
  · exact scalar_strict _ h

theorem compound_strict : compound.Strict := by
  intro c x h
  unfold compound at h
  split at h
  · exact tag_strict _ h
  · cases h

end Mcfunction.Snbt
