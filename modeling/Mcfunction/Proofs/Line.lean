import Mathlib.Data.List.Basic
import Mathlib.Data.List.TakeWhile
import Mcfunction.Parse.Command

/-! Moves within a line. A cursor lies on the line of another if no line feed was read on the way; the
spaces, the rest of a line and every token are such moves. -/

namespace Mcfunction

open List

variable {c d e : Cursor} {α : Type} {x ch : Char}

namespace Cursor

/-- Some number of characters after `c`, none of them a line feed, lies `d`. -/
def OnLine (c d : Cursor) : Prop := ∃ n, d = c.drop n ∧ '\n' ∉ c.rest.take n

theorem OnLine.refl (c : Cursor) : c.OnLine c := ⟨0, rfl, not_mem_nil⟩

theorem OnLine.reaches : c.OnLine d → c.Reaches d := by
  rintro ⟨n, rfl, -⟩
  exact reaches_drop n c

@[simp] theorem rest_drop (n : Nat) (c : Cursor) : (c.drop n).rest = c.rest.drop n := by
  rw [drop_eq]

theorem OnLine.trans : c.OnLine d → d.OnLine e → c.OnLine e := by
  rintro ⟨m, rfl, hm⟩ ⟨n, rfl, hn⟩
  refine ⟨m + n, drop_drop m n c, ?_⟩
  rw [rest_drop] at hn
  rw [take_add, mem_append, not_or]
  exact ⟨hm, hn⟩

theorem onLine_drop {n : Nat} (h : '\n' ∉ c.rest.take n) : c.OnLine (c.drop n) := ⟨n, rfl, h⟩

theorem onLine_over (hne : ch ≠ '\n') (h : c.peek = some ch) : c.OnLine (c.drop 1) := by
  obtain ⟨rest, l⟩ := c
  obtain ⟨rest, rfl⟩ := head?_eq_some_iff.1 h
  exact onLine_drop (by simpa using hne.symm)

theorem take_length_takeWhile (q : α → Bool) (cs : List α) : cs.take (cs.takeWhile q).length = cs.takeWhile q :=
  (prefix_iff_eq_take.1 (List.takeWhile_prefix q)).symm

theorem drop_length_takeWhile (q : α → Bool) (cs : List α) : cs.drop (cs.takeWhile q).length = cs.dropWhile q := by
  have hdrop : (cs.takeWhile q ++ cs.dropWhile q).drop (cs.takeWhile q).length = cs.dropWhile q := drop_left
  rwa [takeWhile_append_dropWhile] at hdrop

theorem not_mem_takeWhile {q : Char → Bool} (hq : q x = false) (cs : List Char) : x ∉ cs.takeWhile q := by
  intro hmem
  have := mem_takeWhile_imp hmem
  rw [hq] at this
  cases this

theorem skipSpaces_onLine (c : Cursor) : c.OnLine c.skipSpaces := by
  refine onLine_drop ?_
  rw [indentation, take_length_takeWhile]
  exact not_mem_takeWhile rfl c.rest

theorem rest_eq_lineRest (c : Cursor) :
    ∃ tail, c.rest = c.lineRest ++ tail ∧ ∀ x, tail.head? = some x → x = '\n' ∨ x = '\r' := by
  have hsplit := takeWhile_append_dropWhile (p := fun x => decide (x ≠ '\n')) (l := c.rest)
  unfold lineRest
  dsimp only
  split
  · rename_i hlast
    refine ⟨'\r' :: c.rest.dropWhile (· ≠ '\n'), ?_, fun x hx => .inr (Option.some.inj hx).symm⟩
    rw [append_cons, dropLast_append_getLast? '\r' hlast]
    exact hsplit.symm
  · refine ⟨c.rest.dropWhile (· ≠ '\n'), hsplit.symm, ?_⟩
    intro x hx
    have hdrop := head?_dropWhile_not (fun x => decide (x ≠ '\n')) c.rest
    rw [hx] at hdrop
    exact .inl (by simpa using hdrop)

theorem newline_not_mem_lineRest (c : Cursor) : '\n' ∉ c.lineRest := by
  have hline : '\n' ∉ c.rest.takeWhile (· ≠ '\n') := not_mem_takeWhile rfl c.rest
  unfold lineRest
  dsimp only
  split
  · exact fun hmem => hline (dropLast_subset _ hmem)
  · exact hline

theorem take_lineRest (c : Cursor) : c.rest.take c.lineRest.length = c.lineRest := by
  obtain ⟨tail, htail, -⟩ := c.rest_eq_lineRest
  conv => lhs; rw [htail]
  exact take_left

theorem skipLine_onLine (c : Cursor) : c.OnLine c.skipLine := by
  refine onLine_drop ?_
  rw [take_lineRest]
  exact c.newline_not_mem_lineRest

theorem skipLine_peek (h : c.skipLine.peek = some x) : x = '\n' ∨ x = '\r' := by
  obtain ⟨tail, htail, hhead⟩ := c.rest_eq_lineRest
  apply hhead
  rw [skipLine, peek, rest_drop, htail, drop_left] at h
  exact h

end Cursor

end Mcfunction
