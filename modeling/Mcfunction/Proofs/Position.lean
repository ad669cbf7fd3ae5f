import Mathlib.Data.List.Induction
import Mcfunction.Proofs.Line

/-! Exact positions. A location marks a place of a text if the bytes, the lines and the characters of the
last line before it are what it counts. Main statement: a cursor that was reached from the start of a text
marks a place of that text, and what was read since then lies between the two places. -/

namespace Mcfunction

open List String Location Cursor

/-- The location is the place in a text behind some part of it: as many bytes, one more than the line
feeds, and one more than the characters since the last line feed are before it. -/
def Location.Marks (source : String) (l : Location) : Prop :=
  ∃ before after : String, source = before ++ after ∧ l.offset = before.utf8ByteSize ∧
    l.line = 1 + before.toList.count '\n' ∧
    l.column = 1 + (before.toList.reverse.takeWhile (· ≠ '\n')).length

/-- Both ends of a span mark places of a text, in order. -/
structure Span.Marks (source : String) (s : Span) : Prop where
  start : s.start.Marks source
  stop : s.stop.Marks source
  ordered : s.start.offset ≤ s.stop.offset

namespace Location

theorem afterAll_snoc (l : Location) (cs : List Char) (c : Char) :
    l.afterAll (cs ++ [c]) = (l.afterAll cs).after c := by
  rw [afterAll_append]
  rfl

theorem offset_after (l : Location) (c : Char) : (l.after c).offset = l.offset + c.utf8Size := by
  rw [after]
  split <;> rfl

theorem offset_afterAll (l : Location) (cs : List Char) :
    (l.afterAll cs).offset = l.offset + (ofList cs).utf8ByteSize := by
  induction cs generalizing l with
  | nil => simp
  | cons c cs ih =>
    have hsize : (ofList (c :: cs)).utf8ByteSize = c.utf8Size + (ofList cs).utf8ByteSize := by
      rw [← singleton_append, ofList_append, utf8ByteSize_append, ← singleton_eq_ofList, utf8ByteSize_singleton]
    rw [afterAll_cons, ih, offset_after, hsize]
    omega

theorem line_afterAll (l : Location) (cs : List Char) : (l.afterAll cs).line = l.line + cs.count '\n' := by
  induction cs generalizing l with
  | nil => rfl
  | cons c cs ih =>
    rw [afterAll_cons, ih, after]
    by_cases hc : c = '\n'
    · rw [if_pos hc, hc, count_cons_self]
      dsimp only
      omega
    · rw [if_neg hc, count_cons_of_ne hc]

theorem column_origin_afterAll (cs : List Char) :
    (origin.afterAll cs).column = 1 + (cs.reverse.takeWhile (· ≠ '\n')).length := by
  induction cs using List.reverseRecOn with
  | nil => rfl
  | append_singleton cs c ih =>
    rw [afterAll_snoc, after, reverse_append, reverse_singleton, singleton_append]
    by_cases hc : c = '\n'
    · rw [if_pos hc, takeWhile_cons_of_neg (by simp [hc])]
      rfl
    · rw [if_neg hc, takeWhile_cons_of_pos (by simp [hc]), length_cons]
      dsimp only
      rw [ih]
      omega

end Location

namespace Cursor

variable {c d : Cursor} {source : String}

theorem Reaches.offset_le (h : c.Reaches d) : c.location.offset ≤ d.location.offset := by
  obtain ⟨n, rfl⟩ := h
  rw [drop_eq, offset_afterAll]
  omega

theorem OnLine.line_eq (h : c.OnLine d) : c.location.line = d.location.line := by
  obtain ⟨n, rfl, hn⟩ := h
  rw [drop_eq, line_afterAll, count_eq_zero.2 hn, Nat.add_zero]

/-- The cursor stands in a text behind some part of it, which its location counts, and before the rest. -/
def StandsIn (source : String) (c : Cursor) : Prop :=
  ∃ before : String, source = before ++ ofList c.rest ∧ c.location.offset = before.utf8ByteSize ∧
    c.location.line = 1 + before.toList.count '\n' ∧
    c.location.column = 1 + (before.toList.reverse.takeWhile (· ≠ '\n')).length

theorem Reaches.standsIn (h : (start source).Reaches c) : c.StandsIn source := by
  obtain ⟨n, rfl⟩ := h
  rw [drop_eq]
  refine ⟨ofList (source.toList.take n), ?_, ?_, ?_, ?_⟩
  · rw [← ofList_append]
    exact (ofList_toList.symm.trans (congrArg ofList (take_append_drop n source.toList).symm))
  · change (origin.afterAll (source.toList.take n)).offset = _
    rw [offset_afterAll]
    exact Nat.zero_add _
  · change (origin.afterAll (source.toList.take n)).line = _
    rw [line_afterAll, toList_ofList]
    rfl
  · change (origin.afterAll (source.toList.take n)).column = _
    rw [column_origin_afterAll, toList_ofList]

theorem Reaches.marks (h : (start source).Reaches c) : c.location.Marks source := by
  obtain ⟨before, hbefore⟩ := h.standsIn
  exact ⟨before, _, hbefore⟩

theorem Reaches.span_marks (hc : (start source).Reaches c)
    (hd : c.Reaches d) : Span.Marks source ⟨c.location, d.location⟩ :=
  ⟨hc.marks, (hc.trans hd).marks, hd.offset_le⟩

end Cursor

end Mcfunction
