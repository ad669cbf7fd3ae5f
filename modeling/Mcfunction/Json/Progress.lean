import Mcfunction.Json.Decoder

/-! A JSON value is never empty: reading one moves forward. -/

namespace Mcfunction.Json.Scanner

variable {α : Type}

theorem eat_strict {n : Nat} {s : Input} (hn : 0 < n) (hs : s.rest ≠ []) : (eat n).StrictAt s := by
  intro x h
  cases h
  have : 0 < s.rest.length := List.length_pos_iff.2 hs
  show (s.drop n).rest.length < s.rest.length
  simp only [Input.length_drop]
  omega

theorem enter_strict {levels : Nat} {s : Input} (hs : s.rest ≠ []) : (enter levels).StrictAt s := by
  unfold enter
  split
  · intro x h
    cases h
  · exact eat_strict (by decide) hs

theorem listOf_strict {levels : Nat} {item : Scanner α} {s : Input} (hs : s.rest ≠ []) :
    (listOf levels item).StrictAt s :=
  (enter_strict hs).bind_left _

theorem mapOf_strict {levels : Nat} {value : Scanner α} {s : Input} (hs : s.rest ≠ []) :
    (mapOf levels value).StrictAt s :=
  (enter_strict hs).bind_left _

theorem number_strict {positive : Bool} {s : Input} {d : Char} (hs : s.rest.head? = some d)
    (hd : Floating.isDecimalDigit d = true) : (number positive).StrictAt s := by
  have hne : s.rest ≠ [] := by
    intro h
    simp [h] at hs
  refine .bind_right fun x hx => ?_
  cases hx
  simp only [hs, hd]
  refine .bind_right fun y hy => ?_
  cases hy
  have hlen : 0 < (s.rest.takeWhile Floating.isDecimalDigit).length := by
    cases hr : s.rest with
    | nil => exact absurd hr hne
    | cons c cs =>
      simp only [hr, List.head?_cons, Option.some.injEq] at hs
      simp [hs, hd]
  dsimp only
  split
  · exact (eat_strict (by decide) hne).bind_left _
  · exact (eat_strict hlen hne).bind_left _

theorem value_strict (levels : Nat) : (value levels).Strict := by
  intro s
  cases levels with
  | zero =>
    intro x h
    cases h
  | succ levels =>
    refine .bind_right fun t ht => ?_
    have htv : t.value = t.next.rest.head? := by
      obtain ⟨x, y, hx, hy, rfl⟩ := Reader.bind_ok ht
      cases hy
      rfl
    cases hv : t.value with
    | none =>
      intro x h
      cases h
    | some c =>
      have hhead : t.next.rest.head? = some c := by rw [← htv, hv]
      have hne : t.next.rest ≠ [] := by
        intro h
        simp [h] at hhead
      dsimp only
      have one : (eat 1).StrictAt t.next := eat_strict (by decide) hne
      repeat' split
      · exact one.bind_left _
      · exact one.bind_left _
      · exact one.bind_left _
      · exact one.bind_left _
      · exact (number_strict hhead ‹_›).bind_left _
      · exact one.bind_left _
      · exact (listOf_strict hne).bind_left _
      · exact (mapOf_strict hne).bind_left _
      · intro x h
        cases h

theorem leading_strict {s : Input} {x : Step s (Option Json)} (h : leading s = .ok x) (hx : x.value.isSome) :
    x.next.rest.length < s.rest.length := by
  obtain ⟨t, y, ht, hy, rfl⟩ := Reader.bind_ok h
  cases hv : t.value with
  | none =>
    rw [hv] at hy
    cases hy
    cases hx
  | some c =>
    rw [hv] at hy
    have hlt : y.next.rest.length < t.next.rest.length :=
      ((value_strict maxLevels) t.next).bind_left _ hy
    exact Nat.lt_of_lt_of_le hlt t.left_le

end Mcfunction.Json.Scanner
