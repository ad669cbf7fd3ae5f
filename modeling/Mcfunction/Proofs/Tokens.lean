import Mcfunction.Proofs.Line
import Mcfunction.Proofs.Parts

/-! Where tokens end. A token holds only characters of certain kinds, so it stays on its line, and what stands
on the lines behind has no influence on it. -/

namespace Mcfunction

open List Token Prod

/-- What stands behind a line feed or a carriage return has no influence on a function of some characters. -/
def LineBound {α : Type} (f : List Char → α) : Prop :=
  ∀ (cs rest : List Char) (x : Char), x = '\n' ∨ x = '\r' → f (cs ++ x :: rest) = f cs

namespace Token

def Avoids (t : Token) (x : Char) : Prop := ∀ cs : List Char, x ∉ cs.take (t cs)

abbrev Flat (t : Token) : Prop := t.Avoids '\n'

/-! ### Tokens stay on the line -/

variable {x : Char}

variable {n m : Nat} {cs : List Char} {p : Char → Bool} {l : ResourceLocation} {t rest : Token}

theorem not_mem_take_add {s t : List Char} (hm : x ∉ s.take m) (ht : s.drop m = t) (hn : x ∉ t.take n) :
    x ∉ s.take (m + n) := by
  subst ht
  rw [take_add, mem_append, not_or]
  exact ⟨hm, hn⟩

theorem not_mem_take_succ {c : Char} (hc : c ≠ x) (hn : x ∉ cs.take n) : x ∉ (c :: cs).take (n + 1) := by
  rw [take_succ_cons, mem_cons, not_or]
  exact ⟨hc.symm, hn⟩

theorem many_avoids (hp : p x = false) : (many p).Avoids x := by
  intro cs
  rw [many, Cursor.take_length_takeWhile]
  exact Cursor.not_mem_takeWhile hp cs

section Numbers

variable (hdigit : Text.isDigit x = false) (hpoint : '.' ≠ x)

include hdigit

theorem digits_avoids : digits.Avoids x := many_avoids hdigit

include hpoint

theorem fraction_avoids : fraction.Avoids x := by
  intro cs
  fun_cases fraction cs with
  | case1 | case3 => exact not_mem_nil
  | case2 cs hn => exact not_mem_take_succ hpoint (digits_avoids hdigit cs)

theorem looseFraction_avoids : looseFraction.Avoids x := by
  intro cs
  fun_cases looseFraction cs with
  | case1 cs => exact not_mem_take_succ hpoint (digits_avoids hdigit cs)
  | case2 => exact not_mem_nil

theorem unsigned_avoids (hrest : rest.Avoids x) : (unsigned rest).Avoids x := by
  intro cs
  rw [unsigned]
  split
  · exact fraction_avoids hdigit hpoint cs
  · exact not_mem_take_add (digits_avoids hdigit cs) rfl (hrest _)

theorem decimal_avoids : decimal.Avoids x := unsigned_avoids hdigit hpoint (looseFraction_avoids hdigit hpoint)

omit hdigit hpoint

theorem signed_avoids (hminus : '-' ≠ x) (ht : t.Avoids x) : (signed t).Avoids x := by
  intro cs
  fun_cases signed t cs with
  | case1 => exact not_mem_nil
  | case2 cs hn => exact not_mem_take_succ hminus (ht cs)
  | case3 => exact ht cs

include hdigit in
theorem rangeInteger_avoids (hminus : '-' ≠ x) : rangeInteger.Avoids x := signed_avoids hminus (digits_avoids hdigit)

include hdigit hpoint

theorem number_avoids (hminus : '-' ≠ x) : number.Avoids x := signed_avoids hminus (decimal_avoids hdigit hpoint)

theorem rangeDecimal_avoids (hminus : '-' ≠ x) : rangeDecimal.Avoids x :=
  signed_avoids hminus (unsigned_avoids hdigit hpoint (fraction_avoids hdigit hpoint))

end Numbers

theorem decimal_flat : decimal.Flat := decimal_avoids (by decide) (by decide)

theorem number_flat : number.Flat := number_avoids (by decide) (by decide) (by decide)

theorem rangeInteger_flat : rangeInteger.Flat := rangeInteger_avoids (by decide) (by decide)

theorem rangeDecimal_flat : rangeDecimal.Flat := rangeDecimal_avoids (by decide) (by decide) (by decide)

theorem value_flat : value.Flat := many_avoids (by decide)

theorem operation_flat : operation.Flat := by
  intro cs
  fun_cases operation cs <;> simp

theorem hexGroups_avoids (hdigit : isHexDigit x = false) (hminus : '-' ≠ x) (sizes : List Nat) :
    (hexGroups sizes).Avoids x := by
  intro cs
  have hmany := many_avoids hdigit
  fun_induction hexGroups sizes cs with
  | case1 | case3 | case4 | case6 => exact not_mem_nil
  | case2 size cs => exact fun hmem => hmany cs ((take_prefix_take_left (min_le_right _ _)).subset hmem)
  | case5 size sizes cs _ n _ rest hdrop hm ih =>
    refine not_mem_take_add ?_ ?_ ih
    · exact not_mem_take_add (hmany cs) hdrop (by simpa using hminus.symm)
    · rw [← drop_drop, hdrop, drop_one, tail_cons]

theorem hexGroups_flat (sizes : List Nat) : (hexGroups sizes).Flat := hexGroups_avoids (by decide) (by decide) sizes

theorem untagged?_flat {isTag : Bool} (h : untagged? isTag cs = some (l, n)) : '\n' ∉ cs.take n := by
  have hns := many_avoids (x := '\n') (p := isNamespaceChar) (by decide)
  have hpath := many_avoids (x := '\n') (p := isPathChar) (by decide)
  have bare : ∀ {l n}, (if cs.takeWhile isPathChar = [] then none
      else some ((⟨isTag, none, String.ofList (cs.takeWhile isPathChar)⟩ : ResourceLocation),
        (cs.takeWhile isPathChar).length)) = some (l, n) → '\n' ∉ cs.take n := by
    intro l n h
    split at h
    · cases h
    · cases h
      exact hpath cs
  unfold untagged? at h
  dsimp only at h
  split at h
  · rename_i rest hdrop
    split at h
    · exact bare h
    · cases h
      refine not_mem_take_add ?_ ?_ (hpath rest)
      · exact not_mem_take_add (hns cs) hdrop (by simp)
      · rw [← drop_drop, hdrop, drop_one, tail_cons]
  · exact bare h

theorem resourceLocation?_flat (h : resourceLocation? cs = some (l, n)) : '\n' ∉ cs.take n := by
  unfold resourceLocation? at h
  split at h
  · obtain ⟨⟨l', n'⟩, h', he⟩ := Option.map_eq_some_iff.1 h
    cases he
    exact not_mem_take_succ (by decide) (untagged?_flat h')
  · exact untagged?_flat h

theorem length_mark (kind : CoordinateKind) :
    kind.mark.toList.length = if kind = .absolute then 0 else 1 := by
  cases kind <;> decide

theorem coordinate_avoids (hnumber : number.Avoids x) (hrelative : '~' ≠ x) (hlocal : '^' ≠ x) (cs : List Char) :
    x ∉ cs.take ((coordinate cs).1.mark.toList.length + (coordinate cs).2) := by
  rw [length_mark, Nat.add_comm]
  fun_cases coordinate cs with
  | case1 cs => exact not_mem_take_succ hrelative (hnumber cs)
  | case2 cs => exact not_mem_take_succ hlocal (hnumber cs)
  | case3 => exact hnumber cs

theorem coordinate_flat (cs : List Char) :
    '\n' ∉ cs.take ((coordinate cs).1.mark.toList.length + (coordinate cs).2) :=
  coordinate_avoids number_flat (by decide) (by decide) cs

theorem timeUnit?_flat (cs : List Char) : '\n' ∉ cs.take (timeUnit? cs).toList.length := by
  fun_cases timeUnit? cs with
  | case1 c cs hc =>
    refine not_mem_take_succ ?_ not_mem_nil
    rcases hc with rfl | rfl | rfl <;> decide
  | case2 | case3 => exact not_mem_nil

/-! ### Tokens depend on their line only -/

theorem takeWhile_lineBound (hp : p '\n' = false ∧ p '\r' = false) : LineBound (List.takeWhile p) := by
  intro cs rest x hx
  induction cs with
  | nil => rcases hx with rfl | rfl <;> exact takeWhile_cons_of_neg (by simp [hp])
  | cons c cs ih => rw [cons_append, takeWhile_cons, takeWhile_cons, ih]

theorem many_lineBound (hp : p '\n' = false ∧ p '\r' = false) : LineBound (many p) := by
  intro cs rest x hx
  exact congrArg length (takeWhile_lineBound hp cs rest x hx)

theorem drop_many (cs rest : List Char) (x : Char) :
    (cs ++ x :: rest).drop (many p cs) = cs.drop (many p cs) ++ x :: rest :=
  drop_append_of_le_length (List.takeWhile_prefix p).length_le

theorem digits_lineBound : LineBound digits := many_lineBound (by decide)

theorem fraction_lineBound : LineBound fraction := by
  intro cs rest x hx
  cases cs with
  | nil => rcases hx with rfl | rfl <;> rfl
  | cons c cs =>
    by_cases hc : c = '.'
    · subst hc
      rw [cons_append, fraction, digits_lineBound cs rest x hx]
      rfl
    · simp [fraction, hc]

theorem looseFraction_lineBound : LineBound looseFraction := by
  intro cs rest x hx
  cases cs with
  | nil => rcases hx with rfl | rfl <;> rfl
  | cons c cs =>
    by_cases hc : c = '.'
    · subst hc
      rw [cons_append, looseFraction, digits_lineBound cs rest x hx]
      rfl
    · simp [looseFraction, hc]

theorem unsigned_lineBound (ht : LineBound t) : LineBound (unsigned t) := by
  intro cs rest x hx
  rw [unsigned, unsigned, digits_lineBound cs rest x hx, fraction_lineBound cs rest x hx]
  split
  · rfl
  · rw [digits, drop_many, ht _ rest x hx]

theorem signed_lineBound (ht : LineBound t) : LineBound (signed t) := by
  intro cs rest x hx
  cases cs with
  | nil => rcases hx with rfl | rfl <;> exact ht [] rest _ (by decide)
  | cons c cs =>
    by_cases hc : c = '-'
    · subst hc
      rw [cons_append, signed, ht cs rest x hx]
      rfl
    · rw [signed.eq_2 t (c :: cs) (by simp [hc]), ← ht _ rest x hx]
      exact signed.eq_2 t _ (by simp [hc])

theorem decimal_lineBound : LineBound decimal := unsigned_lineBound looseFraction_lineBound

theorem number_lineBound : LineBound number := signed_lineBound decimal_lineBound

theorem rangeInteger_lineBound : LineBound rangeInteger := signed_lineBound digits_lineBound

theorem rangeDecimal_lineBound : LineBound rangeDecimal := signed_lineBound (unsigned_lineBound fraction_lineBound)

theorem operation_lineBound : LineBound operation := by
  rintro cs rest x hx
  fun_cases operation cs with
  | case9 tail hless =>
    cases tail with
    | nil => rcases hx with rfl | rfl <;> rfl
    | cons d tail => simp_all [operation]
  | case10 =>
    match cs with
    | [] => rcases hx with rfl | rfl <;> rfl
    | [c] => rcases hx with rfl | rfl <;> simp_all [operation]
    | c :: d :: cs => simp_all [operation]
  | _ => rfl

theorem hexGroups_lineBound (sizes : List Nat) : LineBound (hexGroups sizes) := by
  have hmany := many_lineBound (p := isHexDigit) (by decide)
  intro cs rest x hx
  induction sizes generalizing cs with
  | nil => rfl
  | cons size sizes ih =>
    cases sizes with
    | nil => exact congrArg (min size) (hmany cs rest x hx)
    | cons next sizes =>
      rw [hexGroups, hexGroups, hmany cs rest x hx, drop_many]
      split
      · rfl
      · cases hdrop : cs.drop (many isHexDigit cs) with
        | nil => rcases hx with rfl | rfl <;> rfl
        | cons c tail =>
          by_cases hc : c = '-'
          · subst hc
            simp only [cons_append, ih]
          · simp [hc]
      all_goals simp

theorem untagged?_lineBound (isTag : Bool) : LineBound (untagged? isTag) := by
  have hns := takeWhile_lineBound (p := isNamespaceChar) (by decide)
  have hpath := takeWhile_lineBound (p := isPathChar) (by decide)
  intro cs rest x hx
  have hdrop := drop_many (p := isNamespaceChar) cs rest x
  rw [many] at hdrop
  rw [untagged?, untagged?, hns cs rest x hx, hpath cs rest x hx, hdrop]
  cases cs.drop (cs.takeWhile isNamespaceChar).length with
  | nil => rcases hx with rfl | rfl <;> rfl
  | cons c tail =>
    by_cases hc : c = ':'
    · subst hc
      simp only [cons_append, hpath tail rest x hx]
    · simp [hc]

theorem resourceLocation?_lineBound : LineBound resourceLocation? := by
  intro cs rest x hx
  cases cs with
  | nil =>
    have huntagged := untagged?_lineBound false [] rest x hx
    rcases hx with rfl | rfl <;> exact huntagged
  | cons c cs =>
    by_cases hc : c = '#'
    · subst hc
      rw [cons_append, resourceLocation?, untagged?_lineBound true cs rest x hx]
      rfl
    · rw [resourceLocation?.eq_2 (c :: cs) (by simp [hc]), ← untagged?_lineBound false _ rest x hx]
      exact resourceLocation?.eq_2 _ (by simp [hc])

theorem coordinate_lineBound : LineBound coordinate := by
  intro cs rest x hx
  cases cs with
  | nil => rcases hx with rfl | rfl <;> exact congrArg (mk _) (number_lineBound [] rest _ (by decide))
  | cons c cs =>
    by_cases hrelative : c = '~'
    · subst hrelative
      exact congrArg (mk _) (number_lineBound cs rest x hx)
    · by_cases hlocal : c = '^'
      · subst hlocal
        exact congrArg (mk _) (number_lineBound cs rest x hx)
      · rw [coordinate.eq_3 (c :: cs) (by simp [hrelative]) (by simp [hlocal]), ← number_lineBound _ rest x hx]
        exact coordinate.eq_3 _ (by simp [hrelative]) (by simp [hlocal])

theorem timeUnit?_lineBound : LineBound timeUnit? := by
  intro cs rest x hx
  cases cs with
  | nil => rcases hx with rfl | rfl <;> rfl
  | cons c cs => rfl

end Token

/-! ### Quoted strings -/

namespace Text

/-- How many characters behind its opening quote a quoted string goes on, up to its end or its fault. -/
def quoteLength : Except QuoteFault (List Char × Nat) → Nat
  | .ok (_, n) => n
  | .error (.unclosed n) => n
  | .error (.escape n) => n

theorem quoteLength_cons (c : Char) (n : Nat) (r : Except QuoteFault (List Char × Nat)) :
    quoteLength (quotedCons c n r) = quoteLength r + n := by
  rcases r with (_ | _) | ⟨_, _⟩ <;> rfl

theorem unquote_flat {q : Char} (hq : q ≠ '\n') (cs : List Char) : '\n' ∉ cs.take (quoteLength (unquote q cs)) := by
  fun_induction unquote q cs with
  | case3 => exact not_mem_take_succ (by decide) not_mem_nil
  | case4 | case9 => exact not_mem_take_succ hq not_mem_nil
  | case5 c hline | case8 d cs _ hline => exact not_mem_take_succ hline not_mem_nil
  | case7 d cs hesc hline ih =>
    have hd : d ≠ '\n' := by
      rintro rfl
      cases hesc
    rw [quoteLength_cons]
    exact not_mem_take_succ hline (not_mem_take_succ hd ih)
  | case10 c d cs hline _ _ ih =>
    rw [quoteLength_cons]
    exact not_mem_take_succ hline ih
  | _ => exact not_mem_nil

theorem unquote_newline (q : Char) (rest : List Char) : unquote q ('\n' :: rest) = .error (.unclosed 0) := by
  cases rest with
  | nil => rfl
  | cons d rest => rw [unquote.eq_3, if_pos rfl]

theorem unquote_append_newline (q : Char) (cs rest : List Char) : unquote q (cs ++ '\n' :: rest) = unquote q cs := by
  match cs with
  | [] => exact unquote_newline q rest
  | [c] =>
    rw [cons_append, nil_append, unquote.eq_2, unquote.eq_3, unquote_newline]
    split
    · rfl
    · split
      · rfl
      · rfl
  | c :: d :: cs =>
    rw [cons_append, cons_append, unquote.eq_3, unquote.eq_3, ← cons_append,
      unquote_append_newline q cs rest, unquote_append_newline q (d :: cs) rest]

/-- Quoted strings that are read alike, except for where the missing end is noticed. -/
inductive SameQuote : Except QuoteFault (List Char × Nat) → Except QuoteFault (List Char × Nat) → Prop where
  | same (r : Except QuoteFault (List Char × Nat)) : SameQuote r r
  | unclosed (n k : Nat) : SameQuote (.error (.unclosed n)) (.error (.unclosed k))

theorem SameQuote.cons {r t : Except QuoteFault (List Char × Nat)} (h : SameQuote r t) (c : Char) (n : Nat) :
    SameQuote (quotedCons c n r) (quotedCons c n t) := by
  cases h with
  | same => exact .same _
  | unclosed k l => exact .unclosed (k + n) (l + n)

/-- A carriage return at the end of the line is taken for part of a string that is not closed. -/
theorem unquote_append_return {q : Char} (hq : q ≠ '\r') (cs rest : List Char) :
    SameQuote (unquote q cs) (unquote q (cs ++ '\r' :: '\n' :: rest)) := by
  have hreturn : unquote q ('\r' :: '\n' :: rest) = .error (.unclosed 1) := by
    rw [unquote.eq_3, if_neg hq.symm, unquote_newline]
    rfl
  match cs with
  | [] =>
    rw [nil_append, hreturn]
    exact .unclosed 0 1
  | [c] =>
    rw [cons_append, nil_append, unquote.eq_2, unquote.eq_3, hreturn]
    split
    · exact .same _
    · split
      · exact .same _
      · split
        · exact .same _
        · exact .unclosed 1 2
  | c :: d :: cs =>
    rw [cons_append, cons_append, unquote.eq_3, unquote.eq_3]
    split
    · exact .same _
    · split
      · split
        · exact (unquote_append_return hq cs rest).cons d 2
        · exact .same _
      · split
        · exact .same _
        · exact (unquote_append_return hq (d :: cs) rest).cons c 1

end Text

/-! ### Arrays -/

theorem Snbt.arrayKind?_flat {cs : List Char} (h : cs.head? = some '[') : '\n' ∉ cs.take (opening (arrayKind? cs)) := by
  rw [opening]
  unfold arrayKind?
  split
  · simp
  · simp
  · simp
  · obtain ⟨rest, rfl⟩ := head?_eq_some_iff.1 h
    simp

theorem Snbt.arrayKind?_lineBound : LineBound arrayKind? := by
  intro cs rest x hx
  fun_cases arrayKind? cs with
  | case4 _ hbyte hint hlong =>
    match cs with
    | [] => rcases hx with rfl | rfl <;> rfl
    | [c] | [c, d] => rcases hx with rfl | rfl <;> simp [arrayKind?]
    | c :: d :: e :: cs =>
      refine arrayKind?.eq_4 _ ?_ ?_ ?_
      · rintro tail ⟨⟩
        exact hbyte _ rfl
      · rintro tail ⟨⟩
        exact hint _ rfl
      · rintro tail ⟨⟩
        exact hlong _ rfl
  | _ => rfl

end Mcfunction
