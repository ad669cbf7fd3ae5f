import Mcfunction.Proofs.Exact
import Mcfunction.Proofs.Floats

/-! Integers as text. The digits of an integer spell it, and every token of numbers takes all of them: what is
read where an integer was written, is that integer. This carries over to ranges, coordinates and times. -/

namespace Mcfunction

open List Floating String Text Token Reader Printer Bool

/-! ### The text of an integer -/

namespace Numeral

theorem isDecimalDigit_eq (ch : Char) : isDecimalDigit ch = ch.isDigit := by
  rfl

theorem isDecimalDigit_of_mem {n : Nat} {ch : Char} (h : ch ∈ Nat.toDigits 10 n) : isDecimalDigit ch = true := by
  exact Nat.isDigit_of_mem_toDigits (by decide) (by decide) h

theorem digitsValue_toDigits (n : Nat) : digitsValue (Nat.toDigits 10 n) = n :=
  Nat.ofDigitChars_toDigits (by decide) (by decide)

theorem toList_toString (i : Int) : ∃ n : Nat, i = n ∧ (toString i).toList = Nat.toDigits 10 n ∨
      i = -(n : Int) ∧ 0 < n ∧ (toString i).toList = '-' :: Nat.toDigits 10 n := by
  cases i with
  | ofNat n =>
    refine ⟨n, .inl ⟨rfl, ?_⟩⟩
    change n.repr.toList = _
    rw [Nat.repr_eq_ofList_toDigits, toList_ofList]
  | negSucc n =>
    refine ⟨n + 1, .inr ⟨rfl, n.succ_pos, ?_⟩⟩
    change ("-" ++ (n + 1).repr).toList = _
    simp only [Nat.repr_eq_ofList_toDigits, toList_append, toList_ofList]
    rfl

theorem isDigit_of_isDecimalDigit {ch : Char} (h : isDecimalDigit ch = true) : isDigit ch = true := by
  rw [isDecimalDigit_eq, Char.isDigit, and_eq_true] at h
  have hlow : 0x30 ≤ ch.toNat := UInt32.le_iff_toNat_le.1 (of_decide_eq_true h.1)
  have hhigh : ch.toNat ≤ 0x39 := UInt32.le_iff_toNat_le.1 (of_decide_eq_true h.2)
  refine any_eq_true.2 ⟨(0x30, 0x39), mem_cons_self, ?_⟩
  exact and_eq_true_iff.2 ⟨decide_eq_true hlow, decide_eq_true hhigh⟩

theorem isDecimalDigit_ne {ch other : Char} (h : isDecimalDigit ch = true)
    (hother : isDecimalDigit other = false) : ch ≠ other := by
  rintro rfl
  rw [h] at hother
  cases hother

end Numeral

variable {i : Int} {bits : Nat}

namespace Parse

open Numeral

theorem integerValue?_digits {ds : List Char} (hne : ds ≠ []) (hds : ∀ ch ∈ ds, isDecimalDigit ch = true) :
    integerValue? (ofList ds) = some (digitsValue ds : Int) ∧
      integerValue? (ofList ('-' :: ds)) = some (-(digitsValue ds : Int)) := by
  have hall : ds ≠ [] ∧ ds.all isDecimalDigit = true := ⟨hne, all_eq_true.2 hds⟩
  obtain ⟨d, rest, rfl⟩ := exists_cons_of_ne_nil hne
  have hminus : d ≠ '-' := isDecimalDigit_ne (hds d mem_cons_self) (by decide)
  have hplus : d ≠ '+' := isDecimalDigit_ne (hds d mem_cons_self) (by decide)
  constructor
  · rw [integerValue?, toList_ofList]
    split
    rename_i negative ds hmatch
    split at hmatch
    · rename_i h
      exact absurd (cons.inj h).1 hminus
    · rename_i h
      exact absurd (cons.inj h).1 hplus
    · cases hmatch
      rw [if_pos hall]
      rfl
  · rw [integerValue?, toList_ofList]
    exact if_pos hall

theorem signedValue?_toString (h : fits bits i = true) : signedValue? bits (toString i) = some i := by
  have hvalue : integerValue? (toString i) = some i := by
    obtain ⟨n, ⟨rfl, htext⟩ | ⟨rfl, -, htext⟩⟩ := toList_toString i
    · have hdigits := (integerValue?_digits Nat.toDigits_ne_nil fun _ => isDecimalDigit_of_mem (n := n)).1
      rwa [← htext, ofList_toList, htext, digitsValue_toDigits] at hdigits
    · have hdigits := (integerValue?_digits Nat.toDigits_ne_nil fun _ => isDecimalDigit_of_mem (n := n)).2
      rwa [← htext, ofList_toList, digitsValue_toDigits] at hdigits
  rw [signedValue?, hvalue]
  exact if_pos h

theorem point_not_mem_toString (i : Int) : '.' ∉ (toString i).toList := by
  have hdigits : ∀ n, '.' ∉ Nat.toDigits 10 n := fun n h => absurd (isDecimalDigit_of_mem h) (by decide)
  obtain ⟨n, ⟨-, htext⟩ | ⟨-, -, htext⟩⟩ := toList_toString i
  · rw [htext]
    exact hdigits n
  · rw [htext, mem_cons]
    exact fun h => h.elim (by decide) (hdigits n)

theorem numberValue_toString (h : fits 64 i = true) (integral : Bool) :
    numberValue (toString i) integral = .ok (.int i) := by
  rw [numberValue, if_neg (point_not_mem_toString i), signedValue?_toString h]

end Parse

namespace Token

open Numeral

variable {ds tail : List Char} {rest t : Token}

theorem signed_toString (i : Int) (ht : ∀ ds, ds ≠ [] → (∀ ch ∈ ds, isDigit ch = true) → t (ds ++ tail) = ds.length) :
    signed t ((toString i).toList ++ tail) = (toString i).toList.length := by
  have hall : ∀ n, ∀ ch ∈ Nat.toDigits 10 n, isDigit ch = true :=
    fun n ch h => isDigit_of_isDecimalDigit (isDecimalDigit_of_mem h)
  obtain ⟨n, ⟨-, htext⟩ | ⟨-, -, htext⟩⟩ := toList_toString i
  · have hlen := ht _ Nat.toDigits_ne_nil (hall n)
    rw [htext]
    obtain ⟨d, ds, hds⟩ := exists_cons_of_ne_nil Nat.toDigits_ne_nil
    have hminus : d ≠ '-' := by
      refine isDecimalDigit_ne (isDecimalDigit_of_mem (n := n) ?_) (by decide)
      rw [hds]
      exact mem_cons_self
    rw [hds] at hlen ⊢
    rw [signed]
    · exact hlen
    · rintro cs h
      exact hminus (cons.inj h).1
  · have hlen := ht _ Nat.toDigits_ne_nil (hall n)
    rw [htext, cons_append, signed, hlen]
    split
    · rename_i hzero
      exact absurd (length_eq_zero_iff.1 hzero) Nat.toDigits_ne_nil
    · rfl

theorem digits_append (hds : ∀ ch ∈ ds, isDigit ch = true) (htail : EndsAt (fun ch => !isDigit ch) tail) :
    digits (ds ++ tail) = ds.length :=
  congrArg List.length (EndsAt.takeWhile_append hds htail)

theorem digits_eq_zero (h : EndsAt (fun ch => !isDigit ch) tail) : digits tail = 0 :=
  congrArg List.length h.takeWhile_eq_nil

theorem unsigned_eq_fraction (h : EndsAt (fun ch => !isDigit ch) tail) : unsigned rest tail = fraction tail := by
  rw [unsigned, digits_eq_zero h]
  rfl

theorem signed_eq (h : EndsAt (fun ch => ch != '-') tail) : signed t tail = t tail := by
  cases tail with
  | nil => rfl
  | cons ch tail =>
    rw [signed]
    rintro cs hcs
    have hch := h.of_cons
    rw [(cons.inj hcs).1] at hch
    cases hch

theorem unsigned_append (hne : ds ≠ []) (hds : ∀ ch ∈ ds, isDigit ch = true)
    (htail : EndsAt (fun ch => !isDigit ch) tail) (hrest : rest tail = 0) : unsigned rest (ds ++ tail) = ds.length := by
  rw [unsigned, digits_append hds htail]
  split
  · rename_i hzero
    exact absurd (length_eq_zero_iff.1 hzero) hne
  · rw [drop_left, hrest, add_zero]

def isNumberEnd (ch : Char) : Bool := !isDigit ch && ch != '.'

theorem looseFraction_eq_zero (h : EndsAt isNumberEnd tail) : looseFraction tail = 0 := by
  cases tail with
  | nil => rfl
  | cons ch tail =>
    have hne : ch ≠ '.' := by
      have := h.of_cons
      rw [isNumberEnd, and_eq_true] at this
      simpa using this.2
    rw [looseFraction]
    rintro cs h
    exact hne (cons.inj h).1

theorem noDigit (h : EndsAt isNumberEnd tail) : EndsAt (fun ch => !isDigit ch) tail :=
  h.mono fun _ hch => (and_eq_true_iff.1 hch).1

theorem decimal_append (hne : ds ≠ []) (hds : ∀ ch ∈ ds, isDigit ch = true) (htail : EndsAt isNumberEnd tail) :
    decimal (ds ++ tail) = ds.length :=
  unsigned_append hne hds (noDigit htail) (looseFraction_eq_zero htail)

theorem number_toString (i : Int) (htail : EndsAt isNumberEnd tail) :
    number ((toString i).toList ++ tail) = (toString i).toList.length :=
  signed_toString i fun _ hne hds => decimal_append hne hds htail

end Token

/-! ### Numbers and ranges -/

namespace Numeral

def isStart (ch : Char) : Bool := isDecimalDigit ch || ch = '-'

theorem toString_starts (i : Int) : StartsAt isStart (toString i).toList := by
  obtain ⟨n, ⟨-, htext⟩ | ⟨-, -, htext⟩⟩ := toList_toString i
  · rw [htext]
    refine StartsAt.of_all Nat.toDigits_ne_nil fun ch hch => ?_
    rw [isStart, isDecimalDigit_of_mem hch, Bool.true_or]
  · rw [htext]
    exact StartsAt.cons rfl

end Numeral

namespace Parse

open Numeral
variable {text : String} {integral : Bool} {tail : List Char} {max min : Option Int}

open Reader (Gives)

variable {F : List Char → Prop} {c : Cursor} {Q : Number → Prop}

def IsShort (v : Number) : Prop := ∀ i, v = .int i → fits 64 i = true

theorem signedValue?_eq_some (h : signedValue? bits text = some i) :
    integerValue? text = some i ∧ fits bits i = true := by
  rw [signedValue?] at h
  split at h
  · split at h
    · cases h
      exact ⟨‹_›, ‹_›⟩
    · cases h
  · cases h

theorem numberValue_ok {v : Number} (h : numberValue text integral = .ok v) :
    (∃ i, v = .int i ∧ signedValue? 64 text = some i) ∨ ∃ x, v = .float x ∧ read? .double text = some x := by
  unfold numberValue at h
  dsimp only at h
  cases hdouble : read? .double text with
  | none =>
    rw [hdouble] at h
    split at h
    · split at h <;> cases h
    · split at h
      · cases h
        exact .inl ⟨_, rfl, ‹_›⟩
      · split at h <;> cases h
  | some x =>
    rw [hdouble] at h
    split at h
    · split at h
      · cases h
      · cases h
        exact .inr ⟨x, rfl, rfl⟩
    · split at h
      · cases h
        exact .inl ⟨_, rfl, ‹_›⟩
      · split at h
        · cases h
        · cases h
          exact .inr ⟨x, rfl, rfl⟩

theorem numberValue_eq_int (h : numberValue text integral = .ok (.int i)) :
    integerValue? text = some i ∧ fits 64 i = true := by
  rcases numberValue_ok h with ⟨j, hj, hsigned⟩ | ⟨x, hx, -⟩
  · cases hj
    exact signedValue?_eq_some hsigned
  · cases hx

theorem numberAt_gives (text : String) (span : Span) (integral : Bool) (c : Cursor) :
    Gives (numberAt text span integral) c fun v => ∀ i, v = .int i → integerValue? text = some i ∧ fits 64 i = true := by
  rw [numberAt]
  split
  · rename_i v hv
    refine .pure fun i hi => ?_
    subst hi
    exact numberValue_eq_int hv
  · exact .fail

theorem numberAt_accepts (hi : fits 64 i = true) (htext : text = toString i) (span : Span) (integral : Bool) :
    Accepts (numberAt text span integral) [] F fun v => v = .int i := by
  rw [numberAt, htext, numberValue_toString hi]
  exact Accepts.pure rfl

theorem number_gives (integral : Bool) (c : Cursor) :
    Gives (number integral) c fun n => ∃ v, n.form = .number v ∧ IsShort v := by
  refine (Gives.trivial _ c).bind fun x d _ _ => ?_
  refine (numberAt_gives x.1 x.2 integral d).bind fun v _ _ hv => ?_
  exact Gives.pure ⟨v, rfl, fun i hi => (hv i hi).2⟩

theorem number_accepts (hi : fits 64 i = true) (integral : Bool) :
    Accepts (number integral) (toString i).toList (EndsAt isNumberEnd) fun n => n.form = .number (.int i) := by
  intro c tail hc htail
  refine (token_accepts "number" (toString_starts i).ne_nil (fun _ => number_toString i) c tail hc htail).bind ?_
  rintro ⟨text, span⟩ d hx hd
  refine (numberAt_accepts (F := fun _ => True) hi (hx.trans ofList_toList) span integral d tail hd trivial).bind ?_
  rintro _ e rfl he
  exact .pure he rfl

/-! ### Ranges -/

def rangeToken (integral : Bool) : Token := if integral then rangeInteger else rangeDecimal

/-- What may stand behind an end of a range. -/
structure BehindEnd (tail : List Char) : Prop where
  noDigit : EndsAt (fun ch => !isDigit ch) tail
  noMinus : EndsAt (fun ch => ch != '-') tail
  noFraction : fraction tail = 0

theorem rangeToken_toString (integral : Bool) (i : Int) (h : BehindEnd tail) :
    rangeToken integral ((toString i).toList ++ tail) = (toString i).toList.length := by
  cases integral with
  | true => exact signed_toString i fun _ _ hds => digits_append hds h.noDigit
  | false => exact signed_toString i fun _ hne hds => unsigned_append hne hds h.noDigit h.noFraction

theorem rangeToken_eq_zero (integral : Bool) (h : BehindEnd tail) : rangeToken integral tail = 0 := by
  cases integral with
  | true => exact (signed_eq h.noMinus).trans (digits_eq_zero h.noDigit)
  | false => exact ((signed_eq h.noMinus).trans (unsigned_eq_fraction h.noDigit)).trans h.noFraction

theorem number_eq_zero (h : BehindEnd tail) : Token.number tail = 0 :=
  ((signed_eq h.noMinus).trans (unsigned_eq_fraction h.noDigit)).trans h.noFraction

def endText (o : Option Int) : List Char := ((o.map toString).getD "").toList

theorem rangeEnd_accepts {o : Option Int} (ho : ∀ i ∈ o, fits 64 i = true) (integral : Bool) :
    Accepts (rangeEnd integral) (endText o) BehindEnd fun v => v = o.map .int := by
  cases o with
  | none =>
    refine fun c tail hc htail => (token?_refuses (t := rangeToken integral)
      (fun _ h => .inr (rangeToken_eq_zero integral h)) c tail hc htail).bind ?_
    rintro _ d rfl hd
    exact .pure hd rfl
  | some i =>
    intro c tail hc htail
    refine (token?_accepts (toString_starts i).ne_nil
      (fun _ => rangeToken_toString integral i) c tail hc htail).bind ?_
    rintro _ d ⟨⟨text, span⟩, rfl, htext⟩ hd
    refine (numberAt_accepts (F := fun _ => True) (ho i rfl) (htext.trans ofList_toList) span integral d
      tail hd trivial).bind ?_
    rintro _ e rfl he
    exact .pure he rfl

def isRangeEnd (ch : Char) : Bool := !isDigit ch && ch != '-' && ch != '.'

theorem behindEnd_dots (cs : List Char) : BehindEnd ('.' :: '.' :: cs) := by
  refine ⟨EndsAt.cons (by decide), EndsAt.cons (by decide), ?_⟩
  rfl

theorem behindEnd_of_endsAt (h : EndsAt isRangeEnd tail) : BehindEnd tail := by
  refine ⟨h.mono fun ch hch => ?_, h.mono fun ch hch => ?_, ?_⟩
  · simp only [isRangeEnd, and_eq_true] at hch
    exact hch.1.1
  · simp only [isRangeEnd, and_eq_true] at hch
    exact hch.1.2
  · cases tail with
    | nil => rfl
    | cons ch tail =>
      rw [fraction]
      rintro cs hcs
      have := h.of_cons
      rw [(cons.inj hcs).1] at this
      cases this

theorem rangeText_int (i : Int) : (rangeText (some (.int i)) (some (.int i))).toList = (toString i).toList := by
  simp [rangeText, Number.write]

theorem rangeText_ends (h : min ≠ max ∨ min = none) :
    (rangeText (min.map .int) (max.map .int)).toList = endText min ++ ("..".toList ++ endText max) := by
  cases min with
  | none => cases max <;> simp [rangeText, endText, Number.write]
  | some a =>
    cases max with
    | none => simp [rangeText, endText, Number.write]
    | some b =>
      have hne : a ≠ b := by simpa using h
      simp [rangeText, endText, Number.write, Number.same, hne]

theorem ends_or_single (min max : Option Int) : (min ≠ max ∨ min = none) ∨ ∃ i, min = some i ∧ max = some i := by
  cases min with
  | none => exact .inl (.inr rfl)
  | some i =>
    by_cases hsame : some i = max
    · exact .inr ⟨i, rfl, hsame.symm⟩
    · exact .inl (.inl hsame)

theorem rangeEnds_accepts (hmin : ∀ i ∈ min, fits 64 i = true) (hmax : ∀ i ∈ max, fits 64 i = true) (integral : Bool) :
    Accepts (rangeEnds integral) (rangeText (min.map .int) (max.map .int)).toList (EndsAt isRangeEnd)
      fun v => v = (min.map .int, max.map .int) := by
  rcases ends_or_single min max with hsame | ⟨i, rfl, rfl⟩
  · rw [rangeText_ends hsame]
    refine (rangeEnd_accepts hmin integral).bind ?_ fun tail _ => behindEnd_dots _
    rintro _ rfl
    refine (consume_accepts "..").bind ?_ fun _ _ => trivial
    rintro _ rfl
    refine fun c tail hc htail => (rangeEnd_accepts hmax integral c tail hc (behindEnd_of_endsAt htail)).bind ?_
    rintro _ d rfl hd
    exact .pure hd rfl
  · rw [Option.map_some, rangeText_int]
    refine fun c tail hc htail => (rangeEnd_accepts hmin integral c tail hc (behindEnd_of_endsAt htail)).bind ?_
    rintro _ d rfl hd
    refine (consume_refuses ".." rfl d tail hd (htail.mono fun ch hch => ?_)).bind ?_
    · simp only [isRangeEnd, and_eq_true] at hch
      exact hch.2
    · rintro _ e rfl he
      exact .pure he rfl

theorem rangeEnd_gives (hQ : ∀ text span d, Gives (numberAt text span integral) d Q) (c : Cursor) :
    Gives (rangeEnd integral) c fun o => ∀ v ∈ o, Q v := by
  refine (Gives.trivial _ c).bind ?_
  rintro (_ | ⟨text, span⟩) d - -
  · exact Gives.pure (by simp)
  · refine (hQ text span d).bind fun v _ _ hv => .pure ?_
    rintro _ ⟨⟩
    exact hv

theorem rangeEnds_gives (hQ : ∀ text span d, Gives (numberAt text span integral) d Q) (c : Cursor) :
    Gives (rangeEnds integral) c fun ends => (∀ v ∈ ends.1, Q v) ∧ ∀ v ∈ ends.2, Q v := by
  refine (rangeEnd_gives hQ c).bind fun min d _ hmin => ?_
  refine (Gives.trivial _ d).bind fun dots e _ _ => ?_
  refine Gives.ite (fun _ => ?_) fun _ => Gives.pure ⟨hmin, hmin⟩
  exact (rangeEnd_gives hQ e).bind fun max _ _ hmax => .pure ⟨hmin, hmax⟩

/-- Ends of a range that a reader lets pass: one of them is there, and they are in order. -/
def IsRange (min max : Option Number) : Prop :=
  (min ≠ none ∨ max ≠ none) ∧ ∀ a ∈ min, ∀ b ∈ max, b.toFloating.less a.toFloating = false

theorem range_gives (integral : Bool) (c : Cursor) :
    Gives (range integral) c fun n => ∃ min max, n.form = .range min max ∧ IsRange min max ∧
      (∀ v ∈ min, IsShort v) ∧ ∀ v ∈ max, IsShort v := by
  have hshort (text : String) (span : Span) (d : Cursor) : Gives (numberAt text span integral) d IsShort :=
    (numberAt_gives text span integral d).mono fun v hv i hi => (hv i hi).2
  refine (spanned_gives (rangeEnds_gives hshort c)).bind ?_
  rintro ⟨⟨min, max⟩, span⟩ d - ⟨hmin, hmax⟩
  cases min with
  | none =>
    cases max with
    | none => exact .fail
    | some b => exact .pure ⟨none, some b, rfl, ⟨.inr (by simp), by simp⟩, hmin, hmax⟩
  | some a =>
    cases max with
    | none => exact .pure ⟨some a, none, rfl, ⟨.inl (by simp), by simp⟩, hmin, hmax⟩
    | some b =>
      refine .ite (fun _ => .fail) fun hless => .pure ?_
      exact ⟨some a, some b, rfl, ⟨.inl (by simp), by simpa using hless⟩, hmin, hmax⟩

theorem range_accepts (hrange : IsRange (min.map .int) (max.map .int)) (hmin : ∀ i ∈ min, fits 64 i = true)
    (hmax : ∀ i ∈ max, fits 64 i = true) (integral : Bool) :
    Accepts (range integral) (rangeText (min.map .int) (max.map .int)).toList (EndsAt isRangeEnd)
      fun n => n.form = .range (min.map .int) (max.map .int) := by
  intro c tail hc htail
  refine (spanned_accepts (rangeEnds_accepts hmin hmax integral) c tail hc htail).bind ?_
  rintro ⟨_, span⟩ d rfl hd
  obtain ⟨hsome, horder⟩ := hrange
  cases min with
  | none =>
    cases max with
    | none => simp at hsome
    | some b => exact .pure hd rfl
  | some a =>
    cases max with
    | none => exact .pure hd rfl
    | some b =>
      have hless := horder (.int a) rfl (.int b) rfl
      dsimp only [Option.map_some]
      rw [hless]
      exact .pure hd rfl

end Parse

end Mcfunction
