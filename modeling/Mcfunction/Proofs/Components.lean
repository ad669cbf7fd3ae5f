import Mathlib.Algebra.Group.Int.Defs
import Mcfunction.Proofs.JsonTexts

/-! Text components are read back from their texts. What is read holds integers of 64 bits and proper numbers, objects
with distinct keys, and not too many levels; it is equal to itself, and every such value without floating point
numbers is read back from what the printer writes for it. -/

namespace Mcfunction.Json

open List Entries Floating String Scanner Reader Json
open Reader (Gives)

/-! ### Values -/

/-- An integer is of 64 bits with or without sign, and a floating point number as asked. -/
def Number.Legal (floats : Floating → Prop) : Number → Prop
  | .integer i => -(2 ^ 63 : Int) ≤ i ∧ i < 2 ^ 64
  | .floating x => floats x

/-- The value can be read where some levels may be opened: its numbers are legal, and no key of an object stands in
it twice. -/
def Legal (floats : Floating → Prop) : Nat → Json → Prop
  | 0, _ => False
  | levels + 1, v =>
    match v with
    | .null | .bool _ | .string _ => True
    | .number n => n.Legal floats
    | .array items => 0 < levels ∧ ∀ v ∈ items, Legal floats levels v
    | .object entries => 0 < levels ∧ Distinct entries ∧ ∀ e ∈ entries, Legal floats levels e.2

/-- The value can be read back: there is no floating point number in it. -/
abbrev Readable : Nat → Json → Prop := Legal fun _ => False

variable {v : Json} {levels bound significand : Nat} {ch c : Char} {floats : Floating → Prop} {digits : String}
  {item : Scanner α} {power i : Int}

theorem isFloatFree_of_mem_items {vs : List Json} (h : (array vs).isFloatFree = true) (hv : v ∈ vs) :
    v.isFloatFree = true := by
  rw [isFloatFree] at h
  induction vs with
  | nil => cases hv
  | cons w vs ih =>
    rw [areFloatFree, Bool.and_eq_true] at h
    rcases mem_cons.1 hv with rfl | hv
    · exact h.1
    · exact ih h.2 hv

theorem isFloatFree_of_mem_entries {e : String × Json} {es : Entries Json} (h : (object es).isFloatFree = true)
    (he : e ∈ es) : e.2.isFloatFree = true := by
  rw [isFloatFree] at h
  induction es with
  | nil => cases he
  | cons first es ih =>
    rw [entriesFloatFree, Bool.and_eq_true] at h
    rcases mem_cons.1 he with rfl | he
    · exact h.1
    · exact ih h.2 he

theorem Legal.readable (h : Legal floats levels v) (hfree : v.isFloatFree = true) : Readable levels v := by
  induction levels generalizing v with
  | zero => exact h.elim
  | succ levels ih =>
    cases v with
    | null | bool b | string s => trivial
    | number n =>
      cases n with
      | integer i => exact h
      | floating x => cases hfree
    | array vs => exact ⟨h.1, fun v hv => ih (h.2 v hv) (isFloatFree_of_mem_items hfree hv)⟩
    | object es => exact ⟨h.1, h.2.1, fun e he => ih (h.2.2 e he) (isFloatFree_of_mem_entries hfree he)⟩

def text (v : Json) : List Char := v.write.toList

theorem toList_writeItems (vs : List Json) : (writeItems vs).toList = listText text vs := by
  induction vs with
  | nil => rfl
  | cons v vs ih =>
    cases vs with
    | nil => simp [writeItems, listText, text]
    | cons w vs =>
      rw [writeItems, toList_append, ih]
      · simp [listText, text]
      · exact cons_ne_nil w vs

theorem toList_writeEntries (es : Entries Json) :
    (writeEntries es).toList = listText (fun e => '"' :: entryText text e) es := by
  induction es with
  | nil => rfl
  | cons e es ih =>
    cases es with
    | nil => simp [writeEntries, listText, entryText, text, toList_writeString]
    | cons e es =>
      rw [writeEntries]
      · simp only [toList_append, ih, toList_writeString]
        simp [listText, entryText, text]
      · exact cons_ne_nil e es

theorem text_null : text .null = ['n', 'u', 'l', 'l'] := rfl

theorem text_true : text (.bool true) = ['t', 'r', 'u', 'e'] := rfl

theorem text_false : text (.bool false) = ['f', 'a', 'l', 's', 'e'] := rfl

theorem text_array (vs : List Json) : text (.array vs) = ['['] ++ (listText text vs ++ [']']) := by
  rw [text, write, toList_append, toList_append, toList_writeItems]
  rfl

theorem text_object (es : Entries Json) :
    text (.object es) = ['{'] ++ (listText (fun e => '"' :: entryText text e) es ++ ['}']) := by
  rw [text, write, toList_append, toList_append, toList_writeEntries]
  rfl

theorem text_string (s : String) : text (.string s) = '"' :: stringText s := by
  rw [text, write, toList_writeString]

def isStart (ch : Char) : Bool :=
  ch = 'n' || ch = 't' || ch = 'f' || ch = '"' || ch = '[' || ch = '{' || ch = '-' || isDecimalDigit ch

theorem text_starts (h : Readable levels v) : StartsAt isStart v.text := by
  cases levels with
  | zero => exact h.elim
  | succ levels =>
    cases v with
    | null => exact StartsAt.cons rfl
    | bool b => cases b <;> exact StartsAt.cons rfl
    | string s =>
      rw [text_string]
      exact StartsAt.cons rfl
    | array vs =>
      rw [text_array]
      exact StartsAt.cons rfl
    | object es =>
      rw [text_object]
      exact StartsAt.cons rfl
    | number n =>
      cases n with
      | floating x => exact h.elim
      | integer i =>
        refine (Numeral.toString_starts i).mono fun ch hch => ?_
        simp only [Numeral.isStart, Bool.or_eq_true, decide_eq_true_eq] at hch
        rcases hch with hch | rfl
        · rw [isStart, hch, Bool.or_true]
        · rfl

theorem ne_of_isStart (h : isStart ch = true) (other : Char) (hother : isStart other = false) : ch ≠ other := by
  rintro rfl
  cases h.symm.trans hother

theorem not_isBlank_of_isStart (h : isStart ch = true) : Input.isBlank ch = false := by
  simp [Input.isBlank, ne_of_isStart h ' ' rfl, ne_of_isStart h '\n' rfl,
    ne_of_isStart h '\t' rfl, ne_of_isStart h '\r' rfl]

namespace Scanner

theorem integer_accepts (levels : Nat) (hlow : -(2 ^ 63 : Int) ≤ i) (hhigh : i < 2 ^ 64) :
    Accepts (value (levels + 1)) (toString i).toList (EndsAt isIntegerEnd) fun w => w = .number (.integer i) := by
  have hmax : maxNatural = 18446744073709551615 := rfl
  have hmin : Nat.pow 2 63 = 9223372036854775808 := rfl
  obtain ⟨n, ⟨rfl, htext⟩ | ⟨rfl, hn, htext⟩⟩ := Numeral.toList_toString i
  · have hdigits := number_accepts true (n := n) (by omega) (by simp)
    obtain ⟨d, ds, hds⟩ := exists_cons_of_ne_nil (Nat.toDigits_ne_nil (n := n) (b := 10))
    have hd : isDecimalDigit d = true := Numeral.isDecimalDigit_of_mem (n := n) (hds ▸ mem_cons_self)
    rw [htext, hds]
    rw [hds] at hdigits
    refine Accepts.token ?_ ?_
    · exact not_isBlank_of_isStart (by rw [isStart, hd, Bool.or_true])
    · dsimp only
      rw [if_neg (Numeral.isDecimalDigit_ne hd rfl), if_neg (Numeral.isDecimalDigit_ne hd rfl),
        if_neg (Numeral.isDecimalDigit_ne hd rfl), if_neg (Numeral.isDecimalDigit_ne hd rfl), if_pos hd]
      refine hdigits.bind_pure ?_
      rintro _ rfl
      rfl
  · have hdigits := number_accepts false (n := n) (by omega) (fun _ => by omega)
    rw [htext]
    refine Accepts.token rfl ?_
    refine Reader.Accepts.bind (eat_accepts ['-'] rfl) (fun _ _ => ?_) fun _ _ => trivial
    refine hdigits.bind_pure ?_
    rintro _ rfl
    rfl

theorem constant_accepts (ch : Char) (cs : List Char) (v : Json) :
    Accepts (do eat 1; word cs; return v) (ch :: cs) F fun w => w = v := by
  refine Accepts.bind (eat_accepts [ch] rfl) (fun _ _ => ?_) fun _ _ => trivial
  exact ((word_accepts cs).before fun _ _ => trivial).bind_pure fun _ _ => rfl

theorem value_accepts (levels : Nat) (v : Json) (h : Readable levels v) :
    Accepts (value levels) v.text (EndsAt isIntegerEnd) fun w => w = v := by
  induction levels generalizing v with
  | zero => exact h.elim
  | succ levels ih =>
    cases v with
    | null =>
      refine Accepts.token rfl ?_
      dsimp only
      exact constant_accepts 'n' _ _
    | bool b =>
      cases b with
      | true =>
        refine Accepts.token rfl ?_
        exact constant_accepts 't' _ _
      | false =>
        refine Accepts.token rfl ?_
        exact constant_accepts 'f' _ _
    | string s =>
      rw [text_string]
      refine Accepts.token rfl ?_
      dsimp only
      refine Reader.Accepts.bind (a := ['"']) (eat_accepts ['"'] rfl) (fun _ _ => ?_) fun _ _ => trivial
      exact (string_accepts s).bind_pure fun _ hs => congrArg Json.string hs
    | array vs =>
      rw [text_array]
      refine Accepts.token rfl ?_
      dsimp only
      refine (listOf_accepts (Nat.succ_lt_succ h.1) vs (fun v hv => ?_) fun v hv => ?_).bind_pure
        fun _ hvs => congrArg array hvs
      · exact (ih v (h.2 v hv)).before fun _ htail => Parse.endsAt_of_separator htail rfl rfl
      · refine (text_starts (h.2 v hv)).mono fun ch hch => ?_
        rw [not_isBlank_of_isStart hch, Bool.not_false, Bool.true_and]
        exact bne_iff_ne.2 (ne_of_isStart hch ']' rfl)
    | object es =>
      rw [text_object]
      refine Accepts.token rfl ?_
      dsimp only
      refine (mapOf_accepts (Nat.succ_lt_succ h.1) es h.2.1 fun e he => ?_).bind_pure
        fun _ hes => congrArg object hes
      exact (ih e.2 (h.2.2 e he)).before fun _ htail => Parse.endsAt_of_separator htail rfl rfl
    | number n =>
      cases n with
      | floating x => exact h.elim
      | integer i => exact integer_accepts levels h.1 h.2

/-! ### What is read -/

theorem accumulate_le (ds : List Char) (n : Nat) (h : n ≤ bound) : (accumulate bound n ds).1 ≤ bound := by
  induction ds generalizing n with
  | nil => exact h
  | cons d ds ih =>
    rw [accumulate]
    split
    · exact h
    · exact ih _ (by omega)

variable {Q P : α → Prop}

theorem ofParts_gives (positive : Bool) (h : significand ≤ maxNatural) (e : Int) (s : Input) :
    Gives (ofParts positive significand e) s (Number.Legal (· ≠ .nan)) := by
  unfold ofParts
  split
  · exact .failHere
  · rename_i x hx
    have hmax : maxNatural = 18446744073709551615 := rfl
    have hx : x ≠ .nan := scale_ne_nan (isDouble_ofInt (by rw [Int.natAbs_natCast]; omega)) hx
    refine .pure ?_
    cases positive with
    | true => exact hx
    | false => exact negate_ne_nan hx

theorem exponent_gives (positive : Bool) (h : significand ≤ maxNatural) (start : Int) (s : Input) :
    Gives (exponent positive significand start) s (Number.Legal (· ≠ .nan)) := by
  refine (Gives.trivial _ s).bind fun _ t _ _ => Gives.look_bind ?_
  lift_lets
  intro negative unsigned
  have hunsigned : ∀ r u, Gives (unsigned r) u (Number.Legal (· ≠ .nan)) := by
    intro r u
    refine Gives.look_bind ?_
    split
    · exact .failHere
    · refine .ite (fun _ => .failHere) fun _ => .look_bind ?_
      split
      refine .ite (fun _ => .ite (fun _ => ?_) fun _ => ?_) fun _ => ?_
      · exact (Gives.trivial _ _).bind fun _ _ _ _ => Gives.failHere
      · exact (Gives.trivial _ _).bind fun _ _ _ _ => Gives.pure (round_ne_nan _ _ _ _)
      · exact (Gives.trivial _ _).bind fun _ _ _ _ => ofParts_gives _ h _ _
  exact Gives.ite (fun _ => (Gives.trivial _ _).bind fun r u _ _ => hunsigned r u) fun _ => hunsigned () t

theorem fraction_gives (positive : Bool) (h : significand ≤ maxNatural) (start : Int) (s : Input) :
    Gives (fraction positive significand start) s (Number.Legal (· ≠ .nan)) := by
  refine (Gives.trivial _ s).bind fun _ t _ _ => (Gives.trivial _ t).bind fun ds u _ _ => ?_
  refine Gives.ite (fun _ => ?_) fun _ => ?_
  · refine .look_bind ?_
    split
    · exact .failHere
    · exact .failHere
  · have hle := accumulate_le ds significand h
    split
    rename_i haccumulate
    rw [haccumulate] at hle
    refine .look_bind (.ite (fun _ => ?_) fun _ => ?_)
    · exact exponent_gives _ hle _ _
    · exact ofParts_gives _ hle _ _

theorem number_gives (positive : Bool) (s : Input) : Gives (number positive) s (Number.Legal (· ≠ .nan)) := by
  refine .look_bind ?_
  split
  · exact .failHere
  · refine Gives.ite (fun _ => Gives.failHere) fun _ => Gives.look_bind ?_
    refine Gives.ite (fun _ => (Gives.trivial _ _).bind fun _ _ _ _ => Gives.failHere) fun _ => ?_
    refine (Gives.trivial _ _).bind fun _ t _ _ => ?_
    have hle := accumulate_le (s.rest.takeWhile isDecimalDigit) 0 (Nat.zero_le maxNatural)
    have hmax : maxNatural = 18446744073709551615 := rfl
    have hmin : Nat.pow 2 63 = 9223372036854775808 := rfl
    split
    rename_i haccumulate
    rw [haccumulate] at hle
    refine .look_bind (.ite (fun _ => fraction_gives _ hle _ _) fun _ => ?_)
    refine .ite (fun _ => exponent_gives _ hle _ _) fun _ => ?_
    refine .ite (fun _ => ofParts_gives _ hle _ _) fun _ => ?_
    refine .ite (fun _ => .pure ?_) fun _ => .ite (fun _ => .pure ?_) fun hlong => .pure ?_
    · exact ⟨by omega, by omega⟩
    · exact negate_ne_nan (round_ne_nan _ _ _ _)
    · exact ⟨by omega, by omega⟩

theorem items_gives (hitem : ∀ s, Gives item s Q) (first : Bool) (read : List α)
    (hread : ∀ v ∈ read, Q v) (s : Input) : Gives (items item first read) s fun vs => ∀ v ∈ vs, Q v := by
  intro x hx
  fun_induction items item first read s with
  | case2 first read s t rest hrest =>
    cases hx
    exact fun v hv => hread v (mem_reverse.1 hv)
  | case5 read s t ch rest hrest hne y hy z hz ih =>
    cases hx
    exact ih (forall_mem_cons.2 ⟨hitem t y hy, hread⟩) z hz
  | case10 first read s t rest hfirst u ch more hmore hne y hy z hz hrest hcomma ih =>
    cases hx
    exact ih (forall_mem_cons.2 ⟨hitem u y hy, hread⟩) z hz
  | case1 | case3 | case4 | case6 | case7 | case8 | case9 | case11 => cases hx

theorem enter_gives (levels : Nat) (s : Input) : Gives (enter levels) s fun _ => 1 < levels :=
  .ite (fun _ => .failHere) fun hlevels _ _ => not_le.1 hlevels

theorem listOf_gives (hitem : ∀ s, Gives item s Q) (levels : Nat) (s : Input) :
    Gives (listOf levels item) s fun vs => 1 < levels ∧ ∀ v ∈ vs, Q v := by
  refine (enter_gives levels s).bind fun _ t _ hlevels => ?_
  refine (items_gives hitem true [] (by simp) t).bind fun vs _ _ hvs => ?_
  exact (Gives.trivial _ _).bind fun _ _ _ _ => Gives.pure ⟨hlevels, hvs⟩

theorem entries_gives {entry : α → String → Scanner α}
    (hentry : ∀ made key s, P made → Gives (entry made key) s P) (first : Bool) (made : α) (hmade : P made) (s : Input) :
    Gives (entries entry first made) s P := by
  intro x hx
  fun_induction entries entry first made s with
  | case2 first made s t rest hrest =>
    cases hx
    exact hmade
  | case6 made s t ch rest hrest hend hquote y hy z hz ih =>
    cases hx
    have hentered := (Gives.trivial string (t.drop 1)).bind fun key u _ _ => hentry made key u hmade
    exact ih (hentered y hy) z hz
  | case12 first made s t rest hfirst u ch more hmore hend hquote y hy z hz hrest hcomma ih =>
    cases hx
    have hentered := (Gives.trivial string (u.drop 1)).bind fun key u _ _ => hentry made key u hmade
    exact ih (hentered y hy) z hz
  | case1 | case3 | case4 | case5 | case7 | case8 | case9 | case10 | case11 | case13 => cases hx

theorem mapOf_gives {value : Scanner α} (hvalue : ∀ s, Gives value s Q) (levels : Nat) (s : Input) :
    Gives (mapOf levels value) s fun es => 1 < levels ∧ Distinct es ∧ ∀ e ∈ es, Q e.2 := by
  refine (enter_gives levels s).bind fun _ t _ hlevels => ?_
  refine (entries_gives (P := fun es => Distinct es ∧ ∀ e ∈ es, Q e.2) ?_ true [] ⟨nodup_nil, by simp⟩ t).bind
    fun es _ _ hes => ?_
  · intro made key s hmade
    refine (Gives.trivial _ s).bind fun _ t _ _ => (hvalue t).bind fun v _ _ hv => Gives.pure ?_
    refine ⟨distinct_insert hmade.1 key v, fun e he => ?_⟩
    rcases mem_insert he with rfl | he
    · exact hv
    · exact hmade.2 e he
  · exact (Gives.trivial _ _).bind fun _ _ _ _ => Gives.pure ⟨hlevels, hes⟩

theorem value_gives (levels : Nat) (s : Input) : Gives (value levels) s (Legal (· ≠ .nan) levels) := by
  induction levels generalizing s with
  | zero => exact Gives.failHere
  | succ levels ih =>
    refine (Gives.trivial _ s).bind fun o t _ _ => ?_
    have hconstant : ∀ {v : Json} {cs : List Char} {u : Input}, Legal (· ≠ .nan) (levels + 1) v →
        Gives (do eat 1; word cs; return v) u (Legal (· ≠ .nan) (levels + 1)) :=
      fun h => (Gives.trivial _ _).bind fun _ _ _ _ => (Gives.trivial _ _).bind fun _ _ _ _ =>
        .pure h
    have hnumber : ∀ {positive : Bool} {u : Input}, Gives (do return .number (← number positive)) u
        (Legal (· ≠ .nan) (levels + 1)) :=
      (number_gives _ _).bind fun n _ _ hn => .pure hn
    split
    · exact .failHere
    · refine .ite (fun _ => hconstant trivial) fun _ => ?_
      refine .ite (fun _ => hconstant trivial) fun _ => ?_
      refine .ite (fun _ => hconstant trivial) fun _ => ?_
      refine Gives.ite (fun _ => (Gives.trivial _ _).bind fun _ _ _ _ => hnumber) fun _ => ?_
      refine .ite (fun _ => hnumber) fun _ => ?_
      refine .ite (fun _ => ?_) fun _ => ?_
      · exact (Gives.trivial _ _).bind fun _ _ _ _ => (Gives.trivial _ _).bind fun _ _ _ _ =>
          .pure trivial
      refine .ite (fun _ => ?_) fun _ => .ite (fun _ => ?_) fun _ => .failHere
      · exact (listOf_gives ih _ t).bind fun vs _ _ hvs =>
          .pure ⟨Nat.lt_of_succ_lt_succ hvs.1, hvs.2⟩
      · exact (mapOf_gives ih _ t).bind fun es _ _ hes =>
          .pure ⟨Nat.lt_of_succ_lt_succ hes.1, hes.2⟩

end Scanner

theorem Legal.same_self (h : Legal (· ≠ .nan) levels v) : v.same v = true := by
  induction levels generalizing v with
  | zero => exact h.elim
  | succ levels ih =>
    cases v with
    | null => rfl
    | bool b | string s => exact decide_eq_true rfl
    | number n =>
      cases n with
      | floating x => exact equal_self h
      | integer i => exact decide_eq_true rfl
    | array vs =>
      rw [same]
      have hitems : ∀ v ∈ vs, v.same v = true := fun v hv => ih (h.2 v hv)
      clear h
      induction vs with
      | nil => rfl
      | cons v vs ihs =>
        rw [sameItems, hitems v mem_cons_self]
        exact ihs fun w hw => hitems w (mem_cons_of_mem v hw)
    | object es =>
      have hentries : ∀ rest : Entries Json, (∀ e ∈ rest, e ∈ es) → sameEntries rest es = true := by
        intro rest hrest
        induction rest with
        | nil => rfl
        | cons e rest ihs =>
          have he := hrest e mem_cons_self
          rw [sameEntries, lookup_of_mem h.2.1 he]
          refine Bool.and_eq_true_iff.2 ⟨ih (h.2.2 e he), ?_⟩
          exact ihs fun e' he' => hrest e' (mem_cons_of_mem e he')
      rw [same, hentries es fun _ he => he, Bool.and_true]
      exact decide_eq_true rfl

/-! ### Values on a line -/

theorem not_control_of_mem_escapeChar (h : ch ∈ escapeChar c) : 32 ≤ ch.toNat := by
  rcases escapeChar_cases c with ⟨hescape, -, -, hcontrol⟩ | ⟨code, hescape, hcode, -⟩
  · rw [hescape, mem_singleton] at h
    rw [h]
    exact not_lt.1 hcontrol
  · rw [hescape] at h
    rcases mem_cons.1 h with rfl | h
    · decide
    · exact hcode ch h

theorem mem_listText {α : Type} {text : α → List Char} {vs : List α}
    (h : ch ∈ listText text vs) : ch = ',' ∨ ∃ v ∈ vs, ch ∈ text v := by
  cases vs with
  | nil => cases h
  | cons v vs =>
    rcases mem_append.1 h with h | h
    · exact .inr ⟨v, mem_cons_self, h⟩
    · obtain ⟨w, hw, hch⟩ := mem_flatMap.1 h
      rcases mem_cons.1 hch with rfl | hch
      · exact .inl rfl
      · exact .inr ⟨w, mem_cons_of_mem v hw, hch⟩

theorem not_control_of_mem_stringText {text : String} (h : ch ∈ '"' :: stringText text) : 32 ≤ ch.toNat := by
  simp only [stringText, mem_cons, mem_append, mem_flatMap, not_mem_nil, or_false] at h
  rcases h with rfl | ⟨c, -, hch⟩ | rfl
  · decide
  · exact not_control_of_mem_escapeChar hch
  · decide

theorem not_control_of_mem_toString (i : Int) : ∀ ch ∈ (toString i).toList, 32 ≤ ch.toNat := by
  have hdigits : ∀ n, ∀ ch ∈ Nat.toDigits 10 n, 32 ≤ ch.toNat := by
    intro n ch hch
    have hdigit := Numeral.isDecimalDigit_of_mem hch
    simp only [isDecimalDigit, Bool.and_eq_true, decide_eq_true_eq, Char.le_def, UInt32.le_iff_toNat_le,
      Char.reduceVal, UInt32.reduceToNat, Char.toNat_val] at hdigit
    omega
  obtain ⟨n, ⟨-, htext⟩ | ⟨-, -, htext⟩⟩ := Numeral.toList_toString i
  · rw [htext]
    exact hdigits n
  · rw [htext]
    exact forall_mem_cons.2 ⟨by decide, hdigits n⟩

theorem mem_positional {pointZero : Bool}
    (h : ch ∈ (positional pointZero digits power).toList) : ch ∈ digits.toList ∨ ch = '0' ∨ ch = '.' := by
  cases power with
  | ofNat k =>
    cases pointZero <;> simp [positional, times] at h <;> tauto
  | negSucc k =>
    rw [positional] at h
    split at h
    · simp only [toList_append, toList_ofList, mem_append] at h
      rcases h with (h | h) | h
      · exact .inl (mem_of_mem_take h)
      · exact .inr (.inr (mem_singleton.1 h))
      · exact .inl (mem_of_mem_drop h)
    · simp [times] at h
      tauto

theorem not_control_of_mem_scientific {plus : Bool} (hdigits : ∀ ch ∈ digits.toList, 32 ≤ ch.toNat) :
    ∀ ch ∈ (scientific plus digits power).toList, 32 ≤ ch.toNat := by
  intro ch h
  simp only [scientific, toList_append, mem_append, toList_ofList] at h
  rcases h with (((h | h) | h) | h) | h
  · exact hdigits ch (mem_of_mem_take h)
  · split at h
    · cases h
    · simp only [toList_append, mem_append, toList_ofList] at h
      rcases h with h | h
      · rw [mem_singleton.1 h]
        decide
      · exact hdigits ch (mem_of_mem_drop h)
  · rw [mem_singleton.1 h]
    decide
  · split at h
    · rw [mem_singleton.1 h]
      decide
    · cases h
  · exact not_control_of_mem_toString _ ch h

theorem not_control_of_mem_write (f : Floating.Format) (style : Floating.Style) (x : Floating) :
    ∀ ch ∈ (x.write f style).toList, 32 ≤ ch.toNat := by
  have hsigned : ∀ (negative : Bool) (text : String), (∀ ch ∈ text.toList, 32 ≤ ch.toNat) →
      ∀ ch ∈ (if negative then "-" ++ text else text).toList, 32 ≤ ch.toNat := by
    intro negative text htext
    cases negative with
    | false => exact htext
    | true =>
      rw [if_pos rfl, toList_append]
      exact forall_mem_append.2 ⟨by simp, htext⟩
  cases x with
  | nan => simp [Floating.write]
  | infinite negative => cases negative <;> simp [Floating.write]
  | finite negative m e =>
    refine hsigned negative _ ?_
    have hdigits : ∀ n : Nat, ∀ ch ∈ (toString n).toList, 32 ≤ ch.toNat :=
      fun n => not_control_of_mem_toString n
    split
    · exact not_control_of_mem_scientific (hdigits _)
    · intro ch hch
      rcases mem_positional hch with h | rfl | rfl
      · exact hdigits _ ch h
      · decide
      · decide

theorem not_control_of_mem_text (h : Legal floats levels v) : ∀ ch ∈ v.text, 32 ≤ ch.toNat := by
  induction levels generalizing v with
  | zero => exact h.elim
  | succ levels ih =>
    cases v with
    | null =>
      rw [text_null]
      simp
    | bool b =>
      cases b with
      | true =>
        rw [text_true]
        simp
      | false =>
        rw [text_false]
        simp
    | string s =>
      rw [text_string]
      exact fun ch => not_control_of_mem_stringText
    | number n =>
      cases n with
      | floating x => exact not_control_of_mem_write _ _ x
      | integer i => exact not_control_of_mem_toString i
    | array vs =>
      intro ch hch
      rw [text_array, mem_append, mem_append, mem_singleton, mem_singleton] at hch
      rcases hch with rfl | hch | rfl
      · decide
      · rcases mem_listText hch with rfl | ⟨v, hv, hch⟩
        · decide
        · exact ih (h.2 v hv) ch hch
      · decide
    | object es =>
      intro ch hch
      rw [text_object, mem_append, mem_append, mem_singleton, mem_singleton] at hch
      rcases hch with rfl | hch | rfl
      · decide
      · rcases mem_listText hch with rfl | ⟨e, he, hch⟩
        · decide
        · rw [entryText, ← cons_append] at hch
          rcases mem_append.1 hch with hch | hch
          · exact not_control_of_mem_stringText hch
          · rcases mem_cons.1 hch with rfl | hch
            · decide
            · exact ih (h.2.2 e he) ch hch
      · decide

namespace Scanner

theorem leading_accepts (h : Readable maxLevels v) :
    Accepts leading v.text (EndsAt fun ch => ch = ' ') fun o => o = some v := by
  obtain ⟨ch, cs, htext, hch⟩ := text_starts h
  have hvalue := value_accepts maxLevels v h
  rw [htext] at hvalue ⊢
  refine Accepts.token (not_isBlank_of_isStart hch) ?_
  intro s tail hs htail
  refine (hvalue s tail hs (htail.mono fun ch hch => ?_)).bind ?_
  · rw [of_decide_eq_true hch]
    rfl
  · rintro _ t rfl ht
    split
    · exact .pure ht rfl
    · refine .look_bind ?_
      rw [ht]
      cases tail with
      | nil => exact .pure ht rfl
      | cons d tail =>
        obtain rfl : d = ' ' := of_decide_eq_true htail.of_cons
        exact .pure ht rfl

theorem leading_gives (s : Input) : Gives leading s fun o => ∀ v ∈ o, Legal (· ≠ .nan) maxLevels v := by
  refine (Gives.trivial _ s).bind fun o t _ _ => ?_
  split
  · exact Gives.pure (by simp)
  · refine (value_gives maxLevels t).bind fun v u _ hv => ?_
    have hsome : ∀ w ∈ some v, Legal (· ≠ .nan) maxLevels w := by
      rintro _ ⟨⟩
      exact hv
    refine .ite (fun _ => .pure hsome) fun _ => .look_bind ?_
    split
    · exact .pure hsome
    · exact .ite (fun _ => .pure hsome) fun _ => .failHere

end Scanner

end Mcfunction.Json

namespace Mcfunction.Parse

open List
open Reader (Gives)

theorem lineRest_eq {c : Cursor} {text tail : List Char} (hc : c.rest = text ++ tail)
    (htext : ∀ ch ∈ text, 32 ≤ ch.toNat) (htail : EndsAt isBreak tail) :
    ∃ more, c.lineRest = text ++ more ∧ EndsAt (fun ch => ch = ' ') more := by
  have hline : c.rest.takeWhile (· ≠ '\n') = text ++ tail.takeWhile (· ≠ '\n') := by
    rw [hc, takeWhile_append_of_pos]
    intro ch hch
    refine decide_eq_true ?_
    rintro rfl
    exact absurd (htext _ hch) (by decide)
  have hspace : EndsAt (fun ch => ch = ' ') (tail.takeWhile (· ≠ '\n')) := by
    cases tail with
    | nil => exact EndsAt.nil
    | cons ch tail =>
      have hch := htail.of_cons
      simp only [isBreak, Bool.or_eq_true, decide_eq_true_eq] at hch
      rcases hch with rfl | rfl
      · exact EndsAt.cons rfl
      · exact EndsAt.nil
  rw [Cursor.lineRest, hline]
  generalize tail.takeWhile (· ≠ '\n') = line at hspace
  split
  · rename_i hlast
    cases line with
    | nil =>
      rw [append_nil] at hlast
      exact absurd (htext _ (mem_of_getLast? hlast)) (by decide)
    | cons ch line =>
      refine ⟨(ch :: line).dropLast, dropLast_append_of_ne_nil (cons_ne_nil ch line), ?_⟩
      cases line with
      | nil => exact EndsAt.nil
      | cons next line => exact EndsAt.cons hspace.of_cons
  · exact ⟨line, rfl, hspace⟩

theorem json_gives (c : Cursor) : Gives json c (Json.Legal (· ≠ .nan) Json.Scanner.maxLevels) := by
  intro x hx
  unfold json at hx
  split at hx
  · cases hx
  · rename_i y hy
    split at hx
    · cases hx
    · rename_i v hv
      cases hx
      exact Json.Scanner.leading_gives _ y hy v hv

theorem json_accepts {v : Json} (h : v.Readable Json.Scanner.maxLevels) :
    Accepts json v.text (EndsAt isBreak) fun w => w = v := by
  intro c tail hc htail
  obtain ⟨more, hline, hmore⟩ := lineRest_eq hc (Json.not_control_of_mem_text h) htail
  obtain ⟨x, hx, hnext, hvalue⟩ := Json.Scanner.leading_accepts h (.start c.lineRest) more hline hmore
  refine ⟨⟨v, c.drop (c.lineRest.length - x.next.rest.length), c.reaches_drop _⟩, ?_, ?_, rfl⟩
  · unfold json
    rw [hx]
    dsimp only
    rw [hvalue]
  · rw [Cursor.rest_drop, hnext, hline, length_append, Nat.add_sub_cancel, hc, drop_left]

theorem component_restores (c : Cursor) : Gives component c fun n =>
    n.Exact → Restores component Json.isStart (EndsAt isBreak) n := by
  refine node_gives ((json_gives c).bind fun v _ _ hv => .pure fun span hexact => ?_)
  have hread := hv.readable hexact.self
  have htext : (⟨.json v, span⟩ : Node).text.toList = v.text := by
    rw [Node.text_eq]
    rfl
  refine .of_text htext (Json.text_starts hread) ?_ rfl hv.same_self
  refine node_accepts (Q := fun form => form = .json v) ((json_accepts hread).bind_pure ?_)
  rintro _ rfl
  rfl

end Mcfunction.Parse
