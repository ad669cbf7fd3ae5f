import Mcfunction.Proofs.Alike
import Mcfunction.Proofs.Numerals
import Mcfunction.Proofs.Way

/-! Decimals as text. A finite number is written as digits, with a point among them or none, and every reader of
decimals takes such a text whole. An infinity is written as a word, which no reader of numbers takes. So the literal of
a number is read as one again exactly if its value is finite; beyond the reach of a format it is not. -/

namespace Mcfunction

open List Floating String Token Floating Snbt

def Floating.isFinite : Floating → Bool
  | .finite .. => true
  | _ => false

def Number.isFinite : Number → Bool
  | .int _ => true
  | .float x => x.isFinite

/-! ### How finite numbers are written -/

variable {cs ds tail es : List Char} {text word digits : String} {ch first : Char} {x : Floating}

namespace Numeral

open Floating (isDecimalDigit)

structure Digits (ds : List Char) : Prop where
  ne_nil : ds ≠ []
  all : ∀ ch ∈ ds, isDecimalDigit ch = true

/-- A decimal without sign: digits, with a point among them or none. -/
inductive Unsigned : List Char → Prop
  | whole {ds : List Char} (hds : Digits ds) : Unsigned ds
  | point {ds es : List Char} (hds : Digits ds) (hes : Digits es) : Unsigned (ds ++ '.' :: es)

/-- A decimal, with or without a minus. -/
inductive Spelled : List Char → Prop
  | positive {cs : List Char} (h : Unsigned cs) : Spelled cs
  | negative {cs : List Char} (h : Unsigned cs) : Spelled ('-' :: cs)

theorem Digits.append (hds : Digits ds) (hes : ∀ ch ∈ es, isDecimalDigit ch = true) : Digits (ds ++ es) :=
  ⟨append_ne_nil_of_left_ne_nil hds.ne_nil es, forall_mem_append.2 ⟨hds.all, hes⟩⟩

theorem Digits.of_append (hds : ∀ ch ∈ ds, isDecimalDigit ch = true) (hes : Digits es) : Digits (ds ++ es) :=
  ⟨append_ne_nil_of_right_ne_nil ds hes.ne_nil, forall_mem_append.2 ⟨hds, hes.all⟩⟩

theorem digits_toDigits (n : Nat) : Digits (Nat.toDigits 10 n) :=
  ⟨Nat.toDigits_ne_nil, fun _ => isDecimalDigit_of_mem⟩

theorem digits_toString (n : Nat) : Digits (toString n).toList := by
  have htext : (toString n).toList = Nat.toDigits 10 n := by
    change n.repr.toList = _
    rw [Nat.repr_eq_ofList_toDigits, toList_ofList]
  rw [htext]
  exact digits_toDigits n

theorem digits_zero : Digits ['0'] := ⟨cons_ne_nil _ _, forall_mem_singleton.2 (by decide)⟩

theorem isDecimalDigit_times {n : Nat} (h : ch ∈ (times n '0').toList) : isDecimalDigit ch = true := by
  rw [times, toList_ofList] at h
  rw [eq_of_mem_replicate h]
  decide

theorem Unsigned.head (h : Unsigned cs) : ∃ d rest, cs = d :: rest ∧ isDecimalDigit d = true := by
  have hdigits : ∀ {ds}, Digits ds → ∀ more, ∃ d rest, ds ++ more = d :: rest ∧ isDecimalDigit d = true := by
    intro ds hds more
    obtain ⟨d, rest, rfl⟩ := exists_cons_of_ne_nil hds.ne_nil
    exact ⟨d, rest ++ more, rfl, hds.all d mem_cons_self⟩
  cases h with
  | whole hds => simpa using hdigits hds []
  | point hds hes => exact hdigits hds _

theorem Spelled.head (h : Spelled cs) : ∃ ch rest, cs = ch :: rest ∧ isStart ch = true := by
  cases h with
  | positive h =>
    obtain ⟨d, rest, rfl, hd⟩ := h.head
    exact ⟨d, rest, rfl, by rw [isStart, hd, Bool.true_or]⟩
  | negative h => exact ⟨'-', _, rfl, rfl⟩

theorem positional_unsigned (pointZero : Bool) (h : Digits digits.toList) (power : Int) :
    Unsigned (positional pointZero digits power).toList := by
  cases power with
  | ofNat k =>
    have hwhole := h.append fun _ => isDecimalDigit_times (n := k)
    cases pointZero with
    | true =>
      have htext : (positional true digits (.ofNat k)).toList =
          (digits.toList ++ (times k '0').toList) ++ '.' :: ['0'] := by
        simp [positional]
      rw [htext]
      exact .point hwhole digits_zero
    | false =>
      have htext : (positional false digits (.ofNat k)).toList =
          digits.toList ++ (times k '0').toList := by
        simp [positional]
      rw [htext]
      exact .whole hwhole
  | negSucc k =>
    rw [positional]
    split
    · have htext (a b : List Char) : (ofList a ++ "." ++ ofList b).toList = a ++ '.' :: b := by simp
      rw [htext]
      refine .point ⟨?_, fun ch hch => h.all ch (mem_of_mem_take hch)⟩
        ⟨?_, fun ch hch => h.all ch (mem_of_mem_drop hch)⟩
      · exact ne_nil_of_length_pos (by rw [length_take]; omega)
      · exact ne_nil_of_length_pos (by rw [length_drop]; omega)
    · simp only [toList_append]
      exact .point digits_zero (Digits.of_append (fun _ => isDecimalDigit_times) h)

theorem spelled_ite {negative : Bool} (h : Unsigned text.toList) :
    Spelled (if negative then "-" ++ text else text).toList := by
  cases negative with
  | true =>
    rw [if_pos rfl, toList_append]
    exact .negative h
  | false => exact .positive h

theorem write_spelled (f : Format) (style : Style) (hstyle : ∀ e, style.scientific e = false)
    (hx : x.isFinite = true) : Spelled (x.write f style).toList := by
  cases x with
  | finite negative m e =>
    refine spelled_ite ?_
    rw [if_neg (by simp [hstyle])]
    exact positional_unsigned _ (digits_toString _) _
  | infinite negative | nan => cases hx

theorem writeWhole_spelled (hx : x.isFinite = true) : Spelled x.writeWhole.toList := by
  cases x with
  | finite negative m e =>
    refine spelled_ite ?_
    rw [toList_append]
    exact .point (digits_toString _) digits_zero
  | infinite negative | nan => cases hx

theorem number_write_spelled {v : Number} (hv : v.isFinite = true) : Spelled v.write.toList := by
  cases v with
  | int i =>
    rw [Number.write]
    obtain ⟨n, ⟨-, htext⟩ | ⟨-, -, htext⟩⟩ := toList_toString i
    · rw [htext]
      exact .positive (.whole (digits_toDigits n))
    · rw [htext]
      exact .negative (.whole (digits_toDigits n))
  | float x =>
    rw [Number.write]
    split
    · exact writeWhole_spelled hv
    · exact write_spelled _ _ (fun _ => rfl) hv

end Numeral

/-! ### How they are read -/

namespace Token

open Numeral

theorem decimal_unsigned (h : Unsigned cs) (htail : EndsAt isNumberEnd tail) : decimal (cs ++ tail) = cs.length := by
  cases h with
  | whole hds => exact decimal_append hds.ne_nil (fun ch hch => isDigit_of_isDecimalDigit (hds.all ch hch)) htail
  | @point ds es hds hes =>
    have hpoint : EndsAt (fun ch => !Text.isDigit ch) ('.' :: (es ++ tail)) := EndsAt.cons (by decide)
    have hdigits := digits_append (fun ch hch => isDigit_of_isDecimalDigit (hds.all ch hch)) hpoint
    have hfraction : looseFraction ('.' :: (es ++ tail)) = es.length + 1 := by
      rw [looseFraction, digits_append (fun ch hch => isDigit_of_isDecimalDigit (hes.all ch hch)) (noDigit htail)]
    rw [List.append_assoc, cons_append, decimal, unsigned, hdigits]
    split
    · rename_i hzero
      exact absurd (length_eq_zero_iff.1 hzero) hds.ne_nil
    · rw [drop_left, hfraction, List.length_append, length_cons]

theorem number_spelled (h : Spelled cs) (htail : EndsAt isNumberEnd tail) : number (cs ++ tail) = cs.length := by
  cases h with
  | positive h =>
    have hlen := decimal_unsigned h htail
    obtain ⟨d, rest, rfl, hd⟩ := h.head
    rw [number, signed_eq]
    · exact hlen
    · exact EndsAt.cons (bne_iff_ne.2 (isDecimalDigit_ne hd (by decide)))
  | @negative cs h =>
    have hlen := decimal_unsigned h htail
    rw [cons_append, number, signed, hlen]
    split
    · rename_i hzero
      obtain ⟨d, rest, rfl, -⟩ := h.head
      cases hzero
    · rfl

end Token

namespace Floating

open Numeral

theorem toLower_of_isDecimalDigit (h : isDecimalDigit ch = true) : ch.toLower = ch := by
  rw [isDecimalDigit_eq, Char.isDigit, Bool.and_eq_true] at h
  have hhigh : ch.toNat ≤ 0x39 := UInt32.le_iff_toNat_le.1 (of_decide_eq_true h.2)
  unfold Char.toLower
  rw [dif_neg]
  rintro ⟨hlow, -⟩
  have : 0x41 ≤ ch.toNat := UInt32.le_iff_toNat_le.1 hlow
  omega

theorem ofList_map_toLower_ne (h : Unsigned cs)
    (hword : word.toList.head? = some first) (hfirst : isDecimalDigit first = false) :
    ofList (cs.map Char.toLower) ≠ word := by
  rintro rfl
  obtain ⟨d, rest, rfl, hd⟩ := h.head
  rw [toList_ofList, map_cons, toLower_of_isDecimalDigit hd] at hword
  exact isDecimalDigit_ne hd hfirst (Option.some.inj hword)

theorem unsigned?_whole (h : Digits ds) (f : Format) (negative : Bool) :
    unsigned? f negative ds = some (ofDecimal f negative (digitsValue ds) 0) := by
  have htake : ds.takeWhile isDecimalDigit = ds := takeWhile_eq_self_iff.2 h.all
  have hdrop : ds.dropWhile isDecimalDigit = [] := dropWhile_eq_nil_iff.2 h.all
  rw [unsigned?, htake, hdrop]
  dsimp only
  rw [if_neg fun hnil => h.ne_nil hnil.1, append_nil]
  rfl

theorem unsigned?_eq_some (h : Unsigned cs) (f : Format) (negative : Bool) : ∃ x, unsigned? f negative cs = some x := by
  cases h with
  | whole hds => exact ⟨_, unsigned?_whole hds f negative⟩
  | @point ds es hds hes =>
    have hpoint : ¬isDecimalDigit '.' = true := by decide
    have htake : (ds ++ '.' :: es).takeWhile isDecimalDigit = ds := by
      rw [takeWhile_append_of_pos hds.all, takeWhile_cons_of_neg hpoint, append_nil]
    have hdrop : (ds ++ '.' :: es).dropWhile isDecimalDigit = '.' :: es := by
      rw [dropWhile_append_of_pos hds.all, dropWhile_cons_of_neg hpoint]
    have hbehind : es.dropWhile isDecimalDigit = [] := dropWhile_eq_nil_iff.2 hes.all
    rw [unsigned?, htake, hdrop]
    dsimp only
    rw [if_neg fun h => hds.ne_nil h.1]
    change ∃ x, (exponent? (es.dropWhile isDecimalDigit)).map _ = some x
    rw [hbehind]
    exact ⟨_, rfl⟩

theorem read?_eq (f : Format) (negative : Bool) (h : Unsigned cs)
    (htext : text.toList = if negative then '-' :: cs else cs) : read? f text = unsigned? f negative cs := by
  unfold read?
  split
  rename_i sign rest hsplit
  obtain ⟨rfl, rfl⟩ : negative = sign ∧ cs = rest := by
    rw [htext] at hsplit
    cases negative with
    | true => exact Prod.mk.inj hsplit
    | false =>
      obtain ⟨d, more, rfl, hd⟩ := h.head
      split at hsplit
      · rename_i hminus
        exact absurd (cons.inj hminus).1 (isDecimalDigit_ne hd (by decide))
      · rename_i hplus
        exact absurd (cons.inj hplus).1 (isDecimalDigit_ne hd (by decide))
      · exact Prod.mk.inj hsplit
  rw [if_neg, if_neg]
  · exact ofList_map_toLower_ne h rfl (by decide)
  · exact not_or.2 ⟨ofList_map_toLower_ne h rfl (by decide), ofList_map_toLower_ne h rfl (by decide)⟩

theorem read?_eq_some (h : Spelled text.toList) (f : Format) : ∃ x, read? f text = some x := by
  generalize hcs : text.toList = cs at h
  cases h with
  | positive h =>
    rw [read?_eq f false h hcs]
    exact unsigned?_eq_some h f false
  | negative h =>
    rw [read?_eq f true h hcs]
    exact unsigned?_eq_some h f true

end Floating

/-! ### Numbers -/

namespace Parse

open Numeral

theorem numberValue_eq_ok (text : String) (h : Spelled text.toList) : ∃ v, numberValue text false = .ok v := by
  obtain ⟨x, hx⟩ := read?_eq_some h .double
  unfold numberValue
  dsimp only
  rw [hx]
  split
  · exact ⟨_, rfl⟩
  · split <;> exact ⟨_, rfl⟩

theorem numberValue_digits (h : Digits ds) (hlong : fits 64 (digitsValue ds) = false) :
    numberValue (ofList ds) false = .ok (.float (.ofDecimal .double false (digitsValue ds) 0)) := by
  have hpoint : '.' ∉ (ofList ds).toList := by
    rw [toList_ofList]
    exact fun hmem => absurd (h.all '.' hmem) (by decide)
  have hsigned : signedValue? 64 (ofList ds) = none := by
    rw [signedValue?, (integerValue?_digits h.ne_nil h.all).1]
    exact if_neg (by rw [hlong]; exact Bool.false_ne_true)
  have hread : read? .double (ofList ds) = some (.ofDecimal .double false (digitsValue ds) 0) :=
    (read?_eq .double false (.whole h) toList_ofList).trans (unsigned?_whole h _ _)
  rw [numberValue, if_neg hpoint, hsigned, hread]
  rfl

theorem number_accepts_spelled (h : Spelled cs) : Accepts (number false) cs (EndsAt isNumberEnd) fun n =>
      ∃ v, numberValue (ofList cs) false = .ok v ∧ n.form = .number v := by
  have hne : cs ≠ [] := by
    obtain ⟨ch, rest, rfl, -⟩ := h.head
    exact cons_ne_nil ch rest
  intro c tail hc htail
  refine (token_accepts "number" hne (fun _ => number_spelled h) c tail hc htail).bind ?_
  rintro ⟨text, span⟩ d rfl hd
  obtain ⟨v, hv⟩ := numberValue_eq_ok (ofList cs) (by rwa [toList_ofList])
  have hread : Reads (numberAt (ofList cs) span false) d tail fun w => w = v := by
    rw [numberAt, hv]
    exact .pure hd rfl
  refine hread.bind ?_
  rintro _ e rfl he
  exact .pure he ⟨_, hv, rfl⟩

theorem number_digits (h : Digits ds) (hlong : fits 64 (digitsValue ds) = false) :
    ∃ x, number false (.start (ofList ds)) = .ok x ∧ x.next.rest = [] ∧
      x.value.form = .number (.float (.ofDecimal .double false (digitsValue ds) 0)) := by
  obtain ⟨x, hx, hnext, v, hv, hform⟩ := number_accepts_spelled (.positive (.whole h)) (.start (ofList ds)) []
    (toList_ofList.trans (append_nil ds).symm) EndsAt.nil
  cases (numberValue_digits h hlong).symm.trans hv
  exact ⟨x, hx, hnext, hform⟩

end Parse

namespace Snbt

open Numeral

theorem isDecimal_spelled (h : Spelled cs) : isDecimal cs = true := by
  have hbody : Unsigned (unsigned cs) := by
    cases h with
    | positive h =>
      obtain ⟨d, rest, hcs, hd⟩ := h.head
      have hsame : unsigned cs = cs := by
        rw [hcs, unsigned]
        · exact fun ds hds => isDecimalDigit_ne hd (by decide) (cons.inj hds).1
        · exact fun ds hds => isDecimalDigit_ne hd (by decide) (cons.inj hds).1
      rwa [hsame]
    | negative h => exact h
  have hlen : decimal (unsigned cs) = (unsigned cs).length := by simpa using decimal_unsigned hbody EndsAt.nil
  have hne : (unsigned cs).length ≠ 0 := by
    obtain ⟨d, rest, heq, -⟩ := hbody.head
    rw [heq]
    exact Nat.succ_ne_zero _
  rw [isDecimal, hlen]
  simpa [isExponent] using hne

theorem number?_spelled (h : Spelled text.toList) :
    (∃ x, number? text (some 'f') = some (.float x)) ∧ ∃ x, number? text (some 'd') = some (.double x) := by
  obtain ⟨x, hx⟩ := read?_eq_some h .single
  obtain ⟨y, hy⟩ := read?_eq_some h .double
  unfold number?
  extract_lets cs plain
  have hplain : plain = text := by
    simp only [plain, cs]
    split
    · rename_i hplus
      obtain ⟨ch, rest, heq, hch⟩ := h.head
      cases heq.symm.trans hplus
      cases hch
    · rfl
  have hdecimal : isDecimal cs = true := isDecimal_spelled h
  rw [hplain, hx, hy]
  split <;> exact ⟨⟨x, rfl⟩, y, rfl⟩

theorem classify_spelled (h : Spelled text.toList) (hch : isSuffix ch = true)
    (hlower : ch.toLower = ch) {s : Scalar} (hs : number? text (some ch) = some s) :
    classify (text ++ String.singleton ch) = s := by
  have hne : ∀ word : String, word.toList.head?.any isStart = false → text ++ singleton ch ≠ word := by
    rintro _ hword rfl
    obtain ⟨first, rest, heq, hfirst⟩ := h.head
    rw [toList_append, heq, cons_append, head?_cons, Option.any_some, hfirst] at hword
    cases hword
  have htext : (text ++ singleton ch).toList = text.toList ++ [ch] := by simp
  rw [classify, if_neg (hne _ (by decide)), if_neg (hne _ (by decide)), htext]
  dsimp only
  rw [getLast?_concat]
  dsimp only
  rw [hlower, if_pos hch, dropLast_concat, ofList_toList, hs]
  rfl

theorem classify_write_iff (x : Floating) : ((∃ y, classify (Scalar.float x).write = .float y) ↔ x.isFinite = true) ∧
      ((∃ y, classify (Scalar.double x).write = .double y) ↔ x.isFinite = true) := by
  cases hx : x.isFinite with
  | true =>
    have hspelled (f : Format) : Spelled (x.write f .plain).toList := write_spelled f _ (fun _ => rfl) hx
    obtain ⟨y, hy⟩ := (number?_spelled (hspelled .single)).1
    obtain ⟨z, hz⟩ := (number?_spelled (hspelled .double)).2
    exact ⟨iff_of_true ⟨y, classify_spelled (hspelled .single) (by decide) (by decide) hy⟩ rfl,
      iff_of_true ⟨z, classify_spelled (hspelled .double) (by decide) (by decide) hz⟩ rfl⟩
  | false =>
    have hstring : classify (Scalar.float x).write = .string (Scalar.float x).write ∧
        classify (Scalar.double x).write = .string (Scalar.double x).write := by
      cases x with
      | finite negative m e => cases hx
      | infinite negative => cases negative <;> decide +kernel
      | nan => decide +kernel
    rw [hstring.1, hstring.2]
    simp

end Snbt

namespace Parse

open Numeral

theorem number_renders (p : Printer) {c : Cursor} {x : Step c Node} (hx : number false c = .ok x) :
    ∃ v, x.value.form = .number v ∧ p.render x.value = .ok v.write := by
  obtain ⟨v, hform, -⟩ := number_gives false c x hx
  have hleaf := (number_agree (Pairing.twin_still (.refl c)) false).mono fun _ _ _ hn => hn.1.toTrees
  refine ⟨v, hform, (Printer.render_text (hleaf.at.ok hx).plain.isPart).trans ?_⟩
  rw [Node.text_eq, hform]
  rfl

theorem number_write_iff (v : Number) :
    (∃ y, number false (.start v.write) = .ok y ∧ y.next.rest = []) ↔ v.isFinite = true := by
  constructor
  · rintro ⟨y, hy, -⟩
    refine Decidable.byContradiction fun hv => ?_
    have hword : (number false (.start v.write)).toOption.isSome = false := by
      cases v with
      | int i => exact absurd rfl hv
      | float x =>
        cases x with
        | finite negative m e => exact absurd rfl hv
        | infinite negative => cases negative <;> decide +kernel
        | nan => decide +kernel
    rw [hy] at hword
    cases hword
  · intro hv
    obtain ⟨y, hy, hnext, -⟩ := number_accepts_spelled (number_write_spelled hv) (.start v.write) []
      (append_nil _).symm EndsAt.nil
    exact ⟨y, hy, hnext⟩

/-- Which literals stay numeric. Whatever is read as a number is printed, and the text is taken whole as a number again
exactly if the number is finite. A floating point scalar of SNBT, whatever token it comes from, keeps its type under the
same condition. -/
theorem literals_stay_numeric (p : Printer) :
    (∀ c x, number false c = .ok x → ∃ v text, x.value.form = .number v ∧ p.render x.value = .ok text ∧
      ((∃ y, number false (.start text) = .ok y ∧ y.next.rest = []) ↔ v.isFinite = true)) ∧
    ∀ x, ((∃ y, classify (Scalar.float x).write = .float y) ↔ x.isFinite = true) ∧
      ((∃ y, classify (Scalar.double x).write = .double y) ↔ x.isFinite = true) := by
  refine ⟨fun c x hx => ?_, classify_write_iff⟩
  obtain ⟨v, hform, htext⟩ := number_renders p hx
  exact ⟨v, v.write, hform, htext, number_write_iff v⟩

/-- A number with more digits than a double has, and two scalars at the ends of their formats. -/
theorem literals_stay_numeric_finite :
    let p : Printer := { spec := { tree := .bundled, prototypes := [] } }
    let digits := "-12345678901234567890.5"
    (∃ x, number false (.start digits) = .ok x ∧ ∃ v text, x.value.form = .number v ∧ p.render x.value = .ok text ∧
      ((∃ y, number false (.start text) = .ok y ∧ y.next.rest = []) ↔ v.isFinite = true)) ∧
    (∃ x, classify "3.4028235e38f" = .float x ∧ x.isFinite = true ∧
      ∃ y, classify (Scalar.float x).write = .float y) ∧
    ∃ x, classify "5e-324" = .double x ∧ x.isFinite = true ∧
      ∃ y, classify (Scalar.double x).write = .double y := by
  intro p digits
  obtain ⟨hnumbers, hscalars⟩ := literals_stay_numeric p
  obtain ⟨x, hx⟩ : ∃ x, number false (.start digits) = .ok x := exists_ok_of (by decide +kernel)
  have hfloat : classify "3.4028235e38f" = .float (.finite false 16777215 104) := by decide +kernel
  have hdouble : classify "5e-324" = .double (.finite false 1 (-1074)) := by decide +kernel
  exact ⟨⟨x, hx, hnumbers _ x hx⟩, ⟨_, hfloat, rfl, (hscalars _).1.2 rfl⟩, _, hdouble, rfl, (hscalars _).2.2 rfl⟩

/-- Beyond the reach of its format a number is printed as a word, which is no number, and the text of a scalar is read as
a string. -/
theorem literals_not_numeric :
    let p : Printer := { spec := { tree := .bundled, prototypes := [] } }
    (∃ x, number false (.start (times 310 '9')) = .ok x ∧ x.next.rest = [] ∧ p.render x.value = .ok "inf" ∧
      ∃ e, number false (.start "inf") = .error e) ∧
    ∃ x, classify "1e39f" = .float x ∧ classify (Scalar.float x).write = .string "inff" := by
  intro p
  refine ⟨?_, .infinite false, by decide +kernel, by decide +kernel⟩
  have hdigits : Digits (replicate 310 '9') := by
    refine ⟨ne_nil_of_length_pos (by rw [List.length_replicate]; decide), fun ch hch => ?_⟩
    rw [eq_of_mem_replicate hch]
    decide
  obtain ⟨x, hx, hnext, hform⟩ := number_digits hdigits (by decide +kernel)
  have hinfinite : ofDecimal .double false (digitsValue (replicate 310 '9')) 0 = .infinite false := by
    decide +kernel
  obtain ⟨v, hform', htext⟩ := number_renders p hx
  rw [hform, hinfinite] at hform'
  cases hform'
  exact ⟨x, hx, hnext, htext, _, rfl⟩

end Parse

end Mcfunction
