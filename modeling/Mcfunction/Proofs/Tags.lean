import Mcfunction.Proofs.Names
import Mcfunction.Proofs.Numerals

/-! SNBT is read back from its text. A scalar is written so that its type can be told from its text: an integer
gets the letter of its type, and a string is always quoted. Compounds, lists and arrays follow by induction over how a
tag is built. Main statement: reading a tag undoes printing it, whatever stands behind its text. Every tag that is read
from any text is of this kind, unless it has floating numbers. -/

namespace Mcfunction.Snbt

open List Parse Numeral Cursor Floating String Text Token Scalar Reader Printer Node Option
variable {text body : String} {s : Scalar} {i : Int} {ch : Char}

open Reader (Gives)

/-! ### Scalars -/

/-- What readers of scalars give: integers fit their types, and a string ends on its line. -/
def Scalar.IsRead : Scalar → Prop
  | .byte i => fits 8 i = true
  | .short i => fits 16 i = true
  | .int i => fits 32 i = true
  | .long i => fits 64 i = true
  | .string text => '\n' ∉ text.toList
  | _ => True

instance : (s : Scalar) → Decidable s.IsRead
  | .byte i => inferInstanceAs (Decidable (fits 8 i = true))
  | .short i => inferInstanceAs (Decidable (fits 16 i = true))
  | .int i => inferInstanceAs (Decidable (fits 32 i = true))
  | .long i => inferInstanceAs (Decidable (fits 64 i = true))
  | .string text => inferInstanceAs (Decidable ('\n' ∉ text.toList))
  | .bool _ | .float _ | .double _ => inferInstanceAs (Decidable True)

theorem isRead_of_signedValue? {bits : Nat} {make : Int → Scalar} (h : (signedValue? bits text).map make = some s)
    (hmake : ∀ i, fits bits i = true → (make i).IsRead) : s.IsRead := by
  obtain ⟨i, hi, rfl⟩ := map_eq_some_iff.1 h
  exact hmake i (signedValue?_eq_some hi).2

theorem isRead_of_floating {o : Option Floating} {make : Floating → Scalar} (h : o.map make = some s)
    (hmake : ∀ x, (make x).IsRead) : s.IsRead := by
  obtain ⟨x, -, rfl⟩ := map_eq_some_iff.1 h
  exact hmake x

theorem number?_isRead {suffix : Option Char} (h : number? body suffix = some s) : s.IsRead := by
  unfold number? at h
  dsimp only at h
  split at h
  · split at h
    case h_4 | h_5 => exact isRead_of_floating h fun _ => trivial
    all_goals exact isRead_of_signedValue? h fun _ hi => hi
  · split at h
    · split at h
      case h_4 => cases h
      all_goals exact isRead_of_floating h fun _ => trivial
    · cases h

theorem classify_isRead (h : '\n' ∉ text.toList) : (classify text).IsRead := by
  have getD {o : Option Scalar} (ho : ∀ s, o = some s → s.IsRead) : (o.getD (.string text)).IsRead := by
    cases o with
    | none => exact h
    | some s => exact ho s rfl
  unfold classify
  split
  · trivial
  · split
    · trivial
    · refine getD fun s hs => ?_
      split at hs
      · split at hs <;> exact number?_isRead hs
      · exact number?_isRead hs

theorem isInteger_toString (i : Int) : isInteger (toString i).toList = true := by
  have hdigits : ∀ n, isDigits (Nat.toDigits 10 n) = true := by
    intro n
    refine Bool.and_eq_true_iff.2 ⟨by simp [Nat.toDigits_ne_nil], all_eq_true.2 fun ch hch => ?_⟩
    exact isDigit_of_isDecimalDigit (isDecimalDigit_of_mem hch)
  obtain ⟨n, ⟨-, htext⟩ | ⟨-, -, htext⟩⟩ := toList_toString i
  · obtain ⟨d, ds, hds⟩ := exists_cons_of_ne_nil Nat.toDigits_ne_nil
    have hd : isDecimalDigit d = true := isDecimalDigit_of_mem (n := n) (hds ▸ mem_cons_self)
    have hunsigned : unsigned (d :: ds) = d :: ds := by
      unfold unsigned
      split
      · rename_i h
        exact absurd (cons.inj h).1 (isDecimalDigit_ne hd rfl)
      · rename_i h
        exact absurd (cons.inj h).1 (isDecimalDigit_ne hd rfl)
      · rfl
    rw [isInteger, htext, hds, hunsigned, ← hds]
    exact hdigits n
  · rw [htext]
    exact hdigits n

theorem number?_toString (bits : Nat) (suffix : Option Char) (make : Int → Scalar)
    (hsuffix : (bits, suffix, make) ∈ [(8, some 'b', byte), (16, some 's', .short), (64, some 'l', .long),
      (32, none, .int)]) (hi : fits bits i = true) : number? (toString i) suffix = some (make i) := by
  obtain ⟨ch, cs, htext, hch⟩ := toString_starts i
  have hplus : ch ≠ '+' := by
    rintro rfl
    cases hch
  have hvalue := signedValue?_toString hi
  have hmap : (signedValue? bits (toString i)).map make = some (make i) := by rw [hvalue]; rfl
  simp only [mem_cons, not_mem_nil, or_false] at hsuffix
  unfold number?
  rw [if_pos (isInteger_toString i), htext]
  rcases hsuffix with ⟨rfl, rfl, rfl⟩ | ⟨rfl, rfl, rfl⟩ | ⟨rfl, rfl, rfl⟩ | ⟨rfl, rfl, rfl⟩
  all_goals
    refine Eq.trans (congrArg (Option.map _) (congrArg (signedValue? _) ?_)) hmap
    split
    · rename_i h
      exact absurd (cons.inj h).1 hplus
    · rfl

theorem toLower_of_isDecimalDigit (h : isDecimalDigit ch = true) : ch.toLower = ch := by
  rw [isDecimalDigit_eq, Char.isDigit, Bool.and_eq_true] at h
  have hhigh : ch.toNat ≤ 0x39 := UInt32.le_iff_toNat_le.1 (of_decide_eq_true h.2)
  refine dif_neg fun hupper => ?_
  have hlow : 0x41 ≤ ch.toNat := UInt32.le_iff_toNat_le.1 hupper.1
  omega

theorem isSuffix_of_isDecimalDigit (h : isDecimalDigit ch = true) : isSuffix ch = false := by
  simp only [isSuffix, Bool.or_eq_false_iff, decide_eq_false_iff_not]
  refine ⟨⟨⟨⟨?_, ?_⟩, ?_⟩, ?_⟩, ?_⟩ <;> exact isDecimalDigit_ne h rfl

theorem ne_bool_of_starts (h : StartsAt isStart text.toList) : text ≠ "true" ∧ text ≠ "false" := by
  obtain ⟨ch, cs, htext, hch⟩ := h
  constructor
  · rintro rfl
    have hfirst : ('t' :: ['r', 'u', 'e']) = ch :: cs := htext
    rw [← (cons.inj hfirst).1] at hch
    cases hch
  · rintro rfl
    have hfirst : ('f' :: ['a', 'l', 's', 'e']) = ch :: cs := htext
    rw [← (cons.inj hfirst).1] at hch
    cases hch

theorem classify_suffixed (suffix : Char) (hsuffix : isSuffix suffix.toLower = true)
    (h : number? (toString i) (some suffix.toLower) = some s) :
    classify (toString i ++ singleton suffix) = s := by
  have hlist : (toString i ++ singleton suffix).toList = (toString i).toList ++ [suffix] := by simp
  have hbool : toString i ++ singleton suffix ≠ "true" ∧ toString i ++ singleton suffix ≠ "false" := by
    refine ne_bool_of_starts ?_
    rw [hlist]
    exact (toString_starts i).append _
  unfold classify
  rw [if_neg hbool.1, if_neg hbool.2, hlist]
  dsimp only
  rw [getLast?_concat, dropLast_concat, ofList_toList]
  dsimp only
  rw [if_pos hsuffix, h]
  rfl

theorem classify_plain (h : number? (toString i) none = some s) : classify (toString i) = s := by
  have hbool := ne_bool_of_starts (toString_starts i)
  have hlast : ∃ d, (toString i).toList.getLast? = some d ∧ isDecimalDigit d = true := by
    have hdigits : ∀ n, ∃ d, (Nat.toDigits 10 n).getLast? = some d ∧ isDecimalDigit d = true := fun n =>
      ⟨_, getLast?_eq_some_getLast Nat.toDigits_ne_nil, isDecimalDigit_of_mem (getLast_mem _)⟩
    obtain ⟨n, ⟨-, htext⟩ | ⟨-, -, htext⟩⟩ := toList_toString i
    · rw [htext]
      exact hdigits n
    · rw [htext, getLast?_cons_of_ne_nil Nat.toDigits_ne_nil]
      exact hdigits n
  obtain ⟨d, hlast, hd⟩ := hlast
  unfold classify
  rw [if_neg hbool.1, if_neg hbool.2]
  dsimp only
  rw [hlast]
  dsimp only
  rw [toLower_of_isDecimalDigit hd, isSuffix_of_isDecimalDigit hd, h]
  rfl

def Scalar.isString : Scalar → Bool
  | .string _ => true
  | _ => false

theorem classify_write (hread : s.IsRead) (hfloating : same.isFloating s = false) (hstring : s.isString = false) :
    classify s.write = s := by
  cases s with
  | bool value => cases value <;> decide +kernel
  | byte i => exact classify_suffixed 'b' rfl (number?_toString 8 (some 'b') .byte (by simp) hread)
  | short i => exact classify_suffixed 's' rfl (number?_toString 16 (some 's') .short (by simp) hread)
  | int i => exact classify_plain (number?_toString 32 none .int (by simp) hread)
  | long i => exact classify_suffixed 'L' rfl (number?_toString 64 (some 'l') .long (by simp) hread)
  | float x | double x => cases hfloating
  | string text => cases hstring

def isScalarStart (ch : Char) : Bool := isQuote ch || isStart ch || ch ∈ ['t', 'f']

def isTagStart (ch : Char) : Bool := isScalarStart ch || ch ∈ ['{', '[']

theorem isWordChar_of_mem_toString (h : ch ∈ (toString i).toList) : isWordChar ch = true := by
  have hdigit : ∀ {n : Nat}, ch ∈ Nat.toDigits 10 n → isWordChar ch = true := by
    intro n hn
    have hch := isDecimalDigit_of_mem hn
    rw [isDecimalDigit_eq] at hch
    simp [isWordChar, Char.isAlphanum, hch]
  obtain ⟨n, ⟨-, htext⟩ | ⟨-, -, htext⟩⟩ := toList_toString i
  · rw [htext] at h
    exact hdigit h
  · rw [htext] at h
    rcases mem_cons.1 h with rfl | h
    · rfl
    · exact hdigit h

theorem write_isWord (hfloating : Scalar.same.isFloating s = false) (hstring : s.isString = false) :
    (∀ ch ∈ s.write.toList, isWordChar ch = true) ∧
      StartsAt (fun ch => isScalarStart ch && !isQuote ch) s.write.toList := by
  have hnumber : ∀ (i : Int) (more : List Char), (∀ ch ∈ more, isWordChar ch = true) →
      (∀ ch ∈ (toString i).toList ++ more, isWordChar ch = true) ∧
        StartsAt (fun ch => isScalarStart ch && !isQuote ch) ((toString i).toList ++ more) := by
    intro i more hmore
    refine ⟨fun ch hch => ?_, ((toString_starts i).mono fun ch hch => ?_).append more⟩
    · exact (mem_append.1 hch).elim isWordChar_of_mem_toString (hmore ch)
    · rw [not_isQuote hch rfl rfl, isScalarStart, hch, Bool.or_true]
      rfl
  cases s with
  | bool value => cases value <;> exact ⟨all_eq_true.1 rfl, StartsAt.cons rfl⟩
  | byte i | short i | long i => rw [Scalar.write, toList_append]; exact hnumber i _ (all_eq_true.1 rfl)
  | int i =>
    have hint := hnumber i [] (forall_mem_nil _)
    rwa [append_nil] at hint
  | float x | double x => cases hfloating
  | string text => cases hstring

theorem scalar_gives (c : Cursor) : Gives scalar c fun n => ∃ s, n.form = .nbtValue s ∧ s.IsRead := by
  refine (Gives.trivial _ c).bind fun quote d _ _ => ?_
  refine Gives.ite (fun _ => ?_) fun _ => ?_
  · refine (quoted_gives d).bind ?_
    rintro ⟨text, span⟩ - - htext
    exact .pure ⟨.string text, rfl, htext⟩
  · refine (many_gives _ _ d).bind ?_
    rintro ⟨text, span⟩ - - ⟨-, hall⟩
    refine .pure ⟨classify text, rfl, classify_isRead fun hline => ?_⟩
    cases hall '\n' hline

theorem scalar_accepts (hread : s.IsRead) (hfloating : same.isFloating s = false) :
    Accepts scalar s.write.toList (EndsAt isWordEnd) fun n => n.form = .nbtValue s := by
  cases hstring : s.isString with
  | true =>
    obtain ⟨text, rfl⟩ : ∃ text, s = .string text := by
      cases s with
      | string text => exact ⟨text, rfl⟩
      | _ => cases hstring
    refine Accepts.atQuote true ((quoted_starts text).mono fun ch hch => decide_eq_true hch) ?_
    exact (quoted_accepts hread).bind_pure fun x hx => by rw [hx]
  | false =>
    obtain ⟨hword, hstarts⟩ := write_isWord hfloating hstring
    refine Accepts.atQuote false (hstarts.mono fun ch hch => ?_) ?_
    · simpa using (Bool.and_eq_true_iff.1 hch).2
    · refine (many_accepts _ hstarts.ne_nil hword).bind_pure fun x hx => ?_
      rw [hx, ofList_toList, classify_write hread hfloating hstring]

theorem write_starts (hfloating : same.isFloating s = false) : StartsAt isScalarStart s.write.toList := by
  cases hstring : s.isString with
  | true =>
    cases s with
    | string text => exact (quoted_starts text).mono fun ch hch => by rw [isScalarStart, hch]; rfl
    | _ => cases hstring
  | false => exact (write_isWord hfloating hstring).2.mono fun ch hch => (Bool.and_eq_true_iff.1 hch).1

theorem Scalar.same_self (hfloating : same.isFloating s = false) : s.same s = true := by
  cases s with
  | float x | double x => cases hfloating
  | _ => simp [same, same.isFloating]

/-! ### Keys and entries -/

theorem key_gives (c : Cursor) : Gives key c fun text => '\n' ∉ text.toList := by
  refine (Gives.trivial _ c).bind fun quote d _ _ => ?_
  refine Gives.ite (fun _ => ?_) fun _ => ?_
  · exact (quoted_gives d).bind fun x _ _ hx => .pure hx
  · refine (many_gives _ _ d).bind fun x _ _ hx => .pure fun hline => ?_
    cases hx.2 '\n' hline

def isKeyStart (ch : Char) : Bool := isQuote ch || isWordChar ch

theorem keyText_starts (text : String) : StartsAt isKeyStart (keyText text).toList := by
  rw [keyText]
  split
  · rename_i h
    refine StartsAt.of_all (by simpa using h.1) fun ch hch => ?_
    rw [isKeyStart, all_eq_true.1 h.2 ch hch, Bool.or_true]
  · exact (quoted_starts text).mono fun ch hch => by rw [isKeyStart, hch, Bool.true_or]

theorem key_accepts (h : '\n' ∉ text.toList) :
    Accepts key (keyText text).toList (EndsAt isWordEnd) fun found => found = text := by
  rw [keyText]
  split
  · rename_i hword
    have hne : text.toList ≠ [] := by simpa using hword.1
    have hall : ∀ ch ∈ text.toList, isWordChar ch = true := all_eq_true.1 hword.2
    refine Accepts.atQuote false ((StartsAt.of_all hne hall).mono fun ch hch => ?_) ?_
    · simpa using not_isQuote hch rfl rfl
    · exact (many_accepts _ hne hall).bind_pure fun x hx => hx.trans ofList_toList
  · refine Accepts.atQuote true ((quoted_starts text).mono fun ch hch => decide_eq_true hch) ?_
    exact (quoted_accepts h).bind_pure fun x hx => hx

theorem label_gives (c : Cursor) : Gives label c fun text => '\n' ∉ text.toList := by
  rw [label_eq]
  refine (key_gives c).bind fun text d _ htext => ?_
  refine (Gives.trivial _ d).bind fun _ e _ _ => (Gives.trivial _ e).bind fun _ f _ _ => ?_
  exact (Gives.trivial _ f).bind fun _ _ _ _ => Gives.pure htext

theorem label_accepts (h : '\n' ∉ text.toList) :
    Accepts label ((keyText text).toList ++ ":".toList) (EndsAt fun ch => !isSpace ch) fun found => found = text := by
  rw [label_eq]
  refine (key_accepts h).bind (fun found hfound => ?_) fun _ _ => EndsAt.cons rfl
  refine skipSpaces_accepts.bind_nil (fun _ _ => ?_) fun _ _ => EndsAt.cons rfl
  intro c tail hc htail
  refine (expect_accepts ":" c tail hc trivial).bind fun _ d _ hd => ?_
  refine (skipSpaces_accepts d tail hd htail).bind fun _ e _ he => ?_
  exact .pure he hfound

/-! ### Tags -/

mutual

/-- The tags that are written without loss: scalars, compounds of entries, lists of tags, and arrays of integers. None
of the scalars is floating. -/
inductive IsTag : Node → Prop
  | value {s : Scalar} {span : Span} (hread : s.IsRead) (hfloating : same.isFloating s = false) :
      IsTag ⟨.nbtValue s, span⟩
  | compound {ns : List Node} {span : Span} (hns : ∀ n ∈ ns, IsEntry n) : IsTag ⟨.nbtCompound ns, span⟩
  | list {ns : List Node} {span : Span} (hns : ∀ n ∈ ns, IsTag n) : IsTag ⟨.nbtList ns, span⟩
  | array {kind : ArrayKind} {ns : List Node} {span : Span} (hns : ∀ n ∈ ns, IsTag n)
      (hintegral : ∀ n ∈ ns, isIntegral n = true) : IsTag ⟨.nbtArray kind ns, span⟩

/-- The entries of such compounds. A key ends on its line. -/
inductive IsEntry : Node → Prop
  | mk {key : String} {value : Node} {span : Span} (hkey : '\n' ∉ key.toList) (hvalue : IsTag value) :
      IsEntry ⟨.nbtCompoundEntry key value, span⟩

end

/-! ### What is read -/

variable {array : Option ArrayKind} {ns : List Node} {span : Span} {c : Cursor} {n m value : Node}

theorem isTag_listForm (hns : ∀ n ∈ ns, IsTag n)
    (hintegral : array.isSome → ∀ n ∈ ns, isIntegral n = true) : IsTag ⟨listForm array ns, span⟩ := by
  cases array with
  | none => exact .list hns
  | some kind => exact .array hns (hintegral rfl)

theorem children_listForm (array : Option ArrayKind) (ns : List Node) (span : Span) :
    (⟨listForm array ns, span⟩ : Node).children = ns := by
  cases array <;> rfl

theorem entry_gives (htag : ∀ d, c.Reaches d → Gives anyTag d fun n => n.Exact → IsTag n) :
    Gives entry c fun n => n.Exact → IsEntry n := by
  refine node_gives ((label_gives c).bind fun key d hd hkey => ?_)
  refine (htag d hd).bind fun value _ _ hvalue => .pure fun span hexact => ?_
  exact .mk hkey (hvalue (hexact.child (by simp [children, Form.children])))

theorem entries_gives (hc : c.rest ≠ [])
    (htag : ∀ d, d.remaining < c.remaining → Gives anyTag d fun n => n.Exact → IsTag n) :
    Gives entries c fun n => ∃ ns, n.form = .nbtCompound ns ∧ (n.Exact → ∀ m ∈ ns, IsEntry m) := by
  have hpos : 0 < c.remaining := length_pos_iff.2 hc
  intro x hx
  rw [entries_apply] at hx
  split at hx
  · cases hx
  · rename_i y hy
    cases hx
    refine ⟨y.value, rfl, fun hexact n hn => ?_⟩
    refine list_gives (fun d hd => entry_gives fun e he => htag e ?_) y hy n hn (hexact.child hn)
    have := he.remaining_le
    rw [remaining_drop] at hd
    omega

theorem element_gives (array : Option ArrayKind) (htag : Gives anyTag c fun n => n.Exact → IsTag n) :
    Gives (element array) c fun n => (n.Exact → IsTag n) ∧ (array.isSome → isIntegral n = true) := by
  refine htag.bind fun n _ _ hn => ?_
  refine .ite (fun _ => .fail) fun hintegral => .pure ⟨hn, fun harray => ?_⟩
  simpa [harray] using hintegral

theorem elements_gives (hc : c.rest ≠ [])
    (htag : ∀ d, d.remaining < c.remaining → Gives anyTag d fun n => n.Exact → IsTag n) :
    Gives (elements array) c fun n => n.Exact → IsTag n := by
  have hpos : 0 < c.remaining := length_pos_iff.2 hc
  have hopening : 0 < opening array := by
    rw [opening]
    split <;> decide
  intro x hx
  rw [elements_apply] at hx
  split at hx
  · cases hx
  · rename_i y hy
    cases hx
    intro hexact
    have helements := list_gives (fun d hd => element_gives array (htag d ?_)) y hy
    · refine isTag_listForm (fun n hn => (helements n hn).1 (hexact.child ?_)) fun harray n hn => (helements n hn).2 harray
      rwa [children_listForm]
    · rw [remaining_drop] at hd
      omega

/-- Every tag that was read, if its numbers are integers, can be written without loss. The induction is on the
characters that are left. -/
theorem tag_gives (c : Cursor) : Gives anyTag c fun n => n.Exact → IsTag n := by
  induction c using Cursor.induct with
  | hstep c ih =>
    rintro ⟨⟨form, span⟩, next, hnext⟩ hx hexact
    rw [anyTag, tag_eq] at hx
    split at hx
    · rename_i hpeek
      obtain ⟨ns, rfl, hns⟩ := entries_gives (by rintro h; simp [Cursor.peek, h] at hpeek) ih _ hx
      exact .compound (hns hexact)
    · split at hx
      · rename_i hpeek
        exact elements_gives (by rintro h; simp [Cursor.peek, h] at hpeek) ih _ hx hexact
      · obtain ⟨s, rfl, hread⟩ := scalar_gives c _ hx
        exact .value hread (by simpa [isExact] using hexact.self)

/-! ### Reading it back -/

theorem anyTag_accepts {r : Parse Node} {text : List Char} {F : List Char → Prop} {Q : Node → Prop}
    (h : Accepts r text F Q) (hr : ∀ c tail, c.rest = text ++ tail → tag c = r c) : Accepts anyTag text F Q := by
  intro c tail hc htail
  obtain ⟨x, hx, hrest⟩ := h c tail hc htail
  exact ⟨x, (hr c tail hc).trans hx, hrest⟩

theorem tag_eq_entries {text tail : List Char} (hc : c.rest = text ++ tail)
    (h : StartsAt (fun ch => ch = '{') text) : tag c = entries c ∧ compound c = entries c := by
  obtain ⟨ch, cs, rfl, hch⟩ := h
  obtain rfl : ch = '{' := of_decide_eq_true hch
  have hpeek : c.peek = some '{' := peek_eq hc
  have htag : tag c = entries c := by rw [tag_eq, if_pos hpeek]
  exact ⟨htag, by rw [compound, if_pos hpeek, htag]⟩

theorem tag_eq_scalar {text tail : List Char} (hc : c.rest = text ++ tail)
    (h : StartsAt isScalarStart text) : tag c = scalar c := by
  obtain ⟨ch, cs, rfl, hch⟩ := h
  have hpeek : c.peek = some ch := peek_eq hc
  rw [tag_eq, hpeek, if_neg, if_neg]
  · rintro ⟨⟩
    cases hch
  · rintro ⟨⟩
    cases hch

theorem scalar_restores (span : Span) (hread : s.IsRead) (hfloating : same.isFloating s = false) :
    Restores scalar isScalarStart (EndsAt isWordEnd) ⟨.nbtValue s, span⟩ := by
  have htext : (⟨.nbtValue s, span⟩ : Node).text = s.write := text_eq _
  refine .of_text (congrArg _ htext) (write_starts hfloating) ?_ rfl ?_
  · exact scalar_accepts hread hfloating
  · exact same_self hfloating

theorem entry_returns {key : String} (hkey : '\n' ∉ key.toList)
    (hvalue : Returns anyTag isTagStart (EndsAt isWordEnd) value) :
    Returns entry isKeyStart (StartsAt (isSeparator '}')) ⟨.nbtCompoundEntry key value, span⟩ := by
  have htext : (⟨.nbtCompoundEntry key value, span⟩ : Node).text.toList =
      ((keyText key).toList ++ ":".toList) ++ value.text.toList := by
    rw [text_eq]
    simp [assemble, children, Form.children]
  refine ⟨?_, ?_⟩
  · rw [htext, List.append_assoc]
    exact (keyText_starts key).append _
  · rw [htext]
    refine (node_accepts (Q := fun form => ∃ m, form = .nbtCompoundEntry key m ∧ value.same m = true) ?_).mono ?_
    · refine (label_accepts hkey).bind (fun found hfound => ?_) fun tail _ => ?_
      · subst hfound
        refine Accepts.bind_pure (hvalue.accepts.before fun tail htail => ?_) fun m hm => ⟨m, rfl, hm⟩
        exact endsAt_of_separator htail rfl rfl
      · exact (hvalue.starts.mono fun ch hch => not_isSpace hch rfl rfl).endsAt tail
    · rintro ⟨_, span⟩ ⟨m, rfl, hm⟩
      exact same_iff.2 ⟨by simp [Form.sameData], .cons hm .nil⟩

theorem entries_returns (span : Span)
    (hns : ∀ n ∈ ns, Returns entry isKeyStart (StartsAt (isSeparator '}')) n) :
    Returns entries (fun ch => ch = '{') (fun _ => True) ⟨.nbtCompound ns, span⟩ := by
  have htext : (⟨.nbtCompound ns, span⟩ : Node).text.toList =
      "\x7b".toList ++ ([','].intercalate (ns.map fun n => n.text.toList) ++ "\x7d".toList) := by
    rw [text_eq]
    exact toList_bracketed _ _ _
  refine .of_text htext (StartsAt.cons rfl) ?_
  refine (node_accepts (Q := fun form => ∃ ms, form = .nbtCompound ms ∧ AllSame ns ms) ?_).mono ?_
  · refine (advance_accepts rfl).bind (fun _ _ => ?_) fun _ _ => trivial
    exact Accepts.bind_pure (list_returns rfl (by decide) rfl rfl rfl hns) fun ms hms => ⟨ms, rfl, hms⟩
  · rintro ⟨_, span⟩ ⟨ms, rfl, hms⟩
    exact same_iff.2 ⟨by simp [Form.sameData, hms.length_eq], hms⟩

theorem Scalar.isIntegral_same {t : Scalar} (h : s.same t = true) : t.isIntegral = s.isIntegral := by
  cases s <;> cases t <;> simp_all [same, isIntegral]

theorem isIntegral_same (h : n.same m = true) : isIntegral m = isIntegral n := by
  obtain ⟨hdata, -⟩ := same_iff.1 h
  obtain ⟨f, _⟩ := n
  obtain ⟨g, _⟩ := m
  dsimp only at hdata
  unfold Form.sameData at hdata
  split at hdata
  case h_30 => exact isIntegral_same hdata
  case h_34 => cases hdata
  all_goals rfl

theorem element_returns (hn : Returns anyTag isTagStart (EndsAt isWordEnd) n)
    (hintegral : array.isSome → isIntegral n = true) :
    Returns (element array) isTagStart (StartsAt (isSeparator ']')) n := by
  refine ⟨hn.starts, fun d tail hd htail => ?_⟩
  refine (hn.accepts d tail hd (endsAt_of_separator htail rfl rfl)).bind fun m e hm he => ?_
  rw [if_neg]
  · exact .pure he hm
  · rintro ⟨harray, hnot⟩
    rw [isIntegral_same hm, hintegral harray] at hnot
    cases hnot

def openText : Option ArrayKind → String
  | some kind => "[" ++ singleton kind.letter ++ ";"
  | none => "["

theorem arrayKind?_openText (array : Option ArrayKind) {more : List Char}
    (hmore : StartsAt (fun ch => isTagStart ch || ch = ']') more) :
    arrayKind? ((openText array).toList ++ more) = array := by
  cases array with
  | some kind => cases kind <;> rfl
  | none =>
    obtain ⟨ch, cs, rfl, hch⟩ := hmore
    unfold arrayKind?
    split
    case h_4 => rfl
    all_goals
      rename_i h
      rw [(cons.inj (cons.inj h).2).1] at hch
      cases hch

theorem length_openText (array : Option ArrayKind) : (openText array).toList.length = opening array := by
  cases array with
  | none => rfl
  | some kind => cases kind <;> rfl

theorem intercalate_starts {p : Char → Bool} (hns : ∀ n ∈ ns, StartsAt p n.text.toList) (close : Char)
    (tail : List Char) : StartsAt (fun ch => p ch || ch = close)
      ([','].intercalate (ns.map fun n => n.text.toList) ++ close :: tail) := by
  cases ns with
  | nil => exact StartsAt.cons (by simp)
  | cons n ns =>
    obtain ⟨more, hmore⟩ := exists_intercalate_eq [','] n.text.toList (ns.map fun n => n.text.toList)
    rw [map_cons, hmore]
    refine (((hns n mem_cons_self).append more).mono fun ch hch => ?_).append _
    rw [hch, Bool.true_or]

theorem openText_eq (array : Option ArrayKind) : ∃ more, (openText array).toList = '[' :: more := by
  cases array with
  | none => exact ⟨[], rfl⟩
  | some kind => exact ⟨[kind.letter, ';'], by simp [openText]⟩

theorem elements_returns (array : Option ArrayKind)
    (hns : ∀ n ∈ ns, Returns (element array) isTagStart (StartsAt (isSeparator ']')) n) :
    Returns anyTag isTagStart (EndsAt isWordEnd) ⟨listForm array ns, span⟩ := by
  have htext : (⟨listForm array ns, span⟩ : Node).text.toList =
      (openText array).toList ++ ([','].intercalate (ns.map fun n => n.text.toList) ++ "]".toList) := by
    rw [text_eq]
    cases array <;> exact toList_bracketed _ _ _
  obtain ⟨more, hmore⟩ := openText_eq array
  refine ⟨?_, ?_⟩
  · rw [htext, hmore]
    exact StartsAt.cons rfl
  · rw [htext]
    refine anyTag_accepts (r := elements array) ?_ fun d tail hd => ?_
    · refine (node_accepts (Q := fun form => ∃ ms, form = listForm array ms ∧ AllSame ns ms) ?_).mono ?_
      · refine (advance_accepts (length_openText array)).bind (fun _ _ => ?_) fun _ _ => trivial
        exact Accepts.bind_pure (list_returns rfl (by decide) rfl rfl rfl hns) fun ms hms => ⟨ms, rfl, hms⟩
      · rintro ⟨_, span⟩ ⟨ms, rfl, hms⟩
        refine same_iff.2 ?_
        cases array <;> exact ⟨by simp [listForm, Form.sameData, hms.length_eq], hms⟩
    · have hpeek : d.peek = some '[' := by
        rw [hmore] at hd
        exact peek_eq hd
      rw [List.append_assoc, List.append_assoc] at hd
      have harray : arrayKind? d.rest = array := by
        rw [hd]
        exact arrayKind?_openText array (intercalate_starts (fun n hn => (hns n hn).starts) ']' tail)
      rw [tag_eq, if_neg (by rw [hpeek]; decide), if_pos hpeek, harray]

theorem anyTag_returns_scalar (hread : s.IsRead) (hfloating : same.isFloating s = false) :
    Returns anyTag isTagStart (EndsAt isWordEnd) ⟨.nbtValue s, span⟩ := by
  have hscalar := scalar_restores span hread hfloating
  refine ⟨hscalar.starts.mono fun ch hch => by rw [isTagStart, hch, Bool.true_or], ?_⟩
  exact anyTag_accepts hscalar.returns.accepts fun d tail hd => tag_eq_scalar hd hscalar.starts

theorem anyTag_returns_entries
    (hns : ∀ n ∈ ns, Returns entry isKeyStart (StartsAt (isSeparator '}')) n) :
    Returns anyTag isTagStart (EndsAt isWordEnd) ⟨.nbtCompound ns, span⟩ := by
  have hreturns := entries_returns span hns
  refine ⟨hreturns.starts.mono fun ch hch => ?_, anyTag_accepts (hreturns.accepts.before fun _ _ => trivial) ?_⟩
  · rw [of_decide_eq_true hch]
    rfl
  · exact fun d tail hd => (tag_eq_entries hd hreturns.starts).1

mutual

theorem IsTag.returns {n : Node} : IsTag n → Returns anyTag isTagStart (EndsAt isWordEnd) n
  | .value hread hfloating => anyTag_returns_scalar hread hfloating
  | .compound hns => anyTag_returns_entries fun n hn => (hns n hn).returns
  | .list hns => elements_returns none fun n hn => element_returns (hns n hn).returns (by simp)
  | @IsTag.array kind _ _ hns hintegral =>
    elements_returns (some kind) fun n hn => element_returns (hns n hn).returns fun _ => hintegral n hn

theorem IsEntry.returns {n : Node} : IsEntry n → Returns entry isKeyStart (StartsAt (isSeparator '}')) n
  | .mk hkey hvalue => entry_returns hkey hvalue.returns

end

theorem tag_returns (c : Cursor) : Gives anyTag c fun n => n.Exact → Returns anyTag isTagStart (EndsAt isWordEnd) n :=
  (tag_gives c).mono fun _ hn hexact => (hn hexact).returns

theorem compound_returns (c : Cursor) : Gives compound c fun n =>
    n.Exact → Returns compound (fun ch => ch = '{') (fun _ => True) n := by
  rintro ⟨⟨form, span⟩, next, hnext⟩ hx hexact
  rw [compound] at hx
  split at hx
  · rename_i hpeek
    rw [tag_eq, if_pos hpeek] at hx
    obtain ⟨ns, rfl, hns⟩ := entries_gives (by rintro h; simp [Cursor.peek, h] at hpeek) (fun d _ => tag_gives d) _ hx
    have hreturns := entries_returns span fun n hn => (hns hexact n hn).returns
    refine ⟨hreturns.starts, fun d tail hd htail => ?_⟩
    obtain ⟨y, hy, hrest⟩ := hreturns.accepts d tail hd htail
    exact ⟨y, (tag_eq_entries hd hreturns.starts).2.trans hy, hrest⟩
  · cases hx

/-! ### What is printed -/

theorem IsTag.children (h : IsTag n) : ∀ m ∈ n.children, IsTag m ∨ IsEntry m := by
  cases h with
  | value => exact forall_mem_nil _
  | compound hns => exact fun m hm => .inr (hns m hm)
  | list hns | array hns => exact fun m hm => .inl (hns m hm)

theorem IsEntry.children (h : IsEntry n) : ∀ m ∈ n.children, IsTag m := by
  cases h with
  | mk hkey hvalue => exact forall_mem_singleton.2 hvalue

theorem IsTag.isPart (h : IsTag n) : ∀ m ∈ n.walk, m.kind.isPart = true := by
  intro m hm
  have hkept : IsTag m ∨ IsEntry m := by
    refine (mem_walk.1 hm).induct (P := fun n => IsTag n ∨ IsEntry n) ?_ (.inl h)
    rintro n (hn | hn) child hchild
    · exact hn.children child hchild
    · exact .inl (hn.children child hchild)
  rcases hkept with hm | hm <;> cases hm <;> rfl

/-- SNBT is undone by reading. Whatever printer writes a tag, and whatever stands behind its text, as long as that does
not go on as a word: the reader of tags gives the same tag and stops where the text ends. -/
theorem tag_reads_rendered (p : Printer) {n : Node} (hn : IsTag n) {rest : String}
    (hrest : EndsAt isWordEnd rest.toList) :
    ∃ text, p.render n = .ok text ∧
      ∃ x, tag (.start (text ++ rest)) = .ok x ∧ n.same x.value = true ∧ x.next.rest = rest.toList := by
  refine ⟨n.text, Printer.render_text hn.isPart, ?_⟩
  obtain ⟨x, hx, hnext, hsame⟩ := hn.returns.accepts (.start (n.text ++ rest)) rest.toList toList_append hrest
  exact ⟨x, hx, hsame, hnext⟩

/-- Keys that are no words, strings that look like a number and like an array, and integers at the limits of their
types. -/
theorem tag_reads_rendered_nested :
    let p : Printer := { spec := { tree := .bundled, prototypes := [] } }
    let value (s : Scalar) : Node := .synthetic (.nbtValue s)
    let strings : Node := .synthetic (.nbtList [value (.string "300b"), value (.string "[B;"), .synthetic (.nbtCompound [])])
    let integers : Node := .synthetic (.nbtArray .byte [value (.byte (-128)), value (.long 9223372036854775807)])
    let tree : Node := .synthetic (.nbtCompound [.synthetic (.nbtCompoundEntry "it's \"\\\"" strings),
      .synthetic (.nbtCompoundEntry "" integers)])
    IsTag tree ∧ EndsAt isWordEnd ",true".toList ∧ ∃ text, p.render tree = .ok text ∧
      ∃ x, tag (.start (text ++ ",true")) = .ok x ∧ tree.same x.value = true ∧ x.next.rest = ",true".toList := by
  intro p value strings integers tree
  have hstrings : IsTag strings := by
    refine .list (forall_mem_cons.2 ⟨.value (by decide) rfl, forall_mem_cons.2 ⟨.value (by decide) rfl, ?_⟩⟩)
    exact forall_mem_singleton.2 (.compound (forall_mem_nil _))
  have hintegers : IsTag integers := by
    refine .array (forall_mem_cons.2 ⟨.value (by decide) rfl, ?_⟩) (forall_mem_cons.2 ⟨rfl, ?_⟩)
    · exact forall_mem_singleton.2 (.value (by decide) rfl)
    · exact forall_mem_singleton.2 rfl
  have htree : IsTag tree := by
    refine .compound (forall_mem_cons.2 ⟨.mk (by decide) hstrings, ?_⟩)
    exact forall_mem_singleton.2 (.mk (by decide) hintegers)
  have hrest : EndsAt isWordEnd ",true".toList := EndsAt.cons rfl
  exact ⟨htree, hrest, tag_reads_rendered p htree hrest⟩

end Mcfunction.Snbt
