import Mcfunction.Proofs.Entries
import Mcfunction.Proofs.Numerals

/-! The parts of JSON texts are read back: numbers, strings, lists and objects, whatever values stand in them. -/

namespace Mcfunction.Json.Scanner

open List Floating String
open Reader (Gives)

variable {α β γ : Type} {F : List Char → Prop} {n levels bound : Nat} {f : Option Char → Scanner β}
  {text : α → List Char} {ch close : Char} {R : β → Prop} {item value : Scanner α}

/-- The reader reads a text wherever it stands before one of some tails. -/
abbrev Accepts (r : Scanner α) (text : List Char) (F : List Char → Prop) (Q : α → Prop) : Prop :=
  Reader.Accepts Input.rest r text F Q

/-! ### Tokens -/

theorem rest_drop (n : Nat) (s : Input) : (s.drop n).rest = s.rest.drop n := by
  obtain ⟨rest, place⟩ := s
  induction n generalizing rest place with
  | zero => rfl
  | succ n ih =>
    cases rest with
    | nil => rfl
    | cons ch rest => exact ih rest _

theorem rest_skipBlanks {s : Input} {rest : List Char} (hs : s.rest = ch :: rest)
    (hch : Input.isBlank ch = false) : s.skipBlanks.rest = ch :: rest := by
  rw [Input.skipBlanks, rest_drop, hs, takeWhile_cons_of_neg (by rw [hch]; exact Bool.false_ne_true)]
  rfl

theorem eat_accepts (text : List Char) (hn : text.length = n) : Accepts (eat n) text (fun _ => True) fun _ => True := by
  intro s tail hs _
  refine ⟨_, rfl, ?_, trivial⟩
  rw [rest_drop, hs, ← hn, drop_left]

theorem Accepts.peek {text : List Char}
    (h : Accepts (f (some ch)) (ch :: text) F R) : Accepts (Scanner.peek >>= f) (ch :: text) F R := by
  intro s tail hs htail
  refine .look_bind ?_
  rw [hs]
  exact h s tail hs htail

theorem Accepts.token {text : List Char} (hch : Input.isBlank ch = false) (h : Accepts (f (some ch)) (ch :: text) F R) :
    Accepts (Scanner.token >>= f) (ch :: text) F R := by
  intro s tail hs htail
  have hskip : s.skipBlanks.rest = ch :: (text ++ tail) := rest_skipBlanks hs hch
  have htoken : Reader.Reads Input.rest Scanner.token s (ch :: (text ++ tail)) fun found => found = some ch := by
    refine ⟨⟨some ch, s.skipBlanks, s.length_skipBlanks_le⟩, ?_, hskip, rfl⟩
    simp only [Scanner.token, bind, Reader.bind, skipBlanks, Scanner.peek, Reader.look, hskip]
    rfl
  refine htoken.bind ?_
  rintro _ t rfl ht
  exact h t tail ht htail

theorem word_accepts (cs : List Char) : Accepts (word cs) cs (fun _ => True) fun _ => True := by
  induction cs with
  | nil => exact Reader.Accepts.pure trivial
  | cons ch cs ih =>
    refine Accepts.peek ?_
    dsimp only
    rw [if_pos rfl]
    exact (eat_accepts [ch] rfl).bind (fun _ _ => ih) fun _ _ => trivial

/-! ### Numbers -/

def isIntegerEnd (ch : Char) : Bool := !isDecimalDigit ch && ch != '.' && ch != 'e' && ch != 'E'

theorem accumulate_eq (ds : List Char) (n : Nat) (h : Nat.ofDigitChars 10 ds n ≤ bound) :
    accumulate bound n ds = (Nat.ofDigitChars 10 ds n, ds.length) := by
  have hgrow : ∀ (ds : List Char) (n : Nat), n ≤ Nat.ofDigitChars 10 ds n := by
    intro ds
    induction ds with
    | nil => exact le_refl
    | cons d ds ih =>
      intro n
      have hle := ih (10 * n + (d.toNat - '0'.toNat))
      rw [Nat.ofDigitChars_cons]
      omega
  induction ds generalizing n with
  | nil => rfl
  | cons d ds ih =>
    have hle : 10 * n + (d.toNat - 48) ≤ bound := le_trans (hgrow ds _) h
    rw [accumulate, if_neg (Nat.not_lt.2 hle)]
    have hmore : accumulate bound (10 * n + (d.toNat - 48)) ds = _ := ih _ h
    rw [hmore]
    rfl

theorem toDigits_head (h : (Nat.toDigits 10 n).head? = some '0') : n = 0 := by
  induction n using Nat.strongRecOn with
  | ind n ih =>
    rw [Nat.toDigits_eq_if (by decide)] at h
    split at h
    · rename_i hlt
      have hdigit : ∀ m < 10, [Nat.digitChar m].head? = some '0' → m = 0 := by decide
      exact hdigit n hlt h
    · obtain ⟨d, ds, hds⟩ := exists_cons_of_ne_nil Nat.toDigits_ne_nil
      have hzero : n / 10 = 0 := by
        refine ih (n / 10) (by omega) ?_
        rw [hds] at h ⊢
        exact h
      omega

theorem number_accepts (positive : Bool) (hn : n ≤ maxNatural)
    (hnegative : positive = false → ¬(n = 0 ∨ Nat.pow 2 63 < n)) :
    Accepts (number positive) (Nat.toDigits 10 n) (EndsAt isIntegerEnd)
      fun v => v = .integer (if positive then n else -n) := by
  have hall : ∀ ch ∈ Nat.toDigits 10 n, isDecimalDigit ch = true := fun _ => Numeral.isDecimalDigit_of_mem
  have hvalue : Nat.ofDigitChars 10 (Nat.toDigits 10 n) 0 = n := Numeral.digitsValue_toDigits n
  have haccumulate : accumulate maxNatural 0 (Nat.toDigits 10 n) = (n, (Nat.toDigits 10 n).length) := by
    rw [accumulate_eq _ _ (by rwa [hvalue]), hvalue]
  have hzero : (Nat.toDigits 10 n).head? = some '0' → (Nat.toDigits 10 n).length = 1 := by
    intro hhead
    rw [toDigits_head hhead]
    rfl
  obtain ⟨d, ds, hds⟩ := exists_cons_of_ne_nil Nat.toDigits_ne_nil
  rw [hds] at hall haccumulate hzero ⊢
  refine Accepts.peek ?_
  dsimp only
  rw [if_neg (by simp [hall d mem_cons_self])]
  intro s tail hs htail
  refine .look_bind ?_
  have hdigits : s.rest.takeWhile isDecimalDigit = d :: ds := by
    rw [hs]
    refine EndsAt.takeWhile_append hall (htail.mono fun ch hch => ?_)
    simp only [isIntegerEnd, Bool.and_eq_true] at hch
    exact hch.1.1.1
  have hend : ∀ ch, isIntegerEnd ch = false → tail.head? ≠ some ch := by
    intro ch hch hhead
    rw [htail ch hhead] at hch
    cases hch
  rw [hdigits, if_neg]
  · refine (eat_accepts (d :: ds) rfl s tail hs trivial).bind fun _ t _ ht => ?_
    rw [haccumulate]
    refine .look_bind ?_
    rw [ht, if_neg (hend '.' rfl), if_neg (not_or.2 ⟨hend 'e' rfl, hend 'E' rfl⟩), if_neg (lt_irrefl _)]
    cases positive with
    | true => exact .pure ht rfl
    | false =>
      rw [if_neg (hnegative rfl)]
      exact .pure ht rfl
  · rintro ⟨rfl, hlong⟩
    rw [hzero rfl] at hlong
    exact absurd hlong (by decide)

/-! ### Strings -/

theorem hexValue?_hexDigit : ∀ n < 16, hexValue? (hexDigit n) = some n ∧ (hexDigit n).utf8Size = 1 := by decide

theorem hexEscape_accepts (hn : n < 32) :
    Accepts hexEscape ['0', '0', hexDigit (n / 16), hexDigit (n % 16)] (fun _ => True) fun m => m = n := by
  intro s tail hs _
  obtain ⟨hhigh, hhighSize⟩ := hexValue?_hexDigit (n / 16) (by omega)
  obtain ⟨hlow, hlowSize⟩ := hexValue?_hexDigit (n % 16) (by omega)
  have hfour : s.rest.take 4 = ['0', '0', hexDigit (n / 16), hexDigit (n % 16)] := by
    rw [hs]
    rfl
  refine .look_bind ?_
  rw [hfour, if_neg]
  · simp only [mapM_cons, hhigh, hlow]
    refine (eat_accepts _ rfl s tail hs trivial).bind fun _ t _ ht => .pure ht ?_
    show 16 * (16 * (16 * (16 * 0 + 0) + 0) + n / 16) + n % 16 = n
    omega
  · have hzero : '0'.utf8Size = 1 := rfl
    simp [bytes, hhighSize, hlowSize, hzero]

/-- What stands for a character in a string: itself, or an escape without control characters. -/
theorem escapeChar_cases (ch : Char) : (escapeChar ch = [ch] ∧ ch ≠ '"' ∧ ch ≠ '\\' ∧ ¬ch.toNat < 32) ∨
      ∃ code, escapeChar ch = '\\' :: code ∧ (∀ x ∈ code, 32 ≤ x.toNat) ∧
        Accepts escape code (fun _ => True) fun found => found = ch := by
  have hsimple : ∀ letter, letter ≠ 'u' → 32 ≤ letter.toNat → simpleEscape? letter = some ch →
      ∃ code, ['\\', letter] = '\\' :: code ∧ (∀ x ∈ code, 32 ≤ x.toNat) ∧
        Accepts escape code (fun _ => True) fun found => found = ch := by
    intro letter hletter hcontrol hescape
    refine ⟨[letter], rfl, by simpa using hcontrol, Accepts.peek ?_⟩
    dsimp only
    rw [if_neg hletter, hescape]
    exact (eat_accepts [letter] rfl).bind_pure fun _ _ => rfl
  have hof : ∀ {n}, ch.toNat = n → some (Char.ofNat n) = some ch := by
    rintro _ rfl
    rw [Char.ofNat_toNat]
  unfold escapeChar
  split
  · exact .inr (hsimple '"' (by decide) (by decide) (by subst ch; rfl))
  split
  · exact .inr (hsimple '\\' (by decide) (by decide) (by subst ch; rfl))
  split
  · exact .inr (hsimple 'n' (by decide) (by decide) (by subst ch; rfl))
  split
  · exact .inr (hsimple 'r' (by decide) (by decide) (by subst ch; rfl))
  split
  · exact .inr (hsimple 't' (by decide) (by decide) (by subst ch; rfl))
  split
  · exact .inr (hsimple 'b' (by decide) (by decide) (hof ‹_›))
  split
  · exact .inr (hsimple 'f' (by decide) (by decide) (hof ‹_›))
  split
  · rename_i hcontrol
    have hdigit : ∀ n < 16, 32 ≤ (hexDigit n).toNat := by decide
    refine .inr ⟨_, rfl, ?_, Accepts.peek ?_⟩
    · have hhigh := hdigit (ch.toNat / 16) (by omega)
      have hlow := hdigit (ch.toNat % 16) (by omega)
      simp [hhigh, hlow]
    · refine (eat_accepts ['u'] rfl).bind (fun _ _ => ?_) fun _ _ => trivial
      intro s tail hs htail
      refine (hexEscape_accepts hcontrol s tail hs htail).bind ?_
      rintro _ t rfl ht
      rw [if_neg (by omega), if_pos (by omega)]
      exact .pure ht (Char.ofNat_toNat ch)
  · exact .inl ⟨rfl, ‹_›, ‹_›, ‹_›⟩

def stringText (text : String) : List Char := text.toList.flatMap escapeChar ++ ['"']

theorem toList_writeString (text : String) : (writeString text).toList = '"' :: stringText text := by
  simp [writeString, stringText]

theorem stringFrom_accepts (cs read : List Char) :
    Accepts (stringFrom read) (cs.flatMap escapeChar ++ ['"']) F fun found =>
      found = ofList (read.reverse ++ cs) := by
  induction cs generalizing read with
  | nil =>
    intro s tail hs _
    refine ⟨⟨ofList read.reverse, s.drop 1, s.ahead_drop 1⟩, ?_, ?_, ?_⟩
    · rw [stringFrom]
      split
      · rename_i hnil
        cases hs.symm.trans hnil
      · rename_i hcons
        obtain ⟨rfl, -⟩ := cons.inj (hs.symm.trans hcons)
        rw [if_pos rfl]
    · rw [rest_drop, hs]
      rfl
    · rw [append_nil]
  | cons ch cs ih =>
    intro s tail hs htail
    rw [flatMap_cons] at hs
    rcases escapeChar_cases ch with ⟨hescape, hquote, hback, hcontrol⟩ | ⟨code, hescape, -, hcode⟩
    · have hcons : s.rest = ch :: (cs.flatMap escapeChar ++ ['"'] ++ tail) := by
        rw [hs, hescape]
        rfl
      have hdrop : (s.drop 1).rest = cs.flatMap escapeChar ++ ['"'] ++ tail := by
        rw [rest_drop, hcons]
        rfl
      obtain ⟨y, hy, hnext, hvalue⟩ := ih (ch :: read) (s.drop 1) tail hdrop htail
      refine ⟨y.since (s.ahead_drop 1), ?_, hnext, by simpa using hvalue⟩
      rw [stringFrom]
      split
      · rename_i hnil
        cases hcons.symm.trans hnil
      · rename_i hfirst
        obtain ⟨rfl, -⟩ := cons.inj (hcons.symm.trans hfirst)
        rw [if_neg hquote, if_neg hback, if_neg hcontrol, hy]
    · have hcons : s.rest = '\\' :: (code ++ (cs.flatMap escapeChar ++ ['"'] ++ tail)) := by
        rw [hs, hescape]
        simp
      have hdrop : (s.drop 1).rest = code ++ (cs.flatMap escapeChar ++ ['"'] ++ tail) := by
        rw [rest_drop, hcons]
        rfl
      obtain ⟨x, hx, hxnext, hxvalue⟩ := hcode (s.drop 1) _ hdrop trivial
      obtain ⟨y, hy, hnext, hvalue⟩ := ih (x.value :: read) x.next tail hxnext htail
      refine ⟨y.since (Forward.trans (s.ahead_drop 1) x.ahead), ?_, hnext, ?_⟩
      · rw [stringFrom]
        split
        · rename_i hnil
          cases hcons.symm.trans hnil
        · rename_i hfirst
          obtain ⟨rfl, -⟩ := cons.inj (hcons.symm.trans hfirst)
          rw [if_neg (by decide), if_pos rfl, hx]
          dsimp only
          rw [hy]
      · rw [Step.since_value, hvalue, hxvalue]
        simp

theorem string_accepts (text : String) : Accepts string (stringText text) F fun found => found = text :=
  (stringFrom_accepts text.toList []).mono fun _ hfound => hfound.trans ofList_toList

/-! ### Lists -/

section

def listText (text : α → List Char) : List α → List Char
  | [] => []
  | v :: vs => text v ++ vs.flatMap fun v => ',' :: text v

theorem items_end (first : Bool) (read : List α) :
    Accepts (items item first read) [] (StartsAt fun ch => ch = ']') fun ws => ws = read.reverse := by
  rintro s _ hs ⟨ch, tail, rfl, hch⟩
  obtain rfl : ch = ']' := of_decide_eq_true hch
  have hskip : s.skipBlanks.rest = ']' :: tail := rest_skipBlanks hs rfl
  refine ⟨⟨read.reverse, s.skipBlanks, s.length_skipBlanks_le⟩, ?_, hskip, rfl⟩
  rw [items]
  split
  · rename_i hnil
    cases hskip.symm.trans hnil
  · rename_i hfirst
    obtain ⟨rfl, -⟩ := cons.inj (hskip.symm.trans hfirst)
    rw [if_pos rfl]

theorem startsAt_separator {tail : List Char} (htail : StartsAt (fun ch => ch = close) tail)
    (text : α → List Char) (vs : List α) :
    StartsAt (Parse.isSeparator close) (vs.flatMap (fun v => ',' :: text v) ++ tail) := by
  cases vs with
  | nil => exact htail.mono fun ch hch => by rw [Parse.isSeparator, hch, Bool.or_true]
  | cons v vs => exact StartsAt.cons rfl

theorem items_accepts (vs read : List α)
    (hitem : ∀ v ∈ vs, Accepts item (text v) (StartsAt (Parse.isSeparator ']')) fun w => w = v)
    (hstart : ∀ v ∈ vs, StartsAt (fun ch => !Input.isBlank ch && ch != ']') (text v)) :
    Accepts (items item false read) (vs.flatMap fun v => ',' :: text v) (StartsAt fun ch => ch = ']') fun ws =>
      ws = read.reverse ++ vs := by
  induction vs generalizing read with
  | nil => exact (items_end false read).mono fun ws hws => hws.trans (append_nil _).symm
  | cons v vs ih =>
    intro s tail hs htail
    rw [forall_mem_cons] at hitem hstart
    rw [flatMap_cons, cons_append, cons_append, List.append_assoc] at hs
    have hskip := rest_skipBlanks hs (by decide)
    obtain ⟨d, more, hd, hstops⟩ := hstart.1
    have hd' : Input.isBlank d = false ∧ d ≠ ']' := by simpa using hstops
    have hu : (s.skipBlanks.drop 1).skipBlanks.rest =
        text v ++ (vs.flatMap (fun v => ',' :: text v) ++ tail) := by
      rw [hd]
      refine rest_skipBlanks ?_ hd'.1
      rw [rest_drop, hskip, hd]
      rfl
    obtain ⟨x, hx, hxnext, hxvalue⟩ := hitem.1 _ _ hu (startsAt_separator htail text vs)
    obtain ⟨y, hy, hynext, hyvalue⟩ := ih (x.value :: read) hitem.2 hstart.2 x.next tail hxnext htail
    have hahead : Forward.Ahead s x.next := Forward.trans s.length_skipBlanks_le
      (Forward.trans (Input.ahead_drop 1 _) (Forward.trans (Input.length_skipBlanks_le _) x.ahead))
    refine ⟨y.since hahead, ?_, hynext, by simp [hyvalue, hxvalue]⟩
    rw [items]
    dsimp only
    split
    · rename_i hnil
      cases hskip.symm.trans hnil
    · rename_i first rest hfirst
      obtain ⟨rfl, -⟩ := List.cons.inj (hskip.symm.trans hfirst)
      rw [if_neg (by decide), if_neg Bool.false_ne_true, if_pos rfl]
      rw [hd] at hu
      split
      · rename_i hnil
        cases hu.symm.trans hnil
      · rename_i hfirst
        obtain ⟨rfl, -⟩ := List.cons.inj (hu.symm.trans hfirst)
        rw [if_neg hd'.2, hx]
        dsimp only
        rw [hy]

theorem enter_accepts (hlevels : 1 < levels) (ch : Char) :
    Accepts (enter levels) [ch] (fun _ => True) fun _ => True := by
  rw [enter, if_neg (not_le.2 hlevels)]
  exact eat_accepts [ch] rfl

theorem listOf_accepts (hlevels : 1 < levels) (vs : List α)
    (hitem : ∀ v ∈ vs, Accepts item (text v) (StartsAt (Parse.isSeparator ']')) fun w => w = v)
    (hstart : ∀ v ∈ vs, StartsAt (fun ch => !Input.isBlank ch && ch != ']') (text v)) :
    Accepts (listOf levels item) (['['] ++ (listText text vs ++ [']'])) F fun ws => ws = vs := by
  refine (enter_accepts hlevels '[').bind (fun _ _ => ?_) fun _ _ => trivial
  refine Reader.Accepts.bind (Q := fun ws => ws = vs) (F := StartsAt fun ch => ch = ']') ?_ ?_ ?_
  · cases vs with
    | nil => exact items_end true []
    | cons v vs =>
      intro s tail hs htail
      rw [forall_mem_cons] at hitem hstart
      obtain ⟨d, more, hd, hstops⟩ := hstart.1
      have hd' : Input.isBlank d = false ∧ d ≠ ']' := by simpa using hstops
      rw [listText, List.append_assoc] at hs
      have hskip : s.skipBlanks.rest = text v ++ (vs.flatMap (fun v => ',' :: text v) ++ tail) := by
        rw [hd] at hs ⊢
        exact rest_skipBlanks hs hd'.1
      obtain ⟨x, hx, hxnext, hxvalue⟩ := hitem.1 _ _ hskip (startsAt_separator htail text vs)
      obtain ⟨y, hy, hynext, hyvalue⟩ := items_accepts vs [x.value] hitem.2 hstart.2 x.next tail hxnext htail
      refine ⟨y.since (Forward.trans s.length_skipBlanks_le x.ahead), ?_, hynext, by simp [hyvalue, hxvalue]⟩
      rw [hd] at hskip
      rw [items]
      split
      · rename_i hnil
        cases hskip.symm.trans hnil
      · rename_i hfirst
        obtain ⟨rfl, -⟩ := List.cons.inj (hskip.symm.trans hfirst)
        rw [if_neg hd'.2, if_pos rfl, hx]
        dsimp only
        rw [hy]
  · rintro _ rfl
    exact (eat_accepts [']'] rfl).before (fun _ _ => trivial) |>.bind_pure fun _ _ => rfl
  · exact fun tail _ => StartsAt.cons rfl

end

/-! ### Objects -/

theorem colon_accepts : Accepts colon [':'] (fun _ => True) fun _ => True := by
  refine Accepts.token rfl ?_
  exact eat_accepts [':'] rfl

section

variable {entry : α → String → Scanner α} {text : γ → List Char} {add : α → γ → α}

theorem entries_end (first : Bool) (made : α) :
    Accepts (entries entry first made) [] (StartsAt fun ch => ch = '}') fun found => found = made := by
  rintro s _ hs ⟨ch, tail, rfl, hch⟩
  obtain rfl : ch = '}' := of_decide_eq_true hch
  have hskip : s.skipBlanks.rest = '}' :: tail := rest_skipBlanks hs rfl
  refine ⟨⟨made, s.skipBlanks, s.length_skipBlanks_le⟩, ?_, hskip, rfl⟩
  rw [entries]
  split
  · rename_i hnil
    cases hskip.symm.trans hnil
  · rename_i hfirst
    obtain ⟨rfl, -⟩ := cons.inj (hskip.symm.trans hfirst)
    rw [if_pos rfl]

theorem entries_accepts (es : List γ) (made : α)
    (hentry : ∀ made, ∀ e ∈ es, Accepts (do entry made (← string)) (text e) (StartsAt (Parse.isSeparator '}'))
      fun found => found = add made e) :
    Accepts (entries entry false made) (es.flatMap fun e => ',' :: '"' :: text e) (StartsAt fun ch => ch = '}')
      fun found => found = es.foldl add made := by
  induction es generalizing made with
  | nil => exact entries_end false made
  | cons e es ih =>
    intro s tail hs htail
    rw [flatMap_cons, cons_append, cons_append, cons_append, cons_append,
      List.append_assoc] at hs
    have hskip := rest_skipBlanks hs (by decide)
    have hu : (s.skipBlanks.drop 1).skipBlanks.rest =
        '"' :: (text e ++ (es.flatMap (fun e => ',' :: '"' :: text e) ++ tail)) := by
      refine rest_skipBlanks ?_ (by decide)
      rw [rest_drop, hskip]
      rfl
    have hkey : ((s.skipBlanks.drop 1).skipBlanks.drop 1).rest =
        text e ++ (es.flatMap (fun e => ',' :: '"' :: text e) ++ tail) := by
      rw [rest_drop, hu]
      rfl
    obtain ⟨x, hx, hxnext, hxvalue⟩ := hentry made e mem_cons_self _ _ hkey
      (startsAt_separator htail (fun e => '"' :: text e) es)
    obtain ⟨y, hy, hynext, hyvalue⟩ := ih x.value (fun made e' he' => hentry made e' (mem_cons_of_mem e he'))
      x.next tail hxnext htail
    have hahead : Forward.Ahead s x.next := Forward.trans s.length_skipBlanks_le (Forward.trans (Input.ahead_drop 1 _)
      (Forward.trans (Input.length_skipBlanks_le _) (Forward.trans (Input.ahead_drop 1 _) x.ahead)))
    refine ⟨y.since hahead, ?_, hynext, by simp [hyvalue, hxvalue]⟩
    rw [entries]
    dsimp only
    split
    · rename_i hnil
      cases hskip.symm.trans hnil
    · rename_i first rest hfirst
      obtain ⟨rfl, -⟩ := cons.inj (hskip.symm.trans hfirst)
      rw [if_neg (by decide), if_neg Bool.false_ne_true, if_pos rfl]
      split
      · rename_i hnil
        cases hu.symm.trans hnil
      · rename_i hfirst
        obtain ⟨rfl, -⟩ := cons.inj (hu.symm.trans hfirst)
        rw [if_neg (by decide), if_neg (by decide), hx]
        dsimp only
        rw [hy]

end

def entryText (text : α → List Char) (e : String × α) : List Char := stringText e.1 ++ (':' :: text e.2)

theorem mapOf_accepts (hlevels : 1 < levels)
    (es : Entries α) (hdist : es.Distinct)
    (hvalue : ∀ e ∈ es, Accepts value (text e.2) (StartsAt (Parse.isSeparator '}')) fun w => w = e.2) :
    Accepts (mapOf levels value) (['{'] ++ (listText (fun e => '"' :: entryText text e) es ++ ['}'])) F
      fun found => found = es := by
  have hentry : ∀ made, ∀ e ∈ es, Accepts (do
      let key ← string
      colon
      return Entries.insert key (← value) made) (entryText text e) (StartsAt (Parse.isSeparator '}'))
        fun found => found = Entries.insert e.1 e.2 made := by
    intro made e he
    refine (string_accepts e.1).bind (F := fun _ => True) ?_ fun _ _ => trivial
    rintro _ rfl
    refine Reader.Accepts.bind colon_accepts (fun _ _ => ?_) fun _ _ => trivial
    refine (hvalue e he).bind_pure ?_
    rintro _ rfl
    rfl
  refine (enter_accepts hlevels '{').bind (fun _ _ => ?_) fun _ _ => trivial
  refine Reader.Accepts.bind (Q := fun found => found = es) (F := StartsAt fun ch => ch = '}') ?_ ?_ ?_
  · cases es with
    | nil => exact entries_end true []
    | cons e es =>
      intro s tail hs htail
      rw [listText, cons_append, cons_append, List.append_assoc] at hs
      have hskip := rest_skipBlanks hs (by decide)
      have hkey : (s.skipBlanks.drop 1).rest = entryText text e ++
          (es.flatMap (fun e => ',' :: '"' :: entryText text e) ++ tail) := by
        rw [rest_drop, hskip]
        rfl
      obtain ⟨x, hx, hxnext, hxvalue⟩ := hentry [] e mem_cons_self _ _ hkey
        (startsAt_separator htail (fun e => '"' :: entryText text e) es)
      obtain ⟨y, hy, hynext, hyvalue⟩ := entries_accepts es x.value
        (fun made e' he' => hentry made e' (mem_cons_of_mem e he')) x.next tail hxnext htail
      have hahead : Forward.Ahead s x.next :=
        Forward.trans s.length_skipBlanks_le (Forward.trans (Input.ahead_drop 1 _) x.ahead)
      refine ⟨y.since hahead, ?_, hynext, ?_⟩
      · rw [entries]
        split
        · rename_i hnil
          cases hskip.symm.trans hnil
        · rename_i hfirst
          obtain ⟨rfl, -⟩ := cons.inj (hskip.symm.trans hfirst)
          rw [if_neg (by decide), if_pos rfl, if_neg (by decide), hx]
          dsimp only
          rw [hy]
      · rw [Step.since_value, hyvalue, hxvalue]
        exact Entries.foldl_insert es [e] hdist
  · rintro _ rfl
    exact (eat_accepts ['}'] rfl).before (fun _ _ => trivial) |>.bind_pure fun _ _ => rfl
  · exact fun tail _ => StartsAt.cons rfl

end Mcfunction.Json.Scanner
