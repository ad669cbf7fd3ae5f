import Mcfunction.Proofs.Components
import Mcfunction.Proofs.Entities
import Mcfunction.Proofs.Messages
import Mcfunction.Proofs.Twins

/-! Arguments side by side. Main statement: whatever reads a single argument agrees with itself at twins. It sees nothing
but its line, its complaints do not depend on where it stands, and what it reads is equal to itself: no text of a number
spells the value that differs from everything. What it reads is placed where it was read, with its children in a row. -/

namespace Mcfunction

open List Cursor Floating Option String Text Token Pairing Form Selector Snbt Json

/-! ### Numbers are equal to themselves -/

/-- The text cannot spell the value that is no number. -/
structure IsNumeral (text : String) : Prop where
  lower : 'n' ∉ text.toList
  upper : 'N' ∉ text.toList

variable {text body : String} {t : Token} {cs : List Char} {x : Char}

namespace IsNumeral

theorem of_avoids (hlower : t.Avoids 'n') (hupper : t.Avoids 'N') (cs : List Char) :
    IsNumeral (ofList (cs.take (t cs))) := by
  constructor
  · rw [toList_ofList]
    exact hlower cs
  · rw [toList_ofList]
    exact hupper cs

theorem number (cs : List Char) : IsNumeral (ofList (cs.take (number cs))) :=
  of_avoids (number_avoids (by decide) (by decide) (by decide)) (number_avoids (by decide) (by decide) (by decide)) cs

theorem decimal (cs : List Char) : IsNumeral (ofList (cs.take (decimal cs))) :=
  of_avoids (decimal_avoids (by decide) (by decide)) (decimal_avoids (by decide) (by decide)) cs

theorem rangeEnd (integral : Bool) (cs : List Char) :
    IsNumeral (ofList (cs.take ((if integral then rangeInteger else rangeDecimal) cs))) := by
  split
  · exact of_avoids (rangeInteger_avoids (by decide) (by decide)) (rangeInteger_avoids (by decide) (by decide)) cs
  · exact of_avoids (rangeDecimal_avoids (by decide) (by decide) (by decide))
      (rangeDecimal_avoids (by decide) (by decide) (by decide)) cs

theorem read?_equal (h : IsNumeral text) {f : Floating.Format} {x : Floating}
    (hx : read? f text = some x) : x.equal x = true :=
  equal_self (read?_ne_nan hx h.lower h.upper)

theorem numberValue_same (h : IsNumeral text) {integral : Bool} {n : Number}
    (hn : Parse.numberValue text integral = .ok n) : n.same n = true := by
  rcases Parse.numberValue_ok hn with ⟨i, rfl, -⟩ | ⟨x, rfl, hx⟩
  · exact Number.same_int i
  · exact h.read?_equal hx

end IsNumeral

namespace Snbt

theorem mem_unsigned (hminus : x ≠ '-') (hplus : x ≠ '+') (h : x ∈ cs) : x ∈ unsigned cs := by
  fun_cases unsigned cs with
  | case1 cs => exact (mem_cons.1 h).resolve_left hminus
  | case2 cs => exact (mem_cons.1 h).resolve_left hplus
  | case3 => exact h

theorem not_mem_of_isDigits (hdigit : isDigit x = false) (h : isDigits cs = true) : x ∉ cs := by
  intro hx
  have hall := all_eq_true.1 (Bool.and_eq_true_iff.1 h).2 x hx
  rw [hdigit] at hall
  cases hall

theorem not_mem_of_isInteger (hdigit : isDigit x = false) (hminus : x ≠ '-') (hplus : x ≠ '+')
    (h : isInteger cs = true) : x ∉ cs :=
  fun hx => not_mem_of_isDigits hdigit h (mem_unsigned hminus hplus hx)

theorem not_mem_of_isDecimal (hdigit : isDigit x = false) (hminus : x ≠ '-') (hplus : x ≠ '+')
    (hpoint : '.' ≠ x) (hlower : x ≠ 'e') (hupper : x ≠ 'E') (h : isDecimal cs = true) : x ∉ cs := by
  intro hx
  have hbody := mem_unsigned hminus hplus hx
  rw [← take_append_drop (decimal (unsigned cs)) (unsigned cs), mem_append] at hbody
  rcases hbody with htake | hdrop
  · exact decimal_avoids hdigit hpoint _ htake
  · have hexponent : isExponent ((unsigned cs).drop (decimal (unsigned cs))) = true :=
      (Bool.and_eq_true_iff.1 h).2
    cases hcs : (unsigned cs).drop (decimal (unsigned cs)) with
    | nil =>
      rw [hcs] at hdrop
      cases hdrop
    | cons e digits =>
      rw [hcs] at hdrop hexponent
      obtain ⟨he, hdigits⟩ := Bool.and_eq_true_iff.1 hexponent
      rcases mem_cons.1 hdrop with rfl | hx
      · simp [hlower, hupper] at he
      · exact not_mem_of_isInteger hdigit hminus hplus hdigits hx

theorem isNumeral_of_number (h : isInteger body.toList = true ∨ isDecimal body.toList = true) :
    IsNumeral (match body.toList with
      | '+' :: rest => ofList rest
      | _ => body) := by
  have hbody : IsNumeral body := by
    rcases h with h | h
    · exact ⟨not_mem_of_isInteger (by decide) (by decide) (by decide) h,
        not_mem_of_isInteger (by decide) (by decide) (by decide) h⟩
    · exact ⟨not_mem_of_isDecimal (by decide) (by decide) (by decide) (by decide) (by decide) (by decide) h,
        not_mem_of_isDecimal (by decide) (by decide) (by decide) (by decide) (by decide) (by decide) h⟩
  split
  · rename_i hrest
    constructor
    · rw [toList_ofList]
      exact fun hmem => hbody.lower (hrest ▸ mem_cons_of_mem _ hmem)
    · rw [toList_ofList]
      exact fun hmem => hbody.upper (hrest ▸ mem_cons_of_mem _ hmem)
  · exact hbody

theorem number?_same {suffix : Option Char} {s : Scalar} (h : number? body suffix = some s) : s.same s = true := by
  have hexact : ∀ {o : Option Int} {kind : Int → Scalar}, (∀ i, (kind i).same (kind i) = true) →
      o.map kind = some s → s.same s = true := by
    intro o kind hkind hs
    obtain ⟨i, -, rfl⟩ := map_eq_some_iff.1 hs
    exact hkind i
  have hfloating : ∀ {f : Floating.Format} {kind : Floating → Scalar}, (∀ x, (kind x).same (kind x) = x.equal x) →
      (isInteger body.toList = true ∨ isDecimal body.toList = true) →
      (read? f (match body.toList with
        | '+' :: rest => ofList rest
        | _ => body)).map kind = some s → s.same s = true := by
    intro f kind hkind hnumber hs
    obtain ⟨x, hx, rfl⟩ := map_eq_some_iff.1 hs
    rw [hkind]
    exact (isNumeral_of_number hnumber).read?_equal hx
  unfold number? at h
  dsimp only at h
  split at h
  · rename_i hinteger
    split at h
    · exact hexact (fun i => by simp [Scalar.same, Scalar.same.isFloating]) h
    · exact hexact (fun i => by simp [Scalar.same, Scalar.same.isFloating]) h
    · exact hexact (fun i => by simp [Scalar.same, Scalar.same.isFloating]) h
    · exact hfloating (fun _ => rfl) (.inl hinteger) h
    · exact hfloating (fun _ => rfl) (.inl hinteger) h
    · exact hexact (fun i => by simp [Scalar.same, Scalar.same.isFloating]) h
  · split at h
    · rename_i hdecimal
      split at h
      · exact hfloating (fun _ => rfl) (.inr hdecimal) h
      · exact hfloating (fun _ => rfl) (.inr hdecimal) h
      · exact hfloating (fun _ => rfl) (.inr hdecimal) h
      · cases h
    · cases h

theorem classify_same (text : String) : (classify text).same (classify text) = true := by
  have hgetD : ∀ {o : Option Scalar}, (∀ s, o = some s → s.same s = true) →
      (o.getD (.string text)).same (o.getD (.string text)) = true := by
    intro o ho
    cases o with
    | none => simp [Scalar.same, Scalar.same.isFloating]
    | some s => exact ho s rfl
  unfold classify
  split
  · rfl
  · split
    · rfl
    · refine hgetD fun s hs => ?_
      split at hs
      · split at hs
        · exact number?_same hs
        · exact number?_same hs
      · exact number?_same hs

end Snbt

/-! ### Readers of single arguments -/

variable {m : Pairing} {c d b b' : Cursor}

namespace Parse

variable {e g : Cursor} {s s' : Span}

theorem leaves_mk (form : Form Node) (hspan : m.Covers c s s' e) (hpart : form.kind.isPart = true)
    (hleaf : form.children = []) (hdata : form.sameData form = true) (htexts : ∀ t ∈ form.texts, Flat t) :
    m.Leaves c ⟨form, s⟩ ⟨form, s'⟩ e := by
  refine ⟨hspan.trees ⟨hdata, hpart, htexts, ?_⟩, rfl⟩
  rw [hleaf]
  exact (Rows.nil c).behind hspan.line.reaches

theorem leaves_textless (form : Form Node) (hspan : m.Covers c s s' e) (hpart : form.kind.isPart = true)
    (hleaf : form.children = []) (hdata : form.sameData form = true) (htexts : form.texts = []) :
    m.Leaves c ⟨form, s⟩ ⟨form, s'⟩ e :=
  leaves_mk form hspan hpart hleaf hdata (by rw [htexts]; exact forall_mem_nil _)

theorem leaves_text (form : Form Node) (hspan : m.Covers c s s' e) (hpart : form.kind.isPart = true)
    (hleaf : form.children = []) (hdata : form.sameData form = true) (htexts : form.texts = [text])
    (htext : Flat text) : m.Leaves c ⟨form, s⟩ ⟨form, s'⟩ e :=
  leaves_mk form hspan hpart hleaf hdata (by rw [htexts]; exact forall_mem_singleton.2 htext)

theorem word_agree (h : m.Twin c d) : m.Agree word word c d fun x y e => y.1 = x.1 ∧ m.Covers c x.2 y.2 e := by
  refine .look_bind ?_
  rw [h.eq_of_lineBound value_onLine.bound]
  exact (take_agree h (h.flat value_onLine.bound value_flat)).mono fun _ _ _ hxy => ⟨hxy.1.2, hxy.2⟩

theorem line_agree (h : m.Twin c d) :
    m.Agree line line c d fun x y e => y.1 = x.1 ∧ m.Covers c x.2 y.2 e ∧ Text.Flat x.1 := by
  refine .look_bind ?_
  rw [h.lineRest_eq]
  refine (take_agree h (h.flat_lineRest (le_refl _))).mono fun _ _ _ hxy => ⟨hxy.1.2, hxy.2, ?_⟩
  rw [hxy.1.1, Text.Flat, toList_ofList, c.take_lineRest]
  exact c.newline_not_mem_lineRest

theorem numberAt_agree (h : m.Twin c d) (htext : IsNumeral text) (hspan : m.Marks s s')
    (integral : Bool) : m.Agree (numberAt text s integral) (numberAt text s' integral) c d
      fun x y e => (y = x ∧ x.same x = true) ∧ e = c := by
  unfold numberAt
  split
  · rename_i hn
    exact .pure h ⟨⟨rfl, htext.numberValue_same hn⟩, rfl⟩
  · exact .failAt hspan _

theorem number_agree (h : m.Twin c d) (integral : Bool) :
    m.Agree (number integral) (number integral) c d fun n k e => m.Leaves c n k e ∧ ∃ v, n.form = .number v := by
  refine (token_agree h number_onLine "number").bind ?_
  rintro ⟨text, s⟩ ⟨_, s'⟩ e g ⟨rfl, hspan, -, cs, rfl⟩ htwin
  refine (numberAt_agree htwin (.number cs) hspan.toMarks integral).bind ?_
  rintro _ v _ g ⟨⟨rfl, hv⟩, rfl⟩ htwin
  exact .pure htwin ⟨leaves_textless _ hspan rfl rfl hv rfl, v, rfl⟩

theorem rangeEnd_agree (h : m.Twin c d) (integral : Bool) :
    m.Agree (rangeEnd integral) (rangeEnd integral) c d fun x y _ => y = x ∧ Number.same? x x = true := by
  have hline : (if integral then rangeInteger else rangeDecimal).OnLine := by
    split
    · exact rangeInteger_onLine
    · exact rangeDecimal_onLine
  refine (token?_agree h hline).bind ?_
  rintro _ _ e g ⟨⟨hfound⟩ | _, -⟩ htwin
  · rename_i x y
    obtain ⟨text, s⟩ := x
    obtain ⟨_, s'⟩ := y
    obtain ⟨rfl, hspan, -, cs, rfl⟩ := hfound
    refine (numberAt_agree htwin (.rangeEnd integral cs) hspan.toMarks integral).bind ?_
    rintro v _ _ g ⟨⟨rfl, hv⟩, -⟩ htwin
    exact .pure htwin ⟨rfl, hv⟩
  · exact .pure htwin ⟨rfl, rfl⟩

theorem rangeEnds_agree (h : m.Twin c d) (integral : Bool) : m.Agree (rangeEnds integral) (rangeEnds integral) c d
      fun x y _ => y = x ∧ Number.same? x.1 x.1 = true ∧ Number.same? x.2 x.2 = true := by
  refine (rangeEnd_agree h integral).bind ?_
  rintro min _ e g ⟨rfl, hmin⟩ htwin
  refine (consume_agree htwin (by decide)).bind ?_
  rintro dots _ e g rfl htwin
  refine .ite_same ?_ (.pure htwin ⟨rfl, hmin, hmin⟩)
  refine (rangeEnd_agree htwin integral).bind ?_
  rintro max _ e g ⟨rfl, hmax⟩ htwin
  exact .pure htwin ⟨rfl, hmin, hmax⟩

theorem range_agree (integral : Bool) : m.Steady (range integral) := by
  intro c d h
  refine (spanned_agree h (rangeEnds_agree h integral)).bind ?_
  rintro ⟨⟨min, max⟩, s⟩ ⟨_, s'⟩ e g ⟨⟨rfl, hmin, hmax⟩, hspan⟩ htwin
  have hnode := leaves_textless (.range min max) hspan rfl rfl (Bool.and_eq_true_iff.2 ⟨hmin, hmax⟩) rfl
  dsimp only
  split
  · exact .failAt hspan.toMarks _
  · exact .ite_same (.failAt hspan.toMarks _) (.pure htwin hnode.toTrees)
  · exact .pure htwin hnode.toTrees

theorem quotedText_of_no_quote (hc : ¬(c.peek = some '"' ∨ c.peek = some '\'')) :
    quotedText c = .error ⟨.expected "quoted string", c.spanHere⟩ := by
  unfold quotedText
  split
  · rfl
  · rename_i hrest
    rw [Cursor.peek, hrest, head?_cons, some.injEq, some.injEq] at hc
    rw [if_neg hc]

theorem drop_unquote (h : m.Twin c d) {q : Char} (hq : q ≠ '\n') {ds : List Char} (hcs : c.rest = q :: cs)
    (hds : d.rest = q :: ds) (heq : unquote q ds = unquote q cs) :
    m.Twin (c.drop (quoteLength (unquote q cs) + 1)) (d.drop (quoteLength (unquote q cs) + 1)) := by
  refine h.drop ⟨?_, ?_⟩
  · rw [hcs]
    exact not_mem_take_succ hq (unquote_flat hq cs)
  · rw [hds, ← heq]
    exact not_mem_take_succ hq (unquote_flat hq ds)

theorem quotedText_agree (h : m.Twin c d) : m.Agree quotedText quotedText c d fun x y _ => y = x ∧ Text.Flat x := by
  refine .and ?_ (quotedText_gives c)
  unfold Pairing.Agree
  by_cases hquote : c.peek = some '"' ∨ c.peek = some '\''
  · obtain ⟨q, hq, hc⟩ : ∃ q, (q = '"' ∨ q = '\'') ∧ c.peek = some q := by
      rcases hquote with hc | hc
      · exact ⟨_, .inl rfl, hc⟩
      · exact ⟨_, .inr rfl, hc⟩
    have hne : q ≠ '\n' ∧ q ≠ '\r' := by rcases hq with rfl | rfl <;> decide
    obtain ⟨cs, hcs⟩ := head?_eq_some_iff.1 hc
    obtain ⟨ds, hds⟩ := head?_eq_some_iff.1 (h.peek_of_peek hne.1 hc)
    have hrests : Rests m.tail cs ds := by
      have hrests := m.rests (h.drop_one hne.1 hc)
      rwa [rest_drop, rest_drop, hcs, hds] at hrests
    have hdrop := drop_unquote h hne.1 hcs hds
    have hline : c.OnLine (c.drop (quoteLength (unquote q cs) + 1)) := by
      refine onLine_drop ?_
      rw [hcs]
      exact not_mem_take_succ hne.1 (unquote_flat hne.1 cs)
    obtain ⟨hsame, heq⟩ := hrests.unquote hne.2
    unfold quotedText
    rw [hcs, hds]
    dsimp only
    rw [if_pos hq, if_pos hq]
    generalize unquote q cs = r at *
    generalize unquote q ds = t at *
    cases hsame with
    | same =>
      have htwin := hdrop rfl
      rcases r with (n | n) | ⟨text, n⟩
      · exact ⟨rfl, h.marks htwin hline⟩
      · exact .refused htwin _
      · exact ⟨hline, rfl, htwin⟩
    | unclosed n k =>
      refine ⟨rfl, ⟨h.location, fun htail => ?_⟩, c, d, _, h, hline, rfl⟩
      cases heq htail
      exact (hdrop rfl).location
  · have hquote' : ¬(d.peek = some '"' ∨ d.peek = some '\'') := by
      rw [h.peek_iff (by decide), h.peek_iff (by decide)]
      exact hquote
    rw [quotedText_of_no_quote hquote, quotedText_of_no_quote hquote']
    exact .refused h _

theorem quoted_agree (h : m.Twin c d) :
    m.Agree quoted quoted c d fun x y e => (y.1 = x.1 ∧ Flat x.1) ∧ m.Covers c x.2 y.2 e :=
  spanned_agree h (quotedText_agree h)

theorem atQuote_agree (h : m.Twin c d) : m.Agree atQuote atQuote c d fun x y e => y = x ∧ e = c := by
  refine .look_bind (.pure h ⟨?_, rfl⟩)
  congr 1
  · exact decide_eq_decide.2 (h.peek_iff (by decide))
  · exact decide_eq_decide.2 (h.peek_iff (by decide))

theorem wordNode_agree (h : m.Twin c d) (ht : t.OnLine) (what : String) :
    m.Agree (wordNode t what) (wordNode t what) c d fun n k e => m.Leaves c n k e ∧ ∃ text, n.form = .word text := by
  refine (token_agree h ht what).bind ?_
  rintro ⟨_, s⟩ ⟨text, s'⟩ e g ⟨rfl, hspan, hflat, -⟩ htwin
  exact .pure htwin ⟨leaves_text (.word text) hspan rfl rfl (decide_eq_true rfl) rfl hflat, text, rfl⟩

theorem phrase_agree : m.Steady phrase := by
  intro c d h
  refine (quoted_agree h).bind ?_
  rintro ⟨_, s⟩ ⟨text, s'⟩ e g ⟨⟨rfl, hflat⟩, hspan⟩ htwin
  exact .pure htwin (leaves_text (.string text) hspan rfl rfl (decide_eq_true rfl) rfl hflat).toTrees

theorem wordNode_trees (ht : t.OnLine) (what : String) : m.Steady (wordNode t what) :=
  fun _ _ h => (wordNode_agree h ht what).mono fun _ _ _ hn => hn.1.toTrees

theorem anyLocation_agree (h : m.Twin c d) : m.Agree anyLocation anyLocation c d fun x y _ => y = x ∧ x.IsRead := by
  refine .and ?_ (anyLocation_gives c)
  have hbound := h.eq_of_lineBound resourceLocation?_lineBound
  unfold Pairing.Agree anyLocation
  rw [hbound]
  split
  · exact .refused h _
  · rename_i hl
    have hflat := resourceLocation?_flat hl
    exact ⟨onLine_drop hflat, rfl, h.drop ⟨hflat, resourceLocation?_flat (hbound.trans hl)⟩⟩

theorem resourceLocation_agree (allowTag : Bool) : m.Steady (resourceLocation allowTag) := by
  intro c d h
  refine (spanned_agree h (anyLocation_agree h)).bind ?_
  rintro ⟨_, s⟩ ⟨l, s'⟩ e g ⟨⟨rfl, hread⟩, hspan⟩ htwin
  refine .ite_same (.failAt hspan.toMarks _) (.pure htwin ?_)
  exact (leaves_text (.resourceLocation l) hspan rfl rfl (decide_eq_true rfl) rfl (ResourceLocation.flat_write hread)).toTrees

/-! ### Coordinates -/

theorem isNumeral_coordinate (cs : List Char) : IsNumeral
    (ofList ((cs.drop (Token.coordinate cs).1.mark.toList.length).take (Token.coordinate cs).2)) := by
  rw [length_mark]
  fun_cases Token.coordinate cs with
  | case1 cs | case2 cs | case3 => exact .number cs

theorem coordinateToken_agree (h : m.Twin c d) :
    m.Agree coordinateToken coordinateToken c d fun x y _ => y = x ∧ ∀ text ∈ x.2, IsNumeral text := by
  have hbound := h.eq_of_lineBound coordinate_lineBound
  have hlen : LineBound fun cs => (Token.coordinate cs).1.mark.toList.length + (Token.coordinate cs).2 := by
    intro cs rest x hx
    dsimp only
    rw [coordinate_lineBound cs rest x hx]
  have hflat := h.flat hlen coordinate_flat
  have hnumeral := isNumeral_coordinate c.rest
  have hempty : ∀ cs : List Char, cs = [] → (Token.coordinate cs).1.mark.toList.length + (Token.coordinate cs).2 = 0 := by
    rintro _ rfl
    rfl
  have hcond : (d.rest = [] ∨ (Token.coordinate d.rest).1.mark.toList.length + (Token.coordinate d.rest).2 = 0) ↔
      (c.rest = [] ∨ (Token.coordinate c.rest).1.mark.toList.length + (Token.coordinate c.rest).2 = 0) := by
    rw [or_iff_right_of_imp (hempty _), or_iff_right_of_imp (hempty _), hbound]
  unfold Pairing.Agree coordinateToken
  dsimp only
  split
  · rename_i hnone
    rw [if_pos (hcond.2 hnone)]
    exact .refused h _
  · rename_i hsome
    rw [if_neg fun hd => hsome (hcond.1 hd)]
    rw [hbound]
    refine ⟨onLine_drop hflat.1, ⟨?_, ?_⟩, h.drop hflat⟩
    · rw [take_drop, h.take_eq hflat, ← take_drop]
    · intro text htext
      split at htext
      · cases htext
      · cases htext
        exact hnumeral

theorem coordinate_agree (h : m.Twin c d) (integral : Bool) :
    m.Agree (coordinate integral) (coordinate integral) c d (m.Leaves c) := by
  refine (spanned_agree h (coordinateToken_agree h)).bind ?_
  rintro ⟨⟨kind, text⟩, s⟩ ⟨_, s'⟩ e g ⟨⟨rfl, htext⟩, hspan⟩ htwin
  cases text with
  | none => exact .pure htwin (leaves_textless _ hspan rfl rfl (by simp [sameData]) rfl)
  | some text =>
    refine .ite_same (.failAt hspan.toMarks _) ?_
    refine (numberAt_agree htwin (htext text rfl) hspan.toMarks integral).bind ?_
    rintro _ v _ g ⟨⟨rfl, hv⟩, rfl⟩ htwin
    exact .pure htwin (leaves_textless _ hspan rfl rfl (by simp [sameData, hv]) rfl)

/-- Coordinates of the same forms, in a row. -/
structure Coordinates (c : Cursor) (ns ks : List Node) (e : Cursor) : Prop extends Rows c ns ks e where
  forms : Forall₂ (fun n k => k.form = n.form) ns ks

theorem Coordinates.single {n k : Node} (h : m.Leaves c n k e) : Coordinates c [n] [k] e :=
  ⟨h.rows, .cons h.form .nil⟩

variable {ns ks : List Node}

theorem Coordinates.before (hb : b.Reaches c) (h : Coordinates c ns ks e) :
    Coordinates b ns ks e := ⟨h.toRows.before hb, h.forms⟩

theorem Coordinates.followed {ms ls : List Node} (h : Coordinates c ns ks e) (h' : Coordinates e ms ls g) :
    Coordinates c (ns ++ ms) (ks ++ ls) g := ⟨h.append h'.toRows, rel_append h.forms h'.forms⟩

theorem nextCoordinate_agree (h : m.Twin c d) (integral : Bool) :
    m.Agree (nextCoordinate integral) (nextCoordinate integral) c d fun n k e => Coordinates c [n] [k] e := by
  refine (consume_agree h (by decide)).bind_ahead ?_
  rintro space _ e g he rfl htwin
  refine .ite_same ?_ (.fail htwin _)
  exact (coordinate_agree htwin integral).mono fun _ _ _ hn => (Coordinates.single hn).before he.reaches

theorem checkLocal_agree (h : m.Twin c d) {allowLocal : Bool} (hspan : m.Marks s s')
    (hns : Forall₂ (fun n k => k.form = n.form) ns ks) :
    m.Agree (checkLocal allowLocal s ns) (checkLocal allowLocal s' ks) c d fun _ _ e => e = c := by
  have hlocal : ks.any isLocal = ns.any isLocal ∧ ks.all isLocal = ns.all isLocal := by
    induction hns with
    | nil => exact ⟨rfl, rfl⟩
    | cons hn _ ih =>
      rw [any_cons, all_cons, isLocal_congr hn, ih.1, ih.2]
      exact ⟨rfl, rfl⟩
  unfold checkLocal
  rw [hlocal.1, hlocal.2]
  refine .ite_same (.failAt hspan _) ?_
  exact .ite_same (.failAt hspan _) (.pure h rfl)

theorem vector3_agree (integral : Bool) : m.Steady (vector3 integral) := by
  intro c d h
  refine (spanned_agree h (V := fun v w => Coordinates c [v.1, v.2.1, v.2.2] [w.1, w.2.1, w.2.2]) ?_).bind ?_
  · refine (coordinate_agree h integral).bind fun x x' _ _ hx htwin => ?_
    refine (nextCoordinate_agree htwin integral).bind fun y y' _ _ hy htwin => ?_
    refine (nextCoordinate_agree htwin integral).bind fun z z' _ _ hz htwin => ?_
    exact .pure htwin ((Coordinates.single hx).followed (hy.followed hz))
  · rintro ⟨⟨x, y, z⟩, s⟩ ⟨⟨x', y', z'⟩, s'⟩ e g ⟨hrow, hspan⟩ htwin
    refine (checkLocal_agree htwin hspan.toMarks hrow.forms).bind ?_
    rintro _ _ _ _ rfl htwin
    exact .pure htwin (hspan.trees ⟨rfl, rfl, forall_mem_nil _, hrow.toRows⟩)

theorem vector2_agree (integral : Bool) : m.Steady (vector2 integral) := by
  intro c d h
  refine (spanned_agree h (V := fun v w => Coordinates c [v.1, v.2] [w.1, w.2]) ?_).bind ?_
  · refine (coordinate_agree h integral).bind fun x x' _ _ hx htwin => ?_
    refine (nextCoordinate_agree htwin integral).bind fun y y' _ _ hy htwin => ?_
    exact .pure htwin ((Coordinates.single hx).followed hy)
  · rintro ⟨⟨x, y⟩, s⟩ ⟨⟨x', y'⟩, s'⟩ e g ⟨hrow, hspan⟩ htwin
    refine (checkLocal_agree htwin hspan.toMarks hrow.forms).bind ?_
    rintro _ _ _ _ rfl htwin
    exact .pure htwin (hspan.trees ⟨rfl, rfl, forall_mem_nil _, hrow.toRows⟩)

theorem check_agree {p q : Prop} [Decidable p] [Decidable q] (h : m.Twin e g) {n k : Node} (hpq : q ↔ p)
    (complaint : Complaint) (hn : m.Trees c n k e) :
    m.Agree (if p then failAt n.span complaint else pure n) (if q then failAt k.span complaint else pure k) e g
      (m.Trees c) :=
  .ite hpq (fun _ => .failAt hn.span _) fun _ => .pure h hn

theorem angle_agree : m.Steady angle := by
  intro c d h
  refine (coordinate_agree h false).bind fun n k _ _ hn htwin => ?_
  exact check_agree htwin (by rw [isLocal_congr hn.form]) _ hn.toTrees

/-! ### Components -/

def lineJson (line : List Char) : Except Complaint (Json × Nat) :=
  match Scanner.leading (.start line) with
  | .error fault => .error (.badComponent fault)
  | .ok x =>
    match x.value with
    | none => .error (.expected "text component")
    | some v => .ok (v, line.length - x.next.rest.length)

theorem json_eq (c : Cursor) : (json c).map Step.pair =
    match lineJson c.lineRest with
    | .error complaint => .error ⟨complaint, c.spanHere⟩
    | .ok (v, n) => .ok (v, c.drop n) := by
  rw [json, lineJson]
  cases Scanner.leading (.start c.lineRest) with
  | error fault => rfl
  | ok x =>
    dsimp only
    cases x.value <;> rfl

theorem lineJson_ok {line : List Char} {v : Json} {n : Nat} (h : lineJson line = .ok (v, n)) :
    v.same v = true ∧ n ≤ line.length := by
  unfold lineJson at h
  split at h
  · cases h
  · rename_i x hx
    split at h
    · cases h
    · rename_i hw
      cases h
      exact ⟨(Scanner.leading_gives _ x hx v hw).same_self, Nat.sub_le _ _⟩

theorem json_agree (h : m.Twin c d) :
    m.Agree json json c d fun v w _ => (w = v ∧ v.same v = true) ∧ Flat v.write := by
  refine .and ?_ ((json_gives c).mono fun v hv => flat_of_not_control (not_control_of_mem_text hv))
  unfold Agree
  rw [json_eq, json_eq, h.lineRest_eq]
  split
  · exact .refused h _
  · rename_i hv
    obtain ⟨hsame, hn⟩ := lineJson_ok hv
    have hflat := h.flat_lineRest hn
    exact ⟨onLine_drop hflat.1, ⟨rfl, hsame⟩, h.drop hflat⟩

theorem component_agree : m.Steady component := by
  intro c d h
  refine node_agree h ((json_agree h).bind_forms ?_)
  rintro _ v e g ⟨⟨rfl, hv⟩, hflat⟩ htwin
  exact .pure htwin ⟨hv, rfl, forall_mem_singleton.2 hflat, .nil e⟩

end Parse

/-! ### Data -/

namespace Snbt

open Parse

theorem key_agree (h : m.Twin c d) : m.Agree key key c d fun x y _ => y = x ∧ Flat x := by
  refine (atQuote_agree h).bind ?_
  rintro quote _ _ g ⟨rfl, rfl⟩ htwin
  refine .ite_same ?_ ?_
  · exact (quoted_agree htwin).bind fun _ _ _ _ hxy htwin => .pure htwin hxy.1
  · exact (token_agree htwin word_onLine _).bind fun _ _ _ _ hxy htwin => .pure htwin ⟨hxy.text, hxy.flat⟩

theorem label_agree (h : m.Twin c d) : m.Agree label label c d fun x y _ => y = x ∧ Flat x := by
  rw [label_eq]
  refine (key_agree h).bind fun _ _ _ _ hkey htwin => ?_
  refine (skipSpaces_agree htwin).bind fun _ _ _ _ _ htwin => ?_
  refine (expect_agree htwin (by decide)).bind fun _ _ _ _ _ htwin => ?_
  exact (skipSpaces_agree htwin).bind fun _ _ _ _ _ htwin => .pure htwin hkey

theorem scalar_agree : m.Steady scalar := by
  intro c d h
  refine (atQuote_agree h).bind ?_
  rintro quote _ _ g ⟨rfl, rfl⟩ htwin
  refine .ite_same ?_ ?_
  · refine (quoted_agree htwin).bind ?_
    rintro ⟨_, s⟩ ⟨text, s'⟩ e g ⟨⟨rfl, hflat⟩, hspan⟩ htwin
    exact .pure htwin (leaves_text (.nbtValue (.string text)) hspan rfl rfl
      (by simp [sameData, Scalar.same, Scalar.same.isFloating]) rfl hflat).toTrees
  · refine (token_agree htwin word_onLine _).bind ?_
    rintro ⟨_, s⟩ ⟨text, s'⟩ e g ⟨rfl, hspan, hflat, -⟩ htwin
    refine .pure htwin (leaves_mk (.nbtValue (classify text)) hspan rfl rfl (classify_same text) ?_).toTrees
    have hread := classify_isRead hflat
    cases hs : classify text with
    | string text =>
      rw [hs] at hread
      exact forall_mem_singleton.2 hread
    | _ => exact forall_mem_nil _

theorem entry_agree (h : m.Twin c d)
    (htag : ∀ e g, e.remaining ≤ c.remaining → m.Twin e g → m.Agree anyTag anyTag e g (m.Trees e)) :
    m.Agree entry entry c d (m.Trees c) := by
  refine node_agree h ((label_agree h).bind_ahead ?_)
  rintro _ key e g he ⟨rfl, hflat⟩ htwin
  refine (htag e g he.reaches.remaining_le htwin).bind fun n k _ _ hn htwin => .pure htwin ?_
  exact ⟨decide_eq_true rfl, rfl, forall_mem_singleton.2 hflat, hn.rows.before he.reaches⟩

theorem element_agree (array : Option ArrayKind) (htag : m.Agree anyTag anyTag c d (m.Trees c)) :
    m.Agree (element array) (element array) c d (m.Trees c) := by
  refine htag.bind fun n k _ _ hn htwin => ?_
  exact check_agree htwin (by rw [isIntegral_same hn.same]) _ hn

theorem tag_agree : m.Steady anyTag := by
  intro c d h
  induction c using induct generalizing d with
  | hstep c ih =>
    have inside : ∀ {n : Nat} {e g : Cursor}, 0 < n → c.rest ≠ [] → e.remaining ≤ (c.drop n).remaining →
        m.Twin e g → m.Agree anyTag anyTag e g (m.Trees e) := by
      intro n e g hn hc he htwin
      refine ih e ?_ htwin
      have hpos : 0 < c.remaining := length_pos_iff.2 hc
      rw [remaining_drop] at he
      omega
    have nonempty : ∀ {ch : Char}, c.peek = some ch → c.rest ≠ [] := by
      intro ch hch hnil
      rw [Cursor.peek, hnil] at hch
      cases hch
    change m.Abreast c (m.Trees c) ((tag c).map Step.pair) ((tag d).map Step.pair)
    rw [tag_eq, tag_eq]
    by_cases hbrace : c.peek = some '{'
    · rw [if_pos hbrace, if_pos ((h.peek_iff (by decide)).2 hbrace)]
      refine node_agree h (advance_bind (onLine_over (by decide) hbrace) ?_)
      refine (list_agree (by decide) (h.drop_one (by decide) hbrace) fun e g he htwin => ?_).bind ?_
      · refine entry_agree htwin fun e' g' he' htwin' => ?_
        exact inside (by decide) (nonempty hbrace) (le_trans he' he) htwin'
      · intro ns ks _ _ hns htwin
        exact .pure htwin ⟨decide_eq_true hns.same.length_eq, rfl, forall_mem_nil _, hns.before (c.reaches_drop 1)⟩
    · rw [if_neg hbrace, if_neg fun hd => hbrace ((h.peek_iff (by decide)).1 hd)]
      by_cases hbracket : c.peek = some '['
      · have hpeek := (h.peek_iff (by decide)).2 hbracket
        have hkind := h.eq_of_lineBound arrayKind?_lineBound
        have hflat := arrayKind?_flat hbracket
        have hdrop := h.drop ⟨hflat, hkind ▸ arrayKind?_flat hpeek⟩
        rw [if_pos hbracket, if_pos hpeek, hkind]
        have hopening : 0 < opening (arrayKind? c.rest) := by
          rw [opening]
          split <;> decide
        refine node_agree h (advance_bind (onLine_drop hflat) ?_)
        refine (list_agree (by decide) hdrop fun e g he htwin => ?_).bind ?_
        · exact element_agree _ (inside hopening (nonempty hbracket) he htwin)
        · intro ns ks _ _ hns htwin
          have hrows := hns.before (c.reaches_drop _)
          refine .pure htwin ?_
          cases arrayKind? c.rest with
          | none => exact ⟨decide_eq_true hns.same.length_eq, rfl, forall_mem_nil _, hrows⟩
          | some kind =>
            exact ⟨by simp [listForm, sameData, hns.same.length_eq], rfl, forall_mem_nil _, hrows⟩
      · rw [if_neg hbracket, if_neg fun hd => hbracket ((h.peek_iff (by decide)).1 hd)]
        exact scalar_agree h

theorem compound_agree : m.Steady compound := by
  intro c d h
  have htag : m.Agree anyTag anyTag c d (m.Trees c) := tag_agree h
  unfold Agree compound
  split
  · rename_i hc
    rw [if_pos ((h.peek_iff (by decide)).2 hc)]
    exact htag
  · rename_i hc
    rw [if_neg fun hd => hc ((h.peek_iff (by decide)).1 hd)]
    exact .refused h _

end Snbt

/-! ### Blocks and items -/

namespace Parse

theorem blockProperty_agree : m.Steady blockProperty := by
  intro c d h
  refine node_agree h ((token_agree h word_onLine _).bind_forms ?_)
  rintro ⟨key, _⟩ ⟨_, _⟩ _ _ ⟨rfl, -, hkey, -⟩ htwin
  refine (skipSpaces_agree htwin).bind_forms fun _ _ _ _ _ htwin => ?_
  refine (expect_agree htwin (by decide)).bind_forms fun _ _ _ _ _ htwin => ?_
  refine (skipSpaces_agree htwin).bind_forms fun _ _ _ _ _ htwin => ?_
  refine (token_agree htwin word_onLine _).bind_forms ?_
  rintro ⟨value, _⟩ ⟨_, _⟩ e _ ⟨rfl, -, hvalue, -⟩ htwin
  exact .pure htwin ⟨by simp [sameData], rfl, by simpa [texts] using ⟨hkey, hvalue⟩, .nil e⟩

/-- A node that may be missing, in both readings or in none. -/
structure Optional (c : Cursor) (o o' : Option Node) (e : Cursor) : Prop where
  isSome : o.isSome = o'.isSome
  rows : Rows c o.toList o'.toList e

theorem some_agree {r t : Parse Node} (h : m.Agree r t c d (m.Trees c)) :
    m.Agree (some <$> r) (some <$> t) c d (Optional c) :=
  .map (h.mono fun _ _ _ hn => ⟨rfl, hn.rows⟩)

theorem dataTags_agree (h : m.Twin c d) : m.Agree dataTags dataTags c d (Optional c) := by
  refine .look_bind (.ite (h.peek_iff (by decide)) (fun _ => ?_) fun _ => .pure h ⟨rfl, .nil c⟩)
  exact some_agree (compound_agree h)

theorem bracketed_agree (h : m.Twin c d) {item : Parse Node} (hitem : m.Steady item) :
    m.Agree (bracketed item) (bracketed item) c d (Rows c) := by
  refine (consume_agree h (by decide)).bind_rows ?_
  rintro found _ e g rfl htwin
  refine .ite_same ?_ (.pure htwin (.nil e))
  exact list_agree (by decide) htwin fun _ _ _ htwin => hitem htwin

theorem block_agree (allowTag : Bool) : m.Steady (block allowTag) := by
  intro c d h
  rw [block_eq]
  refine node_agree h ((resourceLocation_agree allowTag h).bind fun n k _ _ hn htwin => ?_)
  refine (bracketed_agree htwin blockProperty_agree).bind fun ns ks _ _ hns htwin => ?_
  refine (dataTags_agree htwin).bind fun o o' _ _ ho htwin => .pure htwin ⟨?_, rfl, forall_mem_nil _, ?_⟩
  · simp [sameData, hns.same.length_eq, ho.isSome]
  · exact hn.rows.append (hns.append ho.rows)

theorem item_agree (allowTag : Bool) : m.Steady (item allowTag) := by
  intro c d h
  refine node_agree h ((resourceLocation_agree allowTag h).bind fun n k _ _ hn htwin => ?_)
  refine (dataTags_agree htwin).bind fun o o' _ _ ho htwin => .pure htwin ⟨?_, rfl, forall_mem_nil _, ?_⟩
  · simp [sameData, ho.isSome]
  · exact hn.rows.append ho.rows

end Parse

/-! ### Selectors -/

namespace Selector

open Parse

theorem boolean_agree (h : m.Twin c d) : m.Agree boolean boolean c d fun x y _ => y = x := by
  refine (consume_agree h (by decide)).bind ?_
  rintro found _ e g rfl htwin
  refine .ite_same (.pure htwin rfl) ?_
  refine (consume_agree htwin (by decide)).bind ?_
  rintro found _ e g rfl htwin
  exact .ite_same (.pure htwin rfl) (.fail htwin _)

theorem equalsSign_agree (h : m.Twin c d) : m.Agree equalsSign equalsSign c d fun _ _ _ => True := by
  refine (skipSpaces_agree h).bind fun _ _ _ _ _ htwin => ?_
  exact (expect_agree htwin (by decide)).bind fun _ _ _ _ _ htwin => skipSpaces_agree htwin

theorem braced_agree {entry : Parse Node} {make : List Node → Form Node} (hentry : m.Steady entry)
    (hmake : ∀ {c e ns ks}, Rows c ns ks e → Forms c (make ns) (make ks) e) :
    m.Steady (node do return make (← braced entry)) := by
  intro c d h
  have hbraced : m.Agree (braced entry) (braced entry) c d (Rows c) := by
    refine (expect_agree h (by decide)).bind_rows fun _ _ _ _ _ htwin => ?_
    exact list_agree (by decide) htwin fun e g _ htwin => hentry htwin
  exact node_agree h (hbraced.bind fun ns ks _ _ hns htwin => .pure htwin (hmake hns))

theorem scoreMatch_agree : m.Steady scoreMatch := by
  intro c d h
  refine node_agree h ((token_agree h word_onLine _).bind_forms ?_)
  rintro ⟨key, _⟩ ⟨_, _⟩ _ _ ⟨rfl, -, hkey, -⟩ htwin
  refine (equalsSign_agree htwin).bind_forms fun _ _ _ _ _ htwin => ?_
  refine (range_agree true htwin).bind fun n k _ _ hn htwin => ?_
  exact .pure htwin ⟨decide_eq_true rfl, rfl, forall_mem_singleton.2 hkey, hn.rows⟩

theorem criterionMatch_agree : m.Steady criterionMatch := by
  intro c d h
  refine node_agree h ((token_agree h word_onLine _).bind_forms ?_)
  rintro ⟨key, _⟩ ⟨_, _⟩ _ _ ⟨rfl, -, hkey, -⟩ htwin
  refine (equalsSign_agree htwin).bind_forms fun _ _ _ _ _ htwin => ?_
  refine (boolean_agree htwin).bind_forms ?_
  rintro value _ e _ rfl htwin
  exact .pure htwin ⟨by simp [sameData], rfl, forall_mem_singleton.2 hkey, .nil e⟩

theorem scores_agree : m.Steady scores := by
  exact braced_agree scoreMatch_agree fun hns => ⟨decide_eq_true hns.same.length_eq, rfl, forall_mem_nil _, hns⟩

theorem criteria_agree : m.Steady criteria := by
  exact braced_agree criterionMatch_agree fun hns => ⟨decide_eq_true hns.same.length_eq, rfl, forall_mem_nil _, hns⟩

theorem advancementValue_agree : m.Steady advancementValue := by
  intro c d h
  refine .look_bind (.ite (h.peek_iff (by decide)) (fun _ => criteria_agree h) fun _ => ?_)
  refine node_agree h ((boolean_agree h).bind_forms ?_)
  rintro value _ e _ rfl htwin
  exact .pure htwin ⟨decide_eq_true rfl, rfl, forall_mem_nil _, .nil e⟩

theorem advancementMatch_agree : m.Steady advancementMatch := by
  intro c d h
  rw [advancementMatch_eq]
  refine node_agree h ((resourceLocation_agree false h).bind fun n k _ _ hn htwin => ?_)
  refine (equalsSign_agree htwin).bind_ahead fun _ _ _ _ he _ htwin => ?_
  refine (advancementValue_agree htwin).bind fun v w _ _ hv htwin => ?_
  exact .pure htwin ⟨rfl, rfl, forall_mem_nil _, hn.rows.append (hv.rows.before he.reaches)⟩

theorem advancements_agree : m.Steady advancements := by
  exact braced_agree advancementMatch_agree fun hns => ⟨decide_eq_true hns.same.length_eq, rfl, forall_mem_nil _, hns⟩

theorem limit_agree : m.Steady limit := by
  intro c d h
  refine (number_agree h true).bind ?_
  rintro n k _ _ ⟨hn, v, hv⟩ htwin
  rw [hn.form, hv]
  cases v with
  | int i => exact check_agree htwin Iff.rfl _ hn.toTrees
  | float x => exact .pure htwin hn.toTrees

theorem sortOrder_agree : m.Steady sortOrder := by
  intro c d h
  refine (wordNode_agree h word_onLine _).bind ?_
  rintro n k _ _ ⟨hn, order, horder⟩ htwin
  rw [hn.form, horder]
  exact .ite_same (.pure htwin hn.toTrees) (.failAt hn.span _)

theorem name_agree : m.Steady name := by
  intro c d h
  refine (atQuote_agree h).bind ?_
  rintro quote _ _ g ⟨rfl, rfl⟩ htwin
  exact .ite_same (phrase_agree htwin) (wordNode_trees word_onLine _ htwin)

theorem optionalWord_agree (h : m.Twin c d) (what : String) :
    m.Agree (optionalWord what) (optionalWord what) c d (Optional c) := by
  refine .look_bind (.ite ?_ (fun _ => .pure h ⟨rfl, .nil c⟩) fun _ => ?_)
  · exact or_congr (h.peek_iff (by decide)) (or_congr (h.peek_iff (by decide)) (h.peek_iff (by decide)))
  · exact some_agree (wordNode_trees word_onLine what h)

theorem argumentValue_agree (h : m.Twin c d) (key : String) {s s' : Span} (hspan : m.Marks s s') :
    m.Agree (argumentValue key s) (argumentValue key s') c d (Optional c) := by
  refine .ite_same (some_agree ((number_agree h _).mono fun _ _ _ hn => hn.1.toTrees)) ?_
  refine .ite_same (some_agree (range_agree _ h)) ?_
  refine .ite_same (some_agree (range_agree _ h)) ?_
  refine .ite_same (some_agree (limit_agree h)) ?_
  refine .ite_same (some_agree (sortOrder_agree h)) ?_
  refine .ite_same (some_agree (wordNode_trees word_onLine _ h)) ?_
  refine .ite_same (some_agree (name_agree h)) ?_
  refine .ite_same (optionalWord_agree h _) ?_
  refine .ite_same (some_agree (resourceLocation_agree _ h)) ?_
  refine .ite_same (some_agree (resourceLocation_agree _ h)) ?_
  refine .ite_same (some_agree (compound_agree h)) ?_
  refine .ite_same (some_agree (scores_agree h)) ?_
  exact .ite_same (some_agree (advancements_agree h)) (.failAt hspan _)

theorem argument_agree : m.Steady argument := by
  intro c d h
  refine node_agree h ((token_agree h word_onLine _).bind_forms ?_)
  rintro ⟨_, s⟩ ⟨key, s'⟩ _ _ ⟨rfl, hspan, hkey, -⟩ htwin
  refine (equalsSign_agree htwin).bind_forms fun _ _ _ _ _ htwin => ?_
  refine (consume_agree htwin (by decide)).bind_forms ?_
  rintro _ inverted _ _ rfl htwin
  refine .ite_same (.failAt hspan.toMarks _) ?_
  refine (skipSpaces_agree htwin).bind_forms fun _ _ _ _ _ htwin => ?_
  refine (argumentValue_agree htwin _ hspan.toMarks).bind fun o o' _ _ ho htwin => .pure htwin ⟨?_, rfl, ?_, ho.rows⟩
  · simp [sameData, ho.isSome]
  · exact forall_mem_singleton.2 hkey

def targetLetter? : List Char → Option Char
  | '@' :: v :: _ => if isTarget v then some v else none
  | _ => none

theorem target_eq (c : Cursor) : (target c).map Step.pair =
    match targetLetter? c.rest with
    | some v => .ok (String.singleton v, c.drop 2)
    | none => .error ⟨.expected "selector", c.spanHere⟩ := by
  rw [target]
  split
  · rename_i hrest
    rw [hrest, targetLetter?]
    split <;> rfl
  · rename_i hrest
    rw [targetLetter?.eq_2 _ hrest]
    rfl

theorem targetLetter?_lineBound : LineBound targetLetter? := by
  intro cs rest x hx
  match cs with
  | [] => rcases hx with rfl | rfl <;> rfl
  | [c] =>
    by_cases hc : c = '@'
    · subst hc
      rcases hx with rfl | rfl <;> rfl
    · simp [targetLetter?, hc]
  | c :: v :: cs =>
    by_cases hc : c = '@'
    · subst hc
      rfl
    · simp [targetLetter?, hc]

theorem targetLetter?_flat {v : Char} (h : targetLetter? cs = some v) : '\n' ∉ cs.take 2 := by
  unfold targetLetter? at h
  split at h
  · rename_i v' rest
    split at h
    · rename_i hv
      have hne : v' ≠ '\n' := by
        rintro rfl
        cases hv
      exact not_mem_take_succ (by decide) (not_mem_take_succ hne not_mem_nil)
    · cases h
  · cases h

theorem target_agree (h : m.Twin c d) : m.Agree target target c d fun x y _ => y = x ∧ Flat x := by
  refine .and ?_ ((target_gives c).mono ?_)
  rotate_left
  · rintro _ ⟨ch, rfl, hch⟩
    rw [Text.Flat, toList_singleton, mem_singleton]
    rintro rfl
    cases hch
  have hbound := h.eq_of_lineBound targetLetter?_lineBound
  unfold Pairing.Agree
  rw [target_eq, target_eq, hbound]
  split
  · rename_i hv
    have hflat := targetLetter?_flat hv
    exact ⟨onLine_drop hflat, rfl, h.drop ⟨hflat, targetLetter?_flat (hbound.trans hv)⟩⟩
  · exact .refused h _

theorem selector_agree : m.Steady selector := by
  intro c d h
  rw [selector_eq]
  refine node_agree h ((target_agree h).bind_forms ?_)
  rintro v _ _ _ ⟨rfl, hflat⟩ htwin
  refine (bracketed_agree htwin argument_agree).bind fun ns ks _ _ hns htwin => ?_
  refine .pure htwin ⟨?_, rfl, forall_mem_singleton.2 hflat, hns⟩
  simp [sameData, hns.same.length_eq]

/-! ### Messages -/

theorem pendingText_rows (hb : m.Twin b b') (h : m.Twin c d) (hline : b.OnLine c) {text : List Char}
    (htext : '\n' ∉ text) : Rows b (pendingText text b.location c) (pendingText text b'.location d) c := by
  rw [pendingText, pendingText]
  split
  · exact (Rows.nil b).behind hline.reaches
  · refine (leaves_text (.messageText _) (hb.covers h hline) rfl rfl (decide_eq_true rfl) rfl ?_).rows
    simpa [Text.Flat] using htext

theorem isAhead_lineBound : LineBound isAhead := by
  intro cs rest x hx
  by_cases hcs : cs = []
  · subst hcs
    rcases hx with rfl | rfl <;> rfl
  · refine isAhead_append hcs (.cons ?_)
    rcases hx with rfl | rfl <;> decide +kernel

theorem fragmentsFrom_eq_pending (text : List Char) (first : Location) (hend : c.atLineEnd = true) :
    (fragmentsFrom text first c).map Step.pair = .ok (pendingText text first c, c) := by
  rw [fragmentsFrom]
  split
  · rfl
  · rw [if_pos hend]
    rfl

theorem fragmentsFrom_abreast (hb : m.Twin b b') (h : m.Twin c d) (hline : b.OnLine c) {text : List Char}
    (htext : '\n' ∉ text) : m.Abreast c (Rows b) ((fragmentsFrom text b.location c).map Step.pair)
      ((fragmentsFrom text b'.location d).map Step.pair) := by
  have since_pair : ∀ {c : Cursor} (r : Except SyntaxError (Step (c.drop 1) (List Node))),
      (r.map (Step.since (c.reaches_drop 1))).map Step.pair = r.map Step.pair := by
    intro c r
    cases r <;> rfl
  induction c using induct generalizing text b b' d with
  | hstep c ih =>
    have hrows := pendingText_rows hb h hline htext
    cases hend : c.atLineEnd with
    | true =>
      rw [fragmentsFrom_eq_pending text _ hend, fragmentsFrom_eq_pending text _ (h.atLineEnd_eq.trans hend)]
      exact ⟨.refl c, hrows, h⟩
    | false =>
      have hahead := h.eq_of_lineBound isAhead_lineBound
      cases hselector : isAhead c.rest with
      | true =>
        rw [fragmentsFrom_ahead hselector, fragmentsFrom_ahead (hahead.trans hselector)]
        have hmeet : m.Abreast c (m.Trees c) ((selector c).map Step.pair) ((selector d).map Step.pair) :=
          selector_agree h
        cases hx : selector c <;> cases hy : selector d <;> rw [hx, hy] at hmeet
        · exact hmeet
        · exact hmeet.elim
        · exact hmeet.elim
        · rename_i x y
          obtain ⟨hmoved, htrees, htwin⟩ := hmeet
          have hrest := ih _ (selector_strict c hx) htwin htwin (.refl _) not_mem_nil
          dsimp only [Except.bind]
          revert hrest
          generalize fragmentsFrom [] x.next.location x.next = left
          generalize fragmentsFrom [] y.next.location y.next = right
          cases left <;> cases right
          · exact id
          · exact False.elim
          · exact False.elim
          · exact fun hrest =>
              ⟨hmoved.trans hrest.1, hrows.append (htrees.rows.append hrest.2.1), hrest.2.2⟩
      | false =>
        obtain ⟨ch, more, hrest⟩ : ∃ ch more, c.rest = ch :: more := by
          refine exists_cons_of_ne_nil fun hnil => ?_
          simp [atLineEnd, hnil] at hend
        have hch : c.peek = some ch := by
          rw [Cursor.peek, hrest]
          rfl
        have hne : ch ≠ '\n' := by
          rintro rfl
          simp [atLineEnd, hrest] at hend
        obtain ⟨more', hrest'⟩ := head?_eq_some_iff.1 (h.peek_of_peek hne hch)
        have hmoved := onLine_over hne hch
        rw [fragmentsFrom_char hrest (by simp [hend]) (by simp [hselector]),
          fragmentsFrom_char hrest' (by simp [h.atLineEnd_eq, hend]) (by simp [hahead, hselector]), since_pair, since_pair]
        refine (ih _ (c.drop_one_remaining hch) hb (h.drop_one hne hch) (hline.trans hmoved) ?_).since hmoved
        rw [mem_cons, not_or]
        exact ⟨hne.symm, htext⟩

theorem fragments_agree (h : m.Twin c d) : m.Agree fragments fragments c d (Rows c) := by
  unfold Agree fragments
  rw [h.atLineEnd_eq]
  split
  · exact .refused h _
  · exact fragmentsFrom_abreast h h (.refl c) not_mem_nil

theorem message_agree : m.Steady message := by
  intro c d h
  refine node_agree h ((fragments_agree h).bind fun ns ks _ _ hns htwin => ?_)
  exact .pure htwin ⟨decide_eq_true hns.same.length_eq, rfl, forall_mem_nil _, hns⟩

theorem message_at (hb : b.OnLine c) : At b message c fun n d => Placed Plain c d n :=
  (message_agree (twin_still hb)).at.mono fun _ _ _ hn => hn.plain

end Selector

/-! ### All arguments -/

namespace Parse

theorem bool_agree : m.Steady bool := by
  intro c d h
  refine (word_agree h).bind ?_
  rintro ⟨_, s⟩ ⟨text, s'⟩ e g ⟨rfl, hspan⟩ htwin
  have hbool : ∀ value, m.Trees c ⟨.bool value, s⟩ ⟨.bool value, s'⟩ e :=
    fun value => (leaves_textless (.bool value) hspan rfl rfl (decide_eq_true rfl) rfl).toTrees
  refine .ite_same (.pure htwin (hbool true)) ?_
  exact .ite_same (.pure htwin (hbool false)) (.failAt hspan.toMarks _)

theorem checkBounds_agree (h : m.Twin c d) (p : Properties) (n : Number) {s s' : Span} (hspan : m.Marks s s') :
    m.Agree (checkBounds p n s) (checkBounds p n s') c d fun _ _ e => e = c := by
  unfold checkBounds
  dsimp only
  split
  · exact .failAt hspan _
  · exact .failAt hspan _
  · exact .pure h rfl

theorem bounded_agree (p : Properties) (integral limited : Bool) : m.Steady (bounded p integral limited) := by
  intro c d h
  refine (number_agree h integral).bind ?_
  rintro n k _ _ ⟨hn, v, hv⟩ htwin
  rw [hn.form, hv]
  refine .ite_same (.failAt hn.span _) ?_
  refine (checkBounds_agree htwin p v hn.span).bind ?_
  rintro _ _ _ _ rfl htwin
  exact .pure htwin hn.toTrees

theorem greedy_agree : m.Steady greedy := by
  intro c d h
  refine (line_agree h).bind ?_
  rintro ⟨_, s⟩ ⟨text, s'⟩ e g ⟨rfl, hspan, hflat⟩ htwin
  refine .ite_same (.failAt hspan.toMarks _) ?_
  exact .pure htwin (leaves_text (.greedy text) hspan rfl rfl (decide_eq_true rfl) rfl hflat).toTrees

theorem string_agree (p : Properties) : m.Steady (string p) := by
  intro c d h
  refine (atQuote_agree h).bind ?_
  rintro phrases _ _ g ⟨rfl, rfl⟩ htwin
  refine .ite_same (greedy_agree htwin) ?_
  exact .ite_same (phrase_agree htwin) (wordNode_trees word_onLine _ htwin)

theorem checkTarget_agree (h : m.Twin e g) (p : Properties) (players : Bool) {n k : Node} (hn : m.Trees c n k e) :
    m.Agree (checkTarget p players n) (checkTarget p players k) e g (m.Trees c) := by
  unfold checkTarget
  rw [isSingle_same hn.same, isPlayers_same hn.same]
  refine .ite_same (.failAt hn.span _) ?_
  exact .ite_same (.failAt hn.span _) (.pure h hn)

theorem namedEntity_agree : m.Steady namedEntity := by
  intro c d h
  refine (token?_agree h uuid_onLine).bind ?_
  rintro _ _ e g ⟨⟨hfound⟩ | _, hnone⟩ htwin
  · rename_i x y
    obtain ⟨_, s⟩ := x
    obtain ⟨text, s'⟩ := y
    obtain ⟨rfl, hspan, hflat, -⟩ := hfound
    exact .pure htwin (leaves_text (.word text) hspan rfl rfl (decide_eq_true rfl) rfl hflat).toTrees
  · cases hnone rfl
    exact wordNode_trees playerName_onLine _ htwin

theorem entity_agree (p : Properties) : m.Steady (entity p) := by
  intro c d h
  have hentity : m.Agree anyEntity anyEntity c d (m.Trees c) :=
    .look_bind (.ite (h.peek_iff (by decide)) (fun _ => selector_agree h) fun _ => namedEntity_agree h)
  exact hentity.bind fun _ _ _ _ hn htwin => checkTarget_agree htwin p true hn

theorem scoreHolder_agree (p : Properties) : m.Steady (scoreHolder p) := by
  intro c d h
  refine .look_bind (.ite (h.peek_iff (by decide)) (fun _ => ?_) fun _ => wordNode_trees value_onLine _ h)
  exact (selector_agree h).bind fun _ _ _ _ hn htwin => checkTarget_agree htwin p false hn

theorem timeToken_agree (h : m.Twin c d) :
    m.Agree timeToken timeToken c d fun x y _ => (y = x ∧ IsNumeral x.1) ∧ IsUnit x.2 := by
  refine .and ?_ ((timeToken_gives c).mono fun _ hx => hx.2)
  have hbound := h.eq_of_lineBound decimal_lineBound
  have hflat := h.flat decimal_lineBound decimal_flat
  have htwin := h.drop hflat
  have hunit := htwin.eq_of_lineBound timeUnit?_lineBound
  have hlen : LineBound fun cs => (timeUnit? cs).toList.length := by
    intro cs rest x hx
    dsimp only
    rw [timeUnit?_lineBound cs rest x hx]
  have hunitFlat := htwin.flat hlen timeUnit?_flat
  have hnext := htwin.drop hunitFlat
  have hline := (onLine_drop hflat.1).trans (onLine_drop hunitFlat.1)
  rw [Cursor.drop_drop, Cursor.drop_drop] at hnext
  rw [Cursor.drop_drop] at hline
  have hcond : (d.rest = [] ∨ decimal d.rest = 0) ↔ (c.rest = [] ∨ decimal c.rest = 0) := by
    have hempty : ∀ cs : List Char, cs = [] → decimal cs = 0 := by
      rintro _ rfl
      rfl
    rw [or_iff_right_of_imp (hempty _), or_iff_right_of_imp (hempty _), hbound]
  rw [rest_drop, rest_drop] at hunit
  rw [rest_drop] at hnext hline
  unfold Pairing.Agree timeToken
  dsimp only
  split
  · rename_i hnone
    rw [if_pos (hcond.2 hnone)]
    exact .refused h _
  · rename_i hsome
    rw [if_neg fun hd => hsome (hcond.1 hd)]
    refine ⟨hline, ⟨Prod.ext ?_ ?_, .decimal c.rest⟩, ?_⟩
    · change ofList (d.rest.take (decimal d.rest)) = _
      rw [hbound, h.take_eq hflat]
    · change timeUnit? (d.rest.drop (decimal d.rest)) = _
      rw [hbound, hunit]
    · change m.Twin _ (d.drop (decimal d.rest + (timeUnit? (d.rest.drop (decimal d.rest))).toList.length))
      rw [hbound, hunit]
      exact hnext

theorem time_agree : m.Steady time := by
  intro c d h
  refine (spanned_agree h (timeToken_agree h)).bind ?_
  rintro ⟨⟨text, unit⟩, s⟩ ⟨_, s'⟩ e g ⟨⟨⟨rfl, htext⟩, hunit⟩, hspan⟩ htwin
  refine (numberAt_agree htwin htext hspan.toMarks false).bind ?_
  rintro _ v _ _ ⟨⟨rfl, hv⟩, rfl⟩ htwin
  refine .pure htwin (leaves_mk _ hspan rfl rfl (by simp [sameData, hv]) ?_).toTrees
  cases unit with
  | none => exact forall_mem_nil _
  | some u => rcases hunit u rfl with rfl | rfl | rfl <;> exact forall_mem_singleton.2 (by decide)

end Parse

open Parse Selector in
theorem Leaf.read_agree (p : Properties) (l : Leaf) : m.Steady (l.read p) := by
  cases l with
  | bool => exact bool_agree
  | integer | long | float => exact bounded_agree p _ _
  | string => exact string_agree p
  | resource | resourceOrTag => exact resourceLocation_agree _
  | vector3 | blockPosition => exact vector3_agree _
  | vector2 | columnPosition => exact vector2_agree _
  | angle => exact angle_agree
  | integerRange | floatRange => exact range_agree _
  | entity => exact entity_agree p
  | scoreHolder => exact scoreHolder_agree p
  | message => exact message_agree
  | component => exact component_agree
  | nbtCompound => exact compound_agree
  | nbtTag => exact tag_agree
  | blockState | blockPredicate => exact block_agree _
  | itemStack | itemPredicate => exact item_agree _
  | time => exact time_agree
  | word => exact wordNode_trees word_onLine _
  | criteria => exact wordNode_trees criteria_onLine _
  | value => exact wordNode_trees value_onLine _
  | operation => exact wordNode_trees operation_onLine _
  | uuid => exact wordNode_trees uuid_onLine _

theorem Leaf.read_at (p : Properties) (l : Leaf) (c : Cursor) : Parse.At c (l.read p) c fun n d => Placed LinePart c d n :=
  (l.read_agree p (twin_still (.refl c))).at

theorem Leaf.read_placed {p : Properties} {l : Leaf} {x : Step c Node} (hx : l.read p c = .ok x) :
    Placed LinePart c x.next x.value := (l.read_at p c).ok hx

end Mcfunction
