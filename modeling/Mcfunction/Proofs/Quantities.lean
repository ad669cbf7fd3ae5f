import Mcfunction.Proofs.Numerals

/-! Numbers, ranges, coordinates and times are read back from their texts. -/

namespace Mcfunction.Parse

open List Numeral String Token Number Node Printer Token
open Reader (Gives)

variable {c : Cursor} {kind : CoordinateKind} {unit : Option Char} {i : Int}

/-! ### Numbers and ranges -/

theorem number_restores (integral : Bool) (c : Cursor) : Gives (number integral) c fun n =>
    n.Exact → Restores (number integral) isStart (EndsAt isNumberEnd) n := by
  refine (number_gives integral c).mono ?_
  rintro ⟨form, span⟩ ⟨v, rfl, hshort⟩ hexact
  obtain ⟨i, rfl⟩ := exists_int hexact.self
  have htext : (⟨.number (.int i), span⟩ : Node).text = toString i := text_eq _
  refine .of_text (congrArg _ htext) (toString_starts i) ?_ rfl (same_int i)
  exact number_accepts (hshort i rfl) integral

def isRangeStart (ch : Char) : Bool := isStart ch || ch = '.'

theorem endText_starts (min max : Option Int) : StartsAt isRangeStart (endText min ++ ("..".toList ++ endText max)) := by
  cases min with
  | none => exact StartsAt.cons rfl
  | some i => exact ((toString_starts i).mono fun ch hch => by rw [isRangeStart, hch, Bool.true_or]).append _

theorem rangeText_starts (min max : Option Int) :
    StartsAt isRangeStart (rangeText (min.map .int) (max.map .int)).toList := by
  rcases ends_or_single min max with hsame | ⟨i, rfl, rfl⟩
  · rw [rangeText_ends hsame]
    exact endText_starts min max
  · rw [Option.map_some, rangeText_int]
    exact (toString_starts i).mono fun ch hch => by rw [isRangeStart, hch, Bool.true_or]

theorem range_restores (integral : Bool) (c : Cursor) : Gives (range integral) c fun n =>
    n.Exact → Restores (range integral) isRangeStart (EndsAt isRangeEnd) n := by
  refine (range_gives integral c).mono ?_
  rintro ⟨form, span⟩ ⟨min, max, rfl, hrange, hmin, hmax⟩ hexact
  obtain ⟨hint₁, hint₂⟩ := Bool.and_eq_true_iff.1 hexact.self
  obtain ⟨min, rfl⟩ := exists_ints hint₁
  obtain ⟨max, rfl⟩ := exists_ints hint₂
  have hfits : ∀ {o : Option Int}, (∀ v ∈ o.map int, IsShort v) → ∀ i ∈ o, fits 64 i = true := by
    intro o ho i hi
    exact ho (.int i) (Option.mem_map_of_mem _ hi) i rfl
  have htext : (⟨.range (min.map .int) (max.map .int), span⟩ : Node).text =
      rangeText (min.map .int) (max.map .int) := text_eq _
  refine .of_text (congrArg _ htext) (rangeText_starts min max) ?_ rfl ?_
  · exact range_accepts hrange (hfits hmin) (hfits hmax) integral
  · change (same? _ _ && same? _ _) = true
    rw [same?_ints, same?_ints]
    rfl

/-! ### Coordinates -/

theorem coordinate_append {text tail : List Char}
    (hmark : kind = .absolute → StartsAt isStart text) (hnumber : Token.number (text ++ tail) = text.length) :
    Token.coordinate (kind.mark.toList ++ (text ++ tail)) = (kind, text.length) := by
  cases kind with
  | absolute =>
    obtain ⟨ch, cs, rfl, hch⟩ := hmark rfl
    rw [Token.coordinate]
    · exact congrArg (Prod.mk _) hnumber
    · rintro _ h
      rw [(cons.inj h).1] at hch
      cases hch
    · rintro _ h
      rw [(cons.inj h).1] at hch
      cases hch
  | relative | «local» => exact congrArg (Prod.mk _) hnumber

theorem coordinateToken_accepts {F : List Char → Prop} (text : List Char)
    (hmark : kind = .absolute → StartsAt isStart text)
    (hnumber : ∀ tail, F tail → Token.number (text ++ tail) = text.length) :
    Accepts coordinateToken (kind.mark.toList ++ text) F fun x =>
      x = (kind, if text = [] then none else some (String.ofList text)) := by
  intro c tail hc htail
  rw [List.append_assoc] at hc
  have htoken := coordinate_append hmark (hnumber tail htail)
  have hne : kind.mark.toList ++ text ≠ [] := by
    cases kind with
    | absolute => exact (hmark rfl).ne_nil
    | relative | «local» => exact cons_ne_nil _ _
  have hcond : ¬(c.rest = [] ∨ kind.mark.toList.length + text.length = 0) := by
    rw [← List.length_append, List.length_eq_zero_iff, hc, ← List.append_assoc]
    exact not_or.2 ⟨append_ne_nil_of_left_ne_nil hne tail, hne⟩
  refine ⟨⟨(kind, if text = [] then none else some (ofList text)),
    c.drop (kind.mark.toList.length + text.length), c.reaches_drop _⟩, ?_, ?_, rfl⟩
  · rw [← hc] at htoken
    rw [coordinateToken, htoken]
    dsimp only
    rw [if_neg hcond, hc, drop_left, take_left]
    simp only [List.length_eq_zero_iff]
  · rw [Cursor.rest_drop, hc, ← List.append_assoc, ← List.length_append, drop_left]

theorem coordinate_gives (integral : Bool) (c : Cursor) :
    Gives (coordinate integral) c fun n => ∃ kind v, n.form = .coordinate kind v ∧ IsShort v := by
  refine (Reader.Gives.trivial _ c).bind ?_
  rintro ⟨⟨kind, text⟩, span⟩ d - -
  cases text with
  | none =>
    refine Reader.Gives.pure ⟨kind, .int 0, rfl, ?_⟩
    rintro _ ⟨⟩
    decide
  | some text =>
    refine .ite (fun _ => .fail) fun _ => ?_
    refine (numberAt_gives text span integral d).bind fun v _ _ hv => .pure ?_
    exact ⟨kind, v, rfl, fun i hi => (hv i hi).2⟩

def isCoordinateStart (ch : Char) : Bool := isStart ch || ch = '~' || ch = '^'

/-- A coordinate is its mark and its number. The number may be left out after a mark, and is zero then. -/
theorem coordinateText_cases (kind : CoordinateKind) (i : Int) :
    ∃ text, (coordinateText kind (.int i)).toList = kind.mark.toList ++ text ∧
      (text = (toString i).toList ∨ text = [] ∧ i = 0 ∧ kind ≠ .absolute) := by
  rw [coordinateText, toList_append]
  refine ⟨_, rfl, ?_⟩
  split
  · exact .inl rfl
  · rename_i h
    rw [not_or] at h
    have hzero : (Floating.ofInt .double i).isZero = true := by simpa [isZero, toFloating] using h.2
    exact .inr ⟨rfl, Floating.isZero_ofInt hzero, h.1⟩

theorem coordinate_accepts (hi : fits 64 i = true) (integral : Bool) :
    Accepts (coordinate integral) (coordinateText kind (.int i)).toList (EndsAt isRangeEnd)
      fun n => n.form = .coordinate kind (.int i) := by
  obtain ⟨text, heq, rfl | ⟨rfl, rfl, hkind⟩⟩ := coordinateText_cases kind i
  · rw [heq]
    intro c tail hc htail
    refine (spanned_accepts (coordinateToken_accepts _
      (fun _ => toString_starts i) fun tail htail => number_toString i htail) c tail hc ?_).bind ?_
    · exact htail.mono fun ch hch => by
        simp only [isRangeEnd, isNumberEnd, Bool.and_eq_true] at hch ⊢
        exact ⟨hch.1.1, hch.2⟩
    · rintro ⟨_, span⟩ d rfl hd
      rw [if_neg (toString_starts i).ne_nil, ofList_toList]
      dsimp only
      rw [if_neg fun h => point_not_mem_toString i h.2]
      refine (numberAt_accepts (F := fun _ => True) hi rfl span integral d tail hd trivial).bind ?_
      rintro _ e rfl he
      exact .pure he rfl
  · rw [heq]
    intro c tail hc htail
    refine (spanned_accepts (coordinateToken_accepts [] (fun h => absurd h hkind)
      fun tail htail => number_eq_zero (behindEnd_of_endsAt htail)) c tail hc htail).bind ?_
    rintro ⟨_, span⟩ d rfl hd
    exact .pure hd rfl

theorem coordinateText_starts (kind : CoordinateKind) (i : Int) :
    StartsAt isCoordinateStart (coordinateText kind (.int i)).toList := by
  obtain ⟨text, heq, htext⟩ := coordinateText_cases kind i
  rw [heq]
  cases kind with
  | absolute =>
    obtain rfl : text = (toString i).toList := htext.resolve_right fun h => h.2.2 rfl
    exact (toString_starts i).mono fun ch hch => by rw [isCoordinateStart, hch, Bool.true_or, Bool.true_or]
  | relative | «local» => exact StartsAt.cons rfl

theorem coordinate_restores (integral : Bool) (c : Cursor) : Gives (coordinate integral) c fun n =>
    n.Exact → Restores (coordinate integral) isCoordinateStart (EndsAt isRangeEnd) n := by
  refine (coordinate_gives integral c).mono ?_
  rintro ⟨form, span⟩ ⟨kind, v, rfl, hshort⟩ hexact
  obtain ⟨i, rfl⟩ := exists_int hexact.self
  have htext : (⟨.coordinate kind (.int i), span⟩ : Node).text = coordinateText kind (.int i) := text_eq _
  refine .of_text (congrArg _ htext) (coordinateText_starts kind i) ?_ rfl ?_
  · exact coordinate_accepts (hshort i rfl) integral
  · simp [Form.sameData]

/-! ### Vectors -/

/-- A coordinate that is read back, by the reader of coordinates, as one of the same form. -/
abbrev RestoresCoordinate (integral : Bool) (n : Node) : Prop :=
  Restores (coordinate integral) isCoordinateStart (EndsAt isRangeEnd) n

theorem nextCoordinate_gives (integral : Bool) (c : Cursor) :
    Gives (nextCoordinate integral) c fun n => n.Exact → RestoresCoordinate integral n := by
  refine (Reader.Gives.trivial _ c).bind fun found d _ _ => ?_
  exact Reader.Gives.ite (fun _ => coordinate_restores integral d) fun _ => Reader.Gives.failHere

theorem nextCoordinate_accepts {integral : Bool} {n : Node} (h : RestoresCoordinate integral n) :
    Accepts (nextCoordinate integral) (" ".toList ++ n.text.toList) (EndsAt isRangeEnd) fun m => m.form = n.form := by
  refine (consume_accepts " ").bind ?_ fun _ _ => trivial
  rintro _ rfl
  exact h.accepts

def Compatible (allowLocal : Bool) (ns : List Node) : Prop :=
  ¬(ns.any isLocal ∧ !allowLocal) ∧ ¬(ns.any isLocal ∧ !ns.all isLocal)

theorem checkLocal_gives (allowLocal : Bool) (span : Span) (ns : List Node) (c : Cursor) :
    Gives (checkLocal allowLocal span ns) c fun _ => Compatible allowLocal ns :=
  .ite (fun _ => .fail) fun hallow =>
    .ite (fun _ => .fail) fun hmixed => .pure ⟨hallow, hmixed⟩

theorem checkLocal_accepts {allowLocal : Bool} {ns : List Node} (h : Compatible allowLocal ns) (span : Span)
    (F : List Char → Prop) : Accepts (checkLocal allowLocal span ns) [] F fun _ => True := by
  rw [checkLocal, if_neg h.1, if_neg h.2]
  exact Reader.Accepts.pure trivial

theorem isLocal_congr {n m : Node} (h : m.form = n.form) : isLocal m = isLocal n := by
  rw [isLocal, isLocal, h]

theorem vector2_returns (integral : Bool) (c : Cursor) : Gives (vector2 integral) c fun n =>
    n.Exact → Returns (vector2 integral) isCoordinateStart (EndsAt isRangeEnd) n := by
  refine (spanned_gives (Q := fun v => (v.1.Exact → RestoresCoordinate integral v.1) ∧
    (v.2.Exact → RestoresCoordinate integral v.2)) ?_).bind ?_
  · refine (coordinate_restores integral c).bind fun x d _ hx => ?_
    exact (nextCoordinate_gives integral d).bind fun y _ _ hy => .pure ⟨hx, hy⟩
  · rintro ⟨⟨x, y⟩, span⟩ d - ⟨hx, hy⟩
    refine (checkLocal_gives false span [x, y] d).bind fun _ _ _ hlocal => .pure fun hexact => ?_
    replace hx := hx (hexact.child (by simp [children, Form.children]))
    replace hy := hy (hexact.child (by simp [children, Form.children]))
    have htext : (⟨.vector2 x y, span⟩ : Node).text.toList = x.text.toList ++ (" ".toList ++ y.text.toList) := by
      rw [text_eq]
      simp [assemble, children, Form.children]
    refine .of_text htext (hx.starts.append _) ?_
    intro e tail he htail
    refine (spanned_accepts (Q := fun v => v.1.form = x.form ∧ v.2.form = y.form) (hx.accepts.bind
      (fun v hv => ?_) fun _ _ => EndsAt.cons rfl) e tail he htail).bind ?_
    · refine fun e tail he htail => (nextCoordinate_accepts hy e tail he htail).bind fun w t hw ht => ?_
      exact .pure ht ⟨hv, hw⟩
    · rintro ⟨⟨v, w⟩, span⟩ f ⟨hv, hw⟩ hf
      have hcompatible : Compatible false [v, w] := by
        simpa only [Compatible, any_cons, all_cons, isLocal_congr hv, isLocal_congr hw] using hlocal
      refine (checkLocal_accepts hcompatible span (fun _ => True) f tail hf trivial).bind fun _ t _ ht => ?_
      refine .pure ht (same_iff.2 ⟨rfl, ?_⟩)
      exact .cons (hx.same_of_form hv) (.cons (hy.same_of_form hw) .nil)

theorem vector3_returns (integral : Bool) (c : Cursor) : Gives (vector3 integral) c fun n =>
    n.Exact → Returns (vector3 integral) isCoordinateStart (EndsAt isRangeEnd) n := by
  refine (spanned_gives (Q := fun v => (v.1.Exact → RestoresCoordinate integral v.1) ∧
    (v.2.1.Exact → RestoresCoordinate integral v.2.1) ∧ (v.2.2.Exact → RestoresCoordinate integral v.2.2)) ?_).bind ?_
  · refine (coordinate_restores integral c).bind fun x d _ hx => ?_
    refine (nextCoordinate_gives integral d).bind fun y e _ hy => ?_
    exact (nextCoordinate_gives integral e).bind fun z _ _ hz => .pure ⟨hx, hy, hz⟩
  · rintro ⟨⟨x, y, z⟩, span⟩ d - ⟨hx, hy, hz⟩
    refine (checkLocal_gives true span [x, y, z] d).bind fun _ _ _ hlocal => .pure fun hexact => ?_
    replace hx := hx (hexact.child (by simp [children, Form.children]))
    replace hy := hy (hexact.child (by simp [children, Form.children]))
    replace hz := hz (hexact.child (by simp [children, Form.children]))
    have htext : (⟨.vector3 x y z, span⟩ : Node).text.toList =
        x.text.toList ++ ((" ".toList ++ y.text.toList) ++ (" ".toList ++ z.text.toList)) := by
      rw [text_eq]
      simp [assemble, children, Form.children]
    refine .of_text htext (hx.starts.append _) ?_
    intro e tail he htail
    refine (spanned_accepts (Q := fun v => v.1.form = x.form ∧ v.2.1.form = y.form ∧ v.2.2.form = z.form)
      (hx.accepts.bind (fun v hv => ?_) fun _ _ => EndsAt.cons rfl) e tail he htail).bind ?_
    · refine (nextCoordinate_accepts hy).bind (fun w hw => ?_) fun _ _ => EndsAt.cons rfl
      refine fun e tail he htail => (nextCoordinate_accepts hz e tail he htail).bind fun u t hu ht => ?_
      exact .pure ht ⟨hv, hw, hu⟩
    · rintro ⟨⟨v, w, u⟩, span⟩ f ⟨hv, hw, hu⟩ hf
      have hcompatible : Compatible true [v, w, u] := by
        simpa only [Compatible, any_cons, all_cons, isLocal_congr hv, isLocal_congr hw, isLocal_congr hu] using hlocal
      refine (checkLocal_accepts hcompatible span (fun _ => True) f tail hf trivial).bind fun _ t _ ht => ?_
      refine .pure ht (same_iff.2 ⟨rfl, ?_⟩)
      exact .cons (hx.same_of_form hv) (.cons (hy.same_of_form hw) (.cons (hz.same_of_form hu) .nil))

theorem angle_restores (c : Cursor) : Gives angle c fun n =>
    n.Exact → Restores angle isCoordinateStart (EndsAt isRangeEnd) n := by
  refine (coordinate_restores false c).bind fun n d _ hn => ?_
  refine .ite (fun _ => .fail) fun hlocal => .pure fun hexact => ?_
  exact (hn hexact).checked fun m hm => if_neg (by rwa [isLocal_congr hm])

/-! ### Times and bounded numbers -/

theorem integerValue?_nonneg {text : String} (h : integerValue? text = some i)
    (hminus : text.toList.head? ≠ some '-') : 0 ≤ i := by
  rw [integerValue?] at h
  split at h
  rename_i negative ds hmatch
  have hnegative : negative = false := by
    split at hmatch
    · rename_i hcons
      rw [hcons] at hminus
      exact absurd rfl hminus
    · cases hmatch
      rfl
    · cases hmatch
      rfl
  subst hnegative
  split at h
  · cases h
    exact Int.natCast_nonneg _
  · cases h

def IsUnit (unit : Option Char) : Prop := ∀ u ∈ unit, u = 'd' ∨ u = 's' ∨ u = 't'

theorem timeUnit?_isUnit (cs : List Char) : IsUnit (timeUnit? cs) := by
  cases cs with
  | nil => exact fun u hu => by cases hu
  | cons ch cs =>
    intro u hu
    rw [timeUnit?] at hu
    split at hu
    · cases hu
      assumption
    · cases hu

theorem timeToken_gives (c : Cursor) : Gives timeToken c fun x => x.1.toList.head? ≠ some '-' ∧ IsUnit x.2 := by
  intro x hx
  rw [timeToken] at hx
  split at hx
  · cases hx
  · rename_i hc
    cases hx
    rw [not_or] at hc
    refine ⟨?_, fun u hu => ?_⟩
    · rw [toList_ofList, head?_take, if_neg hc.2]
      intro hhead
      obtain ⟨cs, hcs⟩ := head?_eq_some_iff.1 hhead
      refine hc.2 ?_
      rw [hcs]
      exact unsigned_eq_fraction (EndsAt.cons (by decide))
    · exact timeUnit?_isUnit _ u hu

theorem time_gives (c : Cursor) : Gives time c fun n =>
    ∃ v unit, n.form = .time v unit ∧ IsUnit unit ∧ ∀ i, v = .int i → fits 64 i = true ∧ 0 ≤ i := by
  refine (spanned_gives (timeToken_gives c)).bind ?_
  rintro ⟨⟨text, unit⟩, span⟩ d - ⟨hminus, hunit⟩
  refine (numberAt_gives text span false d).bind fun v _ _ hv => .pure ?_
  exact ⟨v, unit, rfl, hunit, fun i hi => ⟨(hv i hi).2, integerValue?_nonneg (hv i hi).1 hminus⟩⟩

def isTimeEnd (ch : Char) : Bool := isNumberEnd ch && ch != 'd' && ch != 's' && ch != 't'

theorem timeUnit?_append {tail : List Char} (hunit : IsUnit unit) (htail : EndsAt isTimeEnd tail) :
    timeUnit? (unit.toList ++ tail) = unit ∧ EndsAt isNumberEnd (unit.toList ++ tail) := by
  cases unit with
  | none =>
    cases tail with
    | nil => exact ⟨rfl, EndsAt.nil⟩
    | cons ch tail =>
      have hch := htail.of_cons
      simp only [isTimeEnd, Bool.and_eq_true, bne_iff_ne] at hch
      refine ⟨if_neg ?_, EndsAt.cons hch.1.1.1⟩
      exact not_or.2 ⟨hch.1.1.2, not_or.2 ⟨hch.1.2, hch.2⟩⟩
  | some u =>
    refine ⟨if_pos (hunit u rfl), ?_⟩
    rcases hunit u rfl with rfl | rfl | rfl <;> exact EndsAt.cons (by decide)

theorem timeToken_accepts {n : Nat} (hunit : IsUnit unit) :
    Accepts timeToken (Nat.toDigits 10 n ++ unit.toList) (EndsAt isTimeEnd) fun x =>
      x = (String.ofList (Nat.toDigits 10 n), unit) := by
  intro c tail hc htail
  rw [List.append_assoc] at hc
  obtain ⟨hunit, hend⟩ := timeUnit?_append hunit htail
  have hdecimal : decimal c.rest = (Nat.toDigits 10 n).length := by
    rw [hc]
    exact decimal_append Nat.toDigits_ne_nil (fun ch h => isDigit_of_isDecimalDigit (isDecimalDigit_of_mem h)) hend
  have hcond : ¬(c.rest = [] ∨ decimal c.rest = 0) := by
    rw [hdecimal, hc, List.length_eq_zero_iff]
    exact not_or.2 ⟨append_ne_nil_of_left_ne_nil Nat.toDigits_ne_nil _, Nat.toDigits_ne_nil⟩
  have hfound : timeUnit? (c.rest.drop (decimal c.rest)) = unit := by rw [hdecimal, hc, drop_left, hunit]
  refine ⟨_, if_neg hcond, ?_, ?_⟩
  · dsimp only
    rw [hfound, hdecimal, Cursor.rest_drop, hc, ← List.append_assoc, ← List.length_append, drop_left]
  · dsimp only
    rw [hfound, hdecimal, hc, take_left]

theorem time_restores (c : Cursor) : Gives time c fun n => n.Exact → Restores time isStart (EndsAt isTimeEnd) n := by
  refine (time_gives c).mono ?_
  rintro ⟨form, span⟩ ⟨v, unit, rfl, hunit, hvalue⟩ hexact
  obtain ⟨i, rfl⟩ := exists_int hexact.self
  obtain ⟨hfits, hnonneg⟩ := hvalue i rfl
  obtain ⟨n, rfl⟩ := Int.eq_ofNat_of_zero_le hnonneg
  have hdigits : toString (n : Int) = ofList (Nat.toDigits 10 n) := Nat.repr_eq_ofList_toDigits
  have htext : (⟨.time (.int n) unit, span⟩ : Node).text.toList = Nat.toDigits 10 n ++ unit.toList := by
    rw [text_eq]
    change (toString (n : Int) ++ (unit.map singleton).getD "").toList = _
    rw [hdigits]
    cases unit <;> simp
  refine ⟨?_, ?_, rfl, by simp [Form.sameData]⟩
  · rw [htext]
    refine (StartsAt.of_all Nat.toDigits_ne_nil fun ch hch => ?_).append _
    rw [isStart, isDecimalDigit_of_mem hch, Bool.true_or]
  · rw [htext]
    intro d tail hd htail
    refine (spanned_accepts (timeToken_accepts hunit) d tail hd htail).bind ?_
    rintro ⟨_, span⟩ e rfl he
    refine (numberAt_accepts (F := fun _ => True) hfits hdigits.symm span false e tail he trivial).bind ?_
    rintro _ f rfl hf
    exact .pure hf rfl

theorem checkBounds_gives (p : Properties) (v : Number) (span : Span) (c : Cursor) :
    Gives (checkBounds p v span) c fun _ => ∀ span, checkBounds p v span = pure () := by
  intro x hx span
  unfold checkBounds at hx ⊢
  dsimp only at hx ⊢
  split
  · rename_i hlow
    rw [hlow] at hx
    cases hx
  · rename_i hlow hhigh
    rw [hlow, hhigh] at hx
    cases hx
  · rfl

theorem bounded_restores (p : Properties) (integral limited : Bool) (c : Cursor) :
    Gives (bounded p integral limited) c fun n =>
      n.Exact → Restores (bounded p integral limited) isStart (EndsAt isNumberEnd) n := by
  refine ((number_restores integral c).and (number_gives integral c)).bind ?_
  rintro ⟨form, span⟩ d - ⟨hrestores, v, rfl, -⟩
  refine .ite (fun _ => .fail) fun hlimited => ?_
  refine (checkBounds_gives p v span d).bind fun _ _ _ hbounds => .pure fun hexact => ?_
  refine (hrestores hexact).checked ?_
  rintro ⟨_, span⟩ rfl
  dsimp only
  rw [if_neg hlimited, hbounds]
  rfl

end Mcfunction.Parse
