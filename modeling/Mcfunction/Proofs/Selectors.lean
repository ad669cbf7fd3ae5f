import Mcfunction.Proofs.Blocks
import Mcfunction.Proofs.Quantities

/-! Selectors are read back from their texts. An argument is a key and a value; which reader takes the value
depends on the key alone, so each reader is asked for its own values, and the choice between them comes last. -/

namespace Mcfunction.Selector

open Cursor Token Reader Node Printer Text Snbt

open Parse
open Reader (Gives)

variable {F : List Char → Prop} {p : Char → Bool} {ch : Char}

/-! ### Scores and advancements -/

theorem equalsSign_accepts : Accepts equalsSign "=".toList (EndsAt fun ch => !isSpace ch) fun _ => True := by
  refine skipSpaces_accepts.bind_nil (fun _ _ => ?_) fun _ _ => EndsAt.cons rfl
  intro c tail hc htail
  exact (expect_accepts "=" c tail hc trivial).bind fun _ d _ hd => skipSpaces_accepts d tail hd htail

theorem boolean_accepts (b : Bool) : Accepts boolean (toString b).toList F fun found => found = b := by
  cases b with
  | true =>
    intro c tail hc _
    refine (consume_accepts "true" c tail hc trivial).bind fun found d hfound hd => ?_
    rw [if_pos hfound]
    exact .pure hd rfl
  | false =>
    refine (consume_refuses "true" rfl).bind_nil (fun found hfound => ?_) fun _ _ => EndsAt.cons rfl
    rw [hfound]
    intro c tail hc _
    refine (consume_accepts "false" c tail hc trivial).bind fun found d hfound hd => ?_
    rw [if_pos hfound]
    exact .pure hd rfl

abbrev EntryReturns (r : Parse Node) (p : Char → Bool) (n : Node) : Prop := Returns r p (StartsAt (isSeparator '}')) n

theorem scoreMatch_returns (c : Cursor) : Gives scoreMatch c fun n =>
    n.Exact → EntryReturns scoreMatch isWordChar n := by
  refine node_gives ((many_gives _ _ c).bind ?_)
  rintro ⟨key, _⟩ d - ⟨hkey, hall⟩
  refine (Reader.Gives.trivial _ d).bind fun _ e _ _ => ?_
  refine (range_restores true e).bind fun value _ _ hvalue => Reader.Gives.pure fun span hexact => ?_
  replace hvalue := hvalue (hexact.child (by simp [children, Form.children]))
  have htext : (⟨.selectorScoreMatch key value, span⟩ : Node).text.toList =
      key.toList ++ ("=".toList ++ value.text.toList) := by
    rw [text_eq]
    simp [assemble, children, Form.children]
  refine .of_text htext ((StartsAt.of_all hkey hall).append _) ?_
  refine (node_accepts (Q := fun form => ∃ m, form = .selectorScoreMatch key m ∧ value.same m = true) ?_).mono ?_
  · refine (many_accepts _ hkey hall).bind (fun x hx => ?_) fun _ _ => EndsAt.cons rfl
    refine equalsSign_accepts.bind (fun _ _ => ?_) fun tail _ =>
      (hvalue.starts.mono fun ch hch => not_isSpace hch rfl rfl).endsAt tail
    refine Reader.Accepts.bind_pure (hvalue.returns.accepts.before fun _ h => endsAt_of_separator h rfl rfl)
      fun m hm => ⟨m, ?_, hm⟩
    rw [hx, String.ofList_toList]
  · rintro ⟨_, span⟩ ⟨m, rfl, hm⟩
    exact same_iff.2 ⟨by simp [Form.sameData], .cons hm .nil⟩

theorem criterionMatch_restores (c : Cursor) : Gives criterionMatch c fun n =>
    Restores criterionMatch isWordChar (StartsAt (isSeparator '}')) n := by
  refine node_gives ((many_gives _ _ c).bind ?_)
  rintro ⟨key, _⟩ d - ⟨hkey, hall⟩
  refine (Gives.trivial _ d).bind fun _ e _ _ => ?_
  refine (Gives.trivial _ e).bind fun value _ _ _ => Gives.pure fun span => ?_
  have htext : (⟨.selectorCriteriaMatch key value, span⟩ : Node).text.toList =
      key.toList ++ ("=".toList ++ (toString value).toList) := by
    rw [text_eq]
    simp [assemble]
  refine .of_text htext ((StartsAt.of_all hkey hall).append _) ?_ rfl (by simp [Form.sameData])
  refine node_accepts (Q := fun form => form = .selectorCriteriaMatch key value) ?_
  refine (many_accepts _ hkey hall).bind (fun x hx => ?_) fun _ _ => EndsAt.cons rfl
  refine equalsSign_accepts.bind (fun _ _ => ?_) fun tail _ => ?_
  · refine (boolean_accepts value).bind_pure fun b hb => ?_
    rw [hx, hb, String.ofList_toList]
  · cases value <;> exact EndsAt.cons rfl

/-- A form that holds entries between braces, and nothing else. -/
structure IsBraced (make : List Node → Form Node) : Prop where
  children : ∀ ns, (make ns).children = ns
  text : ∀ ns texts, assemble (make ns) texts = bracketed "\x7b" "\x7d" texts
  same : ∀ ns ms, ns.length = ms.length → (make ns).sameData (make ms) = true

theorem braced_returns {entry : Parse Node} (make : List Node → Form Node) (hmake : IsBraced make)
    (hblank : p ' ' = false) (htab : p '\t' = false) (hend : p '}' = false)
    (hentry : ∀ c, Gives entry c fun n => n.Exact → EntryReturns entry p n) (c : Cursor) :
    Gives (node do return make (← braced entry)) c fun n => n.Exact →
      Returns (node do return make (← braced entry)) (fun ch => ch = '{') (fun _ => True) n := by
  refine node_gives (Gives.bind (Q := fun ns => ∀ n ∈ ns, n.Exact → EntryReturns entry p n) ?_ ?_)
  · exact (Gives.trivial _ c).bind fun _ d _ _ => list_gives fun e _ => hentry e
  · intro ns _ _ hns
    refine .pure fun span hexact => ?_
    have hchildren : (⟨make ns, span⟩ : Node).children = ns := hmake.children ns
    replace hns : ∀ n ∈ ns, EntryReturns entry p n := fun n hn => hns n hn (hexact.child (hchildren.symm ▸ hn))
    have htext : (⟨make ns, span⟩ : Node).text.toList =
        "\x7b".toList ++ ([','].intercalate (ns.map fun n => n.text.toList) ++ "\x7d".toList) := by
      rw [text_eq, hchildren, hmake.text]
      exact toList_bracketed _ _ _
    refine .of_text htext (StartsAt.cons rfl) ?_
    refine (node_accepts (Q := fun form => ∃ ms, form = make ms ∧ AllSame ns ms) ?_).mono ?_
    · refine Accepts.bind_pure ?_ fun ms hms => ⟨ms, rfl, hms⟩
      refine (expect_accepts "\x7b").bind (fun _ _ => ?_) fun _ _ => trivial
      exact list_returns rfl (by decide) hblank htab hend hns
    · rintro ⟨_, span⟩ ⟨ms, rfl, hms⟩
      refine same_iff.2 ⟨hmake.same ns ms hms.length_eq, ?_⟩
      have hread : (⟨make ms, span⟩ : Node).children = ms := hmake.children ms
      rwa [hchildren, hread]

theorem scores_returns (c : Cursor) : Gives scores c fun n =>
    n.Exact → Returns scores (fun ch => ch = '{') (fun _ => True) n := by
  exact braced_returns .selectorScores ⟨fun _ => rfl, fun _ _ => rfl, fun _ _ h => decide_eq_true h⟩ rfl rfl rfl scoreMatch_returns c

theorem criteria_returns (c : Cursor) : Gives criteria c fun n =>
    n.Exact → Returns criteria (fun ch => ch = '{') (fun _ => True) n := by
  exact braced_returns .selectorCriteria ⟨fun _ => rfl, fun _ _ => rfl, fun _ _ h => decide_eq_true h⟩ rfl rfl rfl
    (fun d => (criterionMatch_restores d).mono fun n hn _ => hn.returns) c

def isAdvancementStart (ch : Char) : Bool := ch ∈ ['{', 't', 'f']

theorem advancementValue_returns (c : Cursor) : Gives advancementValue c fun n =>
    n.Exact → Returns advancementValue isAdvancementStart (fun _ => True) n := by
  refine Gives.look_bind (Gives.ite (fun _ => ?_) fun _ => ?_)
  · refine (criteria_returns c).mono fun n hn hexact => ?_
    obtain ⟨hstarts, haccepts⟩ := hn hexact
    obtain ⟨ch, cs, htext, hch⟩ := hstarts
    obtain rfl : ch = '{' := of_decide_eq_true hch
    rw [htext] at haccepts
    refine ⟨htext ▸ StartsAt.cons rfl, ?_⟩
    rw [htext]
    refine Accepts.peek ?_
    exact haccepts
  · refine node_gives ((Gives.trivial _ c).bind fun b _ _ _ => Gives.pure fun span _ => ?_)
    have htext : (⟨.bool b, span⟩ : Node).text = toString b := text_eq _
    have hstarts : ∃ ch cs, (toString b).toList = ch :: cs ∧ ch ≠ '{' ∧ isAdvancementStart ch = true := by
      cases b
      · exact ⟨'f', _, rfl, by decide, rfl⟩
      · exact ⟨'t', _, rfl, by decide, rfl⟩
    obtain ⟨ch, cs, hcons, hne, hch⟩ := hstarts
    refine ⟨?_, ?_⟩
    · rw [htext, hcons]
      exact StartsAt.cons hch
    · have haccepts : Accepts (node do return .bool (← boolean)) (toString b).toList (fun _ => True)
          fun m => (⟨.bool b, span⟩ : Node).same m = true := by
        refine (node_accepts
          ((boolean_accepts b).bind_pure fun found hfound => by rw [hfound])).mono ?_
        rintro ⟨_, span⟩ rfl
        exact same_of_leaf (by simp [Form.sameData]) rfl rfl
      rw [htext]
      rw [hcons] at haccepts ⊢
      refine Accepts.peek ?_
      rw [if_neg fun h => hne (Option.some.inj h)]
      exact haccepts

theorem advancementMatch_returns (c : Cursor) : Gives advancementMatch c fun n =>
    n.Exact → EntryReturns advancementMatch isLocationStart n := by
  rw [advancementMatch_eq]
  refine node_gives ((resourceLocation_restores false c).bind fun key d _ hkey => ?_)
  refine (Reader.Gives.trivial _ d).bind fun _ e _ _ => ?_
  refine (advancementValue_returns e).bind fun value _ _ hvalue => Reader.Gives.pure fun span hexact => ?_
  replace hvalue := hvalue (hexact.child (by simp [children, Form.children]))
  have htext : (⟨.selectorAdvancementMatch key value, span⟩ : Node).text.toList =
      key.text.toList ++ ("=".toList ++ value.text.toList) := by
    rw [text_eq]
    simp [assemble, children, Form.children]
  refine .of_text htext (hkey.starts.append _) ?_
  refine (node_accepts (Q := fun form => ∃ k v, form = .selectorAdvancementMatch k v ∧ key.same k = true ∧
    value.same v = true) ?_).mono ?_
  · refine hkey.returns.accepts.bind (fun k hk => ?_) fun _ _ => behindLocation_of_ne rfl (by decide)
    refine equalsSign_accepts.bind (fun _ _ => ?_) fun tail _ =>
      (hvalue.starts.mono fun ch hch => not_isSpace hch rfl rfl).endsAt tail
    exact Reader.Accepts.bind_pure (hvalue.accepts.before fun _ _ => trivial) fun v hv => ⟨k, v, rfl, hk, hv⟩
  · rintro ⟨_, span⟩ ⟨k, v, rfl, hk, hv⟩
    exact same_iff.2 ⟨rfl, .cons hk (.cons hv .nil)⟩

theorem advancements_returns (c : Cursor) : Gives advancements c fun n =>
    n.Exact → Returns advancements (fun ch => ch = '{') (fun _ => True) n := by
  exact braced_returns .selectorAdvancements ⟨fun _ => rfl, fun _ _ => rfl, fun _ _ h => decide_eq_true h⟩ rfl rfl rfl
    advancementMatch_returns c

/-! ### The values of arguments -/

/-- What the value of an argument begins with: it is set apart neither by a space nor by a mark. -/
def isValueStart (ch : Char) : Bool := !isSpace ch && ch != '!'

/-- Whatever the readers give, one for each place of the key, is read back by any of them as the value of an
argument. -/
def ReturnsValues (r : Span → Parse (Option Node)) : Prop := ∀ span c, Gives (r span) c fun o => (∀ n ∈ o, n.Exact) →
  (∀ n ∈ o, StartsAt isValueStart n.text.toList) ∧
    ∀ other, Accepts (r other) (optionText o) (StartsAt (isSeparator ']')) fun found => AllSame o.toList found.toList

theorem ReturnsValues.ite {p : Prop} [Decidable p] {r s : Span → Parse (Option Node)} (hr : ReturnsValues r)
    (hs : ReturnsValues s) : ReturnsValues fun span => if p then r span else s span := by
  split
  · exact hr
  · exact hs

theorem isValueStart_of (h : p ch = true) (hblank : p ' ' = false) (htab : p '\t' = false)
    (hmark : p '!' = false) : isValueStart ch = true := by
  refine Bool.and_eq_true_iff.2 ⟨not_isSpace h hblank htab, bne_iff_ne.2 ?_⟩
  rintro rfl
  rw [h] at hmark
  cases hmark

theorem returnsValues_some {r : Parse Node} (hblank : p ' ' = false) (htab : p '\t' = false)
    (hmark : p '!' = false) (hF : ∀ tail, StartsAt (isSeparator ']') tail → F tail)
    (hr : ∀ c, Gives r c fun n => n.Exact → Returns r p F n) : ReturnsValues fun _ => some <$> r := by
  refine fun _ c => Gives.map ((hr c).mono fun n hn hexact => ?_)
  replace hn := hn (hexact n rfl)
  refine ⟨?_, ?_⟩
  · rintro _ ⟨⟩
    exact hn.starts.mono fun ch hch => isValueStart_of hch hblank htab hmark
  · rw [optionText_some]
    exact fun _ => Accepts.map ((hn.accepts.before hF).mono fun m hm => .cons hm .nil)

theorem limit_restores (c : Cursor) : Gives limit c fun n =>
    n.Exact → Restores limit Numeral.isStart (EndsAt isNumberEnd) n := by
  refine ((number_restores true c).and (number_gives true c)).bind ?_
  rintro ⟨form, span⟩ d - ⟨hrestores, v, rfl, -⟩
  cases v with
  | float x => exact .pure fun hexact => by cases hexact.self
  | int i =>
    refine .ite (fun _ => .fail) fun hlimit => .pure fun hexact => ?_
    refine (hrestores hexact).checked ?_
    rintro ⟨_, span⟩ rfl
    exact if_neg hlimit

theorem sortOrder_restores (c : Cursor) : Gives sortOrder c fun n =>
    Restores sortOrder isWordChar (EndsAt isWordEnd) n := by
  refine (wordNode_restores (many_stable isWordChar) _ c).bind fun n d _ hn => ?_
  split
  · rename_i hform
    refine .ite (fun horder => .pure ?_) fun _ => .fail
    refine hn.checked fun m hm => ?_
    rw [hm, hform]
    exact if_pos horder
  · exact .fail

theorem name_restores (c : Cursor) : Gives name c fun n => Restores name isKeyStart (EndsAt isWordEnd) n := by
  refine (Gives.trivial _ c).bind fun quote d _ _ => Gives.ite (fun _ => ?_) fun _ => ?_
  · refine (quoted_gives d).bind ?_
    rintro ⟨text, span⟩ e - hline
    refine Gives.pure ?_
    have htext : (⟨.string text, span⟩ : Node).text = quoted text := text_eq _
    refine .of_text (congrArg _ htext) ?_ ?_ rfl (by simp [Form.sameData])
    · exact (quoted_starts text).mono fun ch hch => by rw [isKeyStart, hch, Bool.true_or]
    · refine Accepts.atQuote true ((quoted_starts text).mono fun ch hch => decide_eq_true hch) ?_
      exact (quoted_accepts hline).bind_pure fun x hx => by rw [hx]
  · refine (wordNode_restores (many_stable isWordChar) _ d).mono fun n hn => ?_
    refine ⟨hn.starts.mono fun ch hch => by rw [isKeyStart, hch, Bool.or_true], ?_, hn.isLeaf, hn.same⟩
    refine Accepts.atQuote false (hn.starts.mono fun ch hch => ?_) ?_
    · simpa using not_isQuote hch rfl rfl
    · exact hn.accepts

theorem optionalWord_returns (what : String) : ReturnsValues fun _ => optionalWord what := by
  intro _ c
  refine .look_bind (.ite (fun _ => .pure fun _ => ⟨by simp, ?_⟩) fun _ => ?_)
  · intro _ d tail hd htail
    refine .look_bind ?_
    obtain ⟨ch, cs, rfl, hch⟩ := htail
    rw [peek_eq hd, if_pos]
    · exact .pure hd .nil
    · simp only [isSeparator] at hch
      simpa [or_assoc] using Or.inl hch
  · refine (wordNode_restores (many_stable isWordChar) _ c).bind fun n _ _ hn => .pure fun _ => ?_
    refine ⟨?_, fun _ => ?_⟩
    · rintro _ ⟨⟩
      exact hn.starts.mono fun ch hch => isValueStart_of hch rfl rfl rfl
    · obtain ⟨ch, cs, htext, hch⟩ := hn.starts
      have haccepts := hn.returns.accepts
      rw [optionText_some]
      rw [htext] at haccepts ⊢
      refine Accepts.peek ?_
      rw [if_neg]
      · exact Accepts.bind_pure (haccepts.before fun _ h => endsAt_of_separator h rfl rfl) fun m hm => .cons hm .nil
      · rintro (h | h | h) <;> cases h <;> cases hch

/-- Each key has its own reader of values, and where the key stands makes no difference to it. -/
theorem argumentValue_returns (key : String) : ReturnsValues (argumentValue key) := by
  have hword : ∀ tail, StartsAt (isSeparator ']') tail → EndsAt isWordEnd tail :=
    fun _ h => endsAt_of_separator h rfl rfl
  have hrange : ∀ tail, StartsAt (isSeparator ']') tail → EndsAt isRangeEnd tail :=
    fun _ h => endsAt_of_separator h rfl rfl
  have hnumber : ∀ tail, StartsAt (isSeparator ']') tail → EndsAt isNumberEnd tail :=
    fun _ h => endsAt_of_separator h rfl rfl
  have hlocation : ∀ tail, StartsAt (isSeparator ']') tail → BehindLocation tail := by
    rintro _ ⟨ch, cs, rfl, hch⟩
    simp only [isSeparator, Bool.or_eq_true, decide_eq_true_eq] at hch
    rcases hch with rfl | rfl <;> exact behindLocation_of_ne rfl (by decide)
  refine .ite (returnsValues_some rfl rfl rfl hnumber fun c =>
    (number_restores false c).mono fun _ h hexact => (h hexact).returns) ?_
  refine .ite (returnsValues_some rfl rfl rfl hrange fun c =>
    (range_restores false c).mono fun _ h hexact => (h hexact).returns) ?_
  refine .ite (returnsValues_some rfl rfl rfl hrange fun c =>
    (range_restores true c).mono fun _ h hexact => (h hexact).returns) ?_
  refine .ite (returnsValues_some rfl rfl rfl hnumber fun c =>
    (limit_restores c).mono fun _ h hexact => (h hexact).returns) ?_
  refine .ite (returnsValues_some rfl rfl rfl hword fun c => (sortOrder_restores c).mono fun _ h _ => h.returns) ?_
  refine .ite (returnsValues_some rfl rfl rfl hword fun c =>
    (wordNode_restores (many_stable _) _ c).mono fun _ h _ => h.returns) ?_
  refine .ite (returnsValues_some rfl rfl rfl hword fun c => (name_restores c).mono fun _ h _ => h.returns) ?_
  refine .ite (optionalWord_returns key) ?_
  refine .ite (returnsValues_some rfl rfl rfl hlocation fun c =>
    (resourceLocation_restores true c).mono fun _ h _ => h.returns) ?_
  refine .ite (returnsValues_some rfl rfl rfl hlocation fun c =>
    (resourceLocation_restores false c).mono fun _ h _ => h.returns) ?_
  refine .ite (returnsValues_some rfl rfl rfl (fun _ _ => trivial) compound_returns) ?_
  refine .ite (returnsValues_some rfl rfl rfl (fun _ _ => trivial) scores_returns) ?_
  refine .ite (returnsValues_some rfl rfl rfl (fun _ _ => trivial) advancements_returns) ?_
  exact fun _ _ => .fail

/-! ### Selectors -/

theorem endsAt_value {o : Option Node} (ho : ∀ n ∈ o, StartsAt isValueStart n.text.toList) {tail : List Char}
    (htail : StartsAt (isSeparator ']') tail) : EndsAt isValueStart (optionText o ++ tail) := by
  cases o with
  | none => exact endsAt_of_separator htail rfl rfl
  | some n =>
    rw [optionText_some]
    exact (ho n rfl).endsAt tail

def markText (inverted : Bool) : List Char := if inverted then "!".toList else []

theorem mark_accepts (inverted : Bool) :
    Accepts (consume "!") (markText inverted) (EndsAt isValueStart) fun found => found = inverted := by
  cases inverted with
  | true => exact (consume_accepts "!").before fun _ _ => trivial
  | false =>
    exact (consume_refuses "!" rfl).before fun _ h => h.mono fun ch hch => (Bool.and_eq_true_iff.1 hch).2

theorem argument_returns (c : Cursor) : Gives argument c fun n =>
    n.Exact → Returns argument Token.isWordChar (StartsAt (isSeparator ']')) n := by
  refine node_gives ((many_gives _ _ c).bind ?_)
  rintro ⟨key, place⟩ d - ⟨hkey, hall⟩
  refine (Reader.Gives.trivial _ d).bind fun _ e _ _ => (Reader.Gives.trivial _ e).bind fun inverted f _ _ => ?_
  refine Reader.Gives.ite (fun _ => Reader.Gives.fail) fun hmark => ?_
  refine (Reader.Gives.trivial _ f).bind fun _ g _ _ => ?_
  refine (argumentValue_returns key place g).bind fun value _ _ hvalue => Reader.Gives.pure fun span hexact => ?_
  obtain ⟨hstarts, haccepts⟩ := hvalue fun n hn =>
    hexact.child (by simpa [children, Form.children] using Option.mem_toList.2 hn)
  have htext : (⟨.selectorArgument inverted key value, span⟩ : Node).text.toList =
      key.toList ++ ("=".toList ++ (markText inverted ++ optionText value)) := by
    rw [text_eq]
    cases inverted <;> simp [assemble, children, Form.children, markText, ← toList_join]
  refine .of_text htext ((StartsAt.of_all hkey hall).append _) ?_
  refine (node_accepts (Q := fun form => ∃ found, form = .selectorArgument inverted key found ∧
    AllSame value.toList found.toList) ?_).mono ?_
  · refine (many_accepts _ hkey hall).bind (fun x hx => ?_) fun _ _ => EndsAt.cons rfl
    obtain ⟨text, place⟩ := x
    obtain rfl : text = key := hx.trans String.ofList_toList
    refine equalsSign_accepts.bind (fun _ _ => ?_) fun tail htail => ?_
    · refine (mark_accepts inverted).bind (fun found hfound => ?_) fun tail htail => endsAt_value hstarts htail
      rw [hfound, if_neg hmark]
      refine skipSpaces_accepts.bind_nil (fun _ _ => ?_) fun tail htail =>
        (endsAt_value hstarts htail).mono fun ch hch => (Bool.and_eq_true_iff.1 hch).1
      exact Reader.Accepts.bind_pure (haccepts place) fun found hfound => ⟨found, rfl, hfound⟩
    · cases inverted with
      | true => exact EndsAt.cons rfl
      | false => exact (endsAt_value hstarts htail).mono fun ch hch => (Bool.and_eq_true_iff.1 hch).1
  · rintro ⟨_, span⟩ ⟨found, rfl, hfound⟩
    exact same_iff.2 ⟨by simp [Form.sameData, hfound.isSome_eq], hfound⟩

theorem target_gives (c : Cursor) : Gives target c fun v => ∃ ch, v = String.singleton ch ∧ isTarget ch = true := by
  intro x hx
  unfold target at hx
  split at hx
  · split at hx
    · cases hx
      exact ⟨_, rfl, ‹_›⟩
    · cases hx
  · cases hx

theorem target_accepts (hch : isTarget ch = true) :
    Accepts target ['@', ch] (fun _ => True) fun v => v = String.singleton ch := by
  intro c tail hc _
  refine ⟨⟨String.singleton ch, c.drop 2, c.reaches_drop 2⟩, ?_, ?_, rfl⟩
  · unfold target
    split
    · rename_i v rest hrest
      obtain ⟨-, rfl, -⟩ : '@' = '@' ∧ ch = v ∧ tail = rest := by simpa using hc.symm.trans hrest
      rw [if_pos hch]
    · rename_i hrest
      exact absurd hc (hrest ch tail)
  · rw [rest_drop, hc]
    rfl

/-- A selector is a letter with arguments, and it is read back, unless a bracket follows one without arguments. -/
structure SelectorReturns (n : Node) : Prop where
  form : ∃ ch arguments, isTarget ch = true ∧ n.form = .selector (String.singleton ch) arguments ∧
    n.text.toList = ['@', ch] ++ bracketText arguments
  accepts : Accepts selector n.text.toList (fun tail => n.children = [] → EndsAt (fun ch => ch != '[') tail)
    fun m => n.same m = true

theorem selector_returns (c : Cursor) : Gives selector c fun n => n.Exact → SelectorReturns n := by
  rw [selector_eq]
  refine node_gives ((target_gives c).bind ?_)
  rintro _ d - ⟨ch, rfl, hch⟩
  refine (bracketed_gives argument_returns d).bind fun arguments _ _ hargs => .pure fun span hexact => ?_
  have hitems : ∀ n ∈ arguments, Returns argument isWordChar (StartsAt (isSeparator ']')) n :=
    fun n hn => hargs n hn (hexact.child hn)
  have htext : (⟨.selector (String.singleton ch) arguments, span⟩ : Node).text.toList =
      ['@', ch] ++ bracketText arguments := by
    rw [text_eq]
    simp only [assemble, children, Form.children, String.toList_append, toList_bracketText,
      String.toList_singleton]
    rfl
  refine ⟨⟨ch, arguments, hch, rfl, htext⟩, ?_⟩
  rw [htext, selector_eq]
  refine (node_accepts (Q := fun form => ∃ found, form = .selector (String.singleton ch) found ∧
    AllSame arguments found) ?_).mono ?_
  · refine (target_accepts hch).bind (fun v hv => ?_) fun _ _ => trivial
    rw [hv]
    exact Reader.Accepts.bind_pure (bracketed_accepts rfl rfl rfl hitems) fun found hfound => ⟨found, rfl, hfound⟩
  · rintro ⟨_, span⟩ ⟨found, rfl, hfound⟩
    exact same_iff.2 ⟨by simp [Form.sameData, hfound.length_eq], hfound⟩

end Mcfunction.Selector
