import Mcfunction.Proofs.Alike
import Mcfunction.Proofs.Messages
import Mcfunction.Proofs.Way

/-! Which messages survive printing. The brackets of a selector without arguments are not printed, so the text behind
them moves up to the selector and may run into it. A message is read back from what is printed for it exactly if that
happens to none of its selectors: fragments that stand apart are read back, and otherwise those that are read differ
from those that were printed. -/

namespace Mcfunction

open List Cursor Reader String Node Bool

namespace Parse

variable {α : Type} {close : Char}

/-! ### Lists without items -/

theorem items_ne_nil {limit : Nat}
    {item : (c : Cursor) → c.remaining ≤ limit → Except SyntaxError (Step c α)} (read : List α) (c : Cursor)
    (h : c.remaining ≤ limit) (x : Step c (List α)) (hx : items close item read c h = .ok x) : x.value ≠ [] := by
  fun_induction items close item read c h with
  | case1 | case2 | case5 => cases hx
  | case3 read c h y hy _ _ _ z hz ih =>
    cases hx
    exact ih z hz
  | case4 read c h y hy =>
    cases hx
    simp

/-- Nothing but spaces stands before the closing bracket of a list without items. -/
theorem list_eq_nil {item : Parse α} {c : Cursor} {x : Step c (List α)}
    (hx : list close item c = .ok x) (hnil : x.value = []) :
    ∃ blanks, (∀ ch ∈ blanks, isSpace ch = true) ∧ c.rest = blanks ++ close :: x.next.rest := by
  rw [list, listWithin] at hx
  split at hx
  · rename_i hpeek
    cases hx
    refine ⟨c.rest.takeWhile isSpace, fun ch hch => mem_takeWhile_imp hch, ?_⟩
    obtain ⟨more, hmore⟩ := head?_eq_some_iff.1 hpeek
    have hrest : c.rest = c.rest.takeWhile isSpace ++ c.skipSpaces.rest := by
      rw [Cursor.skipSpaces, Cursor.rest_drop, Cursor.indentation, Cursor.drop_length_takeWhile]
      exact takeWhile_append_dropWhile.symm
    rw [rest_drop, hmore]
    rw [hmore] at hrest
    exact hrest
  · split at hx
    · cases hx
    · rename_i y hy
      cases hx
      exact absurd hnil (items_ne_nil _ _ _ y hy)

end Parse

namespace Selector

open Parse
variable {c d : Cursor} {more text tail part : List Char} {ns ms ls : List Node} {first : Location} {span : Span}
  {v : Char} {n : Node}

open Reader (Gives)

/-! ### What is read for a selector that a text runs into -/

theorem selector_brackets (hv : isTarget v = true)
    (hc : c.rest = '@' :: v :: '[' :: more) {y : Step c Node} (hy : selector c = .ok y) (hnil : y.value.children = []) :
    ∃ blanks, (∀ ch ∈ blanks, isSpace ch = true) ∧ more = blanks ++ ']' :: y.next.rest := by
  rw [selector_eq, node_apply] at hy
  split at hy
  · cases hy
  · rename_i form hform
    cases hy
    obtain ⟨letter, behind, hletter, hbehind, rfl⟩ := bind_ok hform
    obtain ⟨arguments, last, hargs, hlast, rfl⟩ := bind_ok hbehind
    cases hlast
    obtain ⟨opening, inside, hopening, hinside, rfl⟩ := bind_ok hargs
    obtain ⟨x, hx, hletterRest, -⟩ := target_accepts hv c ('[' :: more) hc trivial
    cases hletter.symm.trans hx
    obtain ⟨x, hx, hopeningRest, hfound⟩ := consume_accepts "[" letter.next more hletterRest trivial
    cases hopening.symm.trans hx
    rw [if_pos hfound] at hinside
    obtain ⟨blanks, hblanks, hrest⟩ := list_eq_nil hinside hnil
    exact ⟨blanks, hblanks, hopeningRest ▸ hrest⟩

theorem append_ne_of_boundary {p : Char → Bool} (shift : List Char) (hne : shift ≠ [])
    (hshift : ∀ ch ∈ shift, p ch = false) (htail : EndsAt p tail) (text more : List Char) :
    text ++ tail ≠ shift ++ (text ++ more) := by
  have hfirst : ∀ left, left ≠ [] → (∀ ch ∈ left, ch ∈ shift) → ∀ behind, tail ≠ left ++ behind := by
    rintro left hleft hmem behind rfl
    obtain ⟨ch, left, rfl⟩ := exists_cons_of_ne_nil hleft
    have hch := htail.of_cons
    rw [hshift ch (hmem ch mem_cons_self)] at hch
    cases hch
  induction hn : text.length using Nat.strongRecOn generalizing text with
  | ind n ih =>
    intro heq
    rcases append_eq_append_iff.1 heq with ⟨left, hleft, hbehind⟩ | ⟨text', rfl, hbehind⟩
    · by_cases hnil : left = []
      · rw [hnil, append_nil] at hleft
        rw [hnil, ← hleft] at hbehind
        exact hfirst shift hne (fun _ h => h) more hbehind
      · exact hfirst left hnil (fun ch hch => hleft ▸ mem_append_right text hch) _ hbehind
    · -- The text itself begins with the characters, and goes on behind them as it did before.
      rw [List.append_assoc] at hbehind
      have hpos := length_pos_iff.2 hne
      rw [List.length_append] at hn
      exact ih text'.length (by omega) text' rfl hbehind.symm

/-! ### Messages that are read back -/

theorem AllSame.of_append (h : AllSame (ns ++ ms) (ns ++ ls)) : AllSame ms ls := by
  have hdrop := forall₂_drop ns.length h
  rwa [drop_left, drop_left] at hdrop

/-- A selector that is taken for text goes to the text before it, and makes that longer than it was. -/
theorem not_reads_of_word (hn : SelectorReturns n) (hc : c.rest = '@' :: more)
    (hahead : isAhead c.rest = false) {x : Step c (List Node)} (hx : fragmentsFrom text first c = .ok x) :
    ¬AllSame (pendingText text first c ++ n :: ns) x.value := by
  intro hsame
  have hend := not_atLineEnd hc (by decide) (by decide)
  rw [fragmentsFrom_char hc hend (by simp [hahead])] at hx
  obtain ⟨y, hy, rfl⟩ := map_ok hx
  obtain ⟨part, d, ms, -, hvalue, -⟩ := fragmentsFrom_first _ _ _ y hy
  have hlonger : pendingText (part.reverse ++ '@' :: text) first d =
      [⟨.messageText (ofList (text.reverse ++ '@' :: part)), d.spanFrom first⟩] := by
    rw [pendingText]
    simp
  rw [Step.since_value, hvalue, hlonger, pendingText] at hsame
  split at hsame
  · obtain ⟨v, arguments, -, hform, -⟩ := hn.form
    have hdata := (same_iff.1 (forall₂_cons.1 hsame).1).1
    rw [hform] at hdata
    cases hdata
  · have hdata := (same_iff.1 (forall₂_cons.1 hsame).1).1
    simp only [Form.sameData, ofList_inj] at hdata
    simp at hdata

theorem text_eq_of_allSame (hms : ∀ m ∈ ms.head?, ∃ v arguments, m.form = .selector v arguments)
    (hsame : AllSame (⟨.messageText (ofList text), span⟩ :: ns) (pendingText (part.reverse ++ []) first d ++ ms)) :
    text = part := by
  by_cases hne : part = []
  · rw [hne] at hsame
    obtain ⟨m, ms', hhead, -, hcons⟩ := forall₂_cons_left_iff.1 hsame
    obtain ⟨v, arguments, hform⟩ := hms m (by rw [show ms = m :: ms' from hcons]; rfl)
    have hdata := (same_iff.1 hhead).1
    rw [hform] at hdata
    cases hdata
  · rw [append_nil, pendingText_reverse hne] at hsame
    have hdata := (same_iff.1 (forall₂_cons.1 hsame).1).1
    exact ofList_inj.1 (of_decide_eq_true hdata)

/-- A selector that takes the front of a text for its brackets leaves less of the text than there was. -/
theorem not_reads_of_bracket (hv : isTarget v = true) (hnil : n.children = [])
    (hmore : EndsAt isBoundary more) (hc : c.rest = '@' :: v :: '[' :: (part ++ more)) {x : Step c (List Node)}
    (hx : fragmentsFrom text first c = .ok x) :
    ¬AllSame (pendingText text first c ++ n :: ⟨.messageText (ofList ('[' :: part)), span⟩ :: ns) x.value := by
  intro hsame
  have hahead : isAhead c.rest = true := by
    have hbracket : (Text.isAlphanumeric '[' || '[' = '_') = false := by decide +kernel
    rw [hc, isAhead_target, hv, head?_cons, Option.any_some, hbracket]
    rfl
  rw [fragmentsFrom_ahead hahead] at hx
  cases hy : selector c with
  | error e =>
    rw [hy] at hx
    cases hx
  | ok y =>
    rw [hy] at hx
    obtain ⟨z, hz, rfl⟩ := map_ok hx
    obtain ⟨hselector, htext⟩ := forall₂_cons.1 (AllSame.of_append hsame)
    have hbare : y.value.children = [] := by
      have hchildren := (same_iff.1 hselector).2
      rw [hnil] at hchildren
      exact forall₂_nil_left_iff.1 hchildren
    obtain ⟨blanks, hblanks, hrest⟩ := selector_brackets hv hc hy hbare
    obtain ⟨read, d, ms, hread, hvalue, hms⟩ := fragmentsFrom_first _ _ _ z hz
    rw [hvalue] at htext
    obtain ⟨behind, hbehind⟩ := text_eq_of_allSame hms htext ▸ hread
    -- The whole text stands behind the brackets again, and the brackets hold no boundary.
    refine append_ne_of_boundary ('[' :: (blanks ++ [']'])) (cons_ne_nil _ _) ?_ hmore ('[' :: part) behind ?_
    · have hspace : ∀ ch, isSpace ch = true → isBoundary ch = false := by
        intro ch hch
        simp only [isSpace, or_eq_true, decide_eq_true_eq] at hch
        rcases hch with rfl | rfl <;> decide
      rw [forall_mem_cons, forall_mem_append, forall_mem_singleton]
      exact ⟨by decide, fun ch hch => hspace ch (hblanks ch hch), by decide⟩
    · rw [hbehind, cons_append, hrest]
      simp

theorem Woven.areApart_of_reads (h : Woven ns) (htail : EndsAt (fun ch => ch = '\n') tail)
    (text : List Char) (first : Location) (c : Cursor) (hc : c.rest = fragmentsText ns ++ tail)
    (hstart : text = [] ∨ ∀ n ∈ ns.head?, SelectorReturns n) {x : Step c (List Node)}
    (hx : fragmentsFrom text first c = .ok x) (hsame : AllSame (pendingText text first c ++ ns) x.value) :
    areApart ns = true := by
  induction h generalizing text first c with
  | nil => rfl
  | @selector n ns hn hns ih =>
    rw [areApart_cons hn hns htail]
    rw [fragmentsText_cons, List.append_assoc] at hc
    by_cases happ : n.children = [] → EndsAt isApart (fragmentsText ns ++ tail)
    · obtain ⟨y, hy, -, hread⟩ := fragmentsFrom_selector hn happ text first c hc
      rw [hread] at hx
      obtain ⟨z, hz, rfl⟩ := map_ok hx
      have hbehind := (forall₂_cons.1 (AllSame.of_append hsame)).2
      exact ⟨happ, ih [] y.next.location y.next hy (.inl rfl) hz hbehind⟩
    · exfalso
      obtain ⟨hnil, hruns⟩ := Classical.not_imp.1 happ
      obtain ⟨v, arguments, hv, hform, htext⟩ := hn.form
      obtain rfl : arguments = [] := by
        rw [children, hform] at hnil
        exact hnil
      rw [htext] at hc
      cases hns with
      | nil => exact hruns (endsAt_apart (by simp) htail)
      | selector hm hms => exact hruns (endsAt_apart (by simpa using hm) htail)
      | @text part span ms hne hquiet hline hreturn hms hnext =>
        obtain ⟨ch, part, rfl⟩ := exists_cons_of_ne_nil hne
        rw [fragmentsText_cons, toList_messageText] at hruns
        replace hc : c.rest = '@' :: v :: ch :: (part ++ (fragmentsText ms ++ tail)) := by
          rw [hc, fragmentsText_cons, toList_messageText]
          simp [bracketText]
        by_cases hbracket : ch = '['
        · subst hbracket
          exact not_reads_of_bracket hv hnil (endsAt_boundary hnext htail) hc hx hsame
        · refine not_reads_of_word hn hc ?_ hx hsame
          have hword : (Text.isAlphanumeric ch || ch = '_') = true := by
            by_contra hword
            exact hruns (EndsAt.cons (by simp [isApart, hbracket, hword]))
          rw [hc, isAhead_target, head?_cons, Option.any_some, hword]
          simp
  | @text part span ns hne hquiet hline hreturn hns hnext ih =>
    obtain rfl : text = [] := by
      refine hstart.resolve_right fun hselector => ?_
      obtain ⟨v, arguments, -, hform, -⟩ := (hselector _ rfl).form
      cases hform
    rw [fragmentsText_cons, List.append_assoc, toList_messageText] at hc
    obtain ⟨d, hreach, hd, hread⟩ := fragmentsFrom_text (hquiet.before (endsAt_boundary hnext htail)) hline hreturn
      [] first c hc
    rw [append_nil] at hread
    rw [hread] at hx
    obtain ⟨y, hy, rfl⟩ := map_ok hx
    have hbehind : areApart ns = true := by
      refine ih part.reverse first d hd (.inr hnext) hy ?_
      rw [pendingText_reverse hne]
      exact allSame_of_span hsame
    cases ns with
    | nil => rfl
    | cons n ns =>
      rw [areApart, hbehind]
      rfl

theorem message_eq (hend : ¬c.atLineEnd = true) : message c = (fragmentsFrom [] c.location c).map fun y =>
      ⟨⟨.message y.value, y.next.spanFrom c.location⟩, y.next, y.ahead⟩ := by
  rw [message, node_apply, bind_apply, fragments, if_neg hend]
  cases fragmentsFrom [] c.location c <;> rfl

theorem not_atLineEnd_of_message {x : Step c Node} (hx : message c = .ok x) : ¬c.atLineEnd = true := by
  intro hend
  rw [message, node_apply, bind_apply, fragments, if_pos hend] at hx
  cases hx

/-- A message is read back from its text exactly if its fragments stand apart. -/
theorem Woven.message_reads_iff (h : Woven ns) (hne : fragmentsText ns ≠ []) (hc : c.rest = fragmentsText ns) :
    (∃ y, message c = .ok y ∧ (⟨.message ns, span⟩ : Node).same y.value = true) ↔ areApart ns = true := by
  have hrest : c.rest = fragmentsText ns ++ [] := by rw [hc, append_nil]
  rw [message_eq (h.not_atLineEnd hne hrest)]
  constructor
  · rintro ⟨y, hy, hsame⟩
    obtain ⟨z, hz, rfl⟩ := map_ok hy
    exact h.areApart_of_reads .nil [] c.location c hrest (.inl rfl) hz (same_iff.1 hsame).2
  · intro hapart
    obtain ⟨z, hz, -, hsame⟩ := h.reads hapart .nil [] c.location c hrest (.inl rfl)
    rw [hz]
    exact ⟨_, rfl, same_iff.2 ⟨decide_eq_true hsame.length_eq, hsame⟩⟩

/-- Which messages survive printing. Whatever line a message was read from, it is printed, and what is printed is read
as the same message exactly if none of its selectors runs into the text behind it. -/
theorem message_reads_rendered_iff (p : Printer) {line : String} (hreturn : '\r' ∉ line.toList)
    {x : Step (start line) Node} (hx : message (.start line) = .ok x)
    (hexact : ∀ n ∈ x.value.children, n.Exact) :
    ∃ text, p.render x.value = .ok text ∧
      ((∃ y, message (.start text) = .ok y ∧ x.value.same y.value = true) ↔
        areApart x.value.children = true) := by
  have hplaced := (message_at (OnLine.refl (.start line))).ok hx
  refine ⟨x.value.text, Printer.render_text hplaced.isPart, ?_⟩
  have hend := not_atLineEnd_of_message hx
  rw [message_eq hend] at hx
  obtain ⟨y, hy, rfl⟩ := map_ok hx
  have hwoven := fragmentsFrom_gives [] _ _ (.nil _) hreturn y hy hexact
  have hstarts := fragmentsFrom_starts (p := fun _ => true) rfl hend (fun _ _ => rfl) hy hexact
  refine hwoven.message_reads_iff hstarts.ne_nil ?_
  change (text _).toList = _
  rw [text_eq]
  exact toList_joinTexts y.value

/-- The brackets of `@a` are dropped, and nothing of the text runs into it or into the selector with arguments. -/
theorem message_reads_rendered_iff_apart :
    let p : Printer := { spec := { tree := .bundled, prototypes := [] } }
    let line := "a@b @a[ ]@s! @e[limit=1]x"
    '\r' ∉ line.toList ∧ ∃ x, message (.start line) = .ok x ∧ (∀ n ∈ x.value.children, n.Exact) ∧
      areApart x.value.children = true ∧ ∃ text, p.render x.value = .ok text ∧
        ∃ y, message (.start text) = .ok y ∧ x.value.same y.value = true := by
  intro p line
  have hreturn : '\r' ∉ line.toList := by decide +kernel
  have hread : (message (.start line)).toOption.any (fun x =>
      decide (∀ n ∈ x.value.children, n.Exact) && areApart x.value.children) = true := by decide +kernel
  obtain ⟨x, hx, hread⟩ := exists_ok_of_any hread
  rw [and_eq_true, decide_eq_true_eq] at hread
  obtain ⟨text, htext, hiff⟩ := message_reads_rendered_iff p hreturn hx hread.1
  exact ⟨hreturn, x, hx, hread.1, hread.2, text, htext, hiff.2 hread.2⟩

/-- A text that runs into a selector: what is printed for both is read as one text. -/
theorem message_runs_into_text :
    let p : Printer := { spec := { tree := .bundled, prototypes := [] } }
    ∃ x, message (.start "@a[]x") = .ok x ∧ (∀ n ∈ x.value.children, n.Exact) ∧ p.render x.value = .ok "@ax" ∧
      ∃ y, message (.start "@ax") = .ok y ∧ x.value.same y.value = false := by
  intro p
  have hread : (message (.start "@a[]x")).toOption.any (fun x => decide (∀ n ∈ x.value.children, n.Exact) &&
      ((p.render x.value).toOption.any fun text => text = "@ax") &&
      (message (.start "@ax")).toOption.any fun y => !x.value.same y.value) = true := by decide +kernel
  obtain ⟨x, hx, hread⟩ := exists_ok_of_any hread
  simp only [and_eq_true, decide_eq_true_eq] at hread
  obtain ⟨⟨hexact, hprinted⟩, hagain⟩ := hread
  obtain ⟨text, htext, heq⟩ := exists_ok_of_any hprinted
  obtain ⟨y, hy, hsame⟩ := exists_ok_of_any hagain
  obtain rfl : text = "@ax" := of_decide_eq_true heq
  exact ⟨x, hx, hexact, htext, y, hy, by simpa using hsame⟩

end Selector

end Mcfunction
