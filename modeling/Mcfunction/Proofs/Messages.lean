import Mcfunction.Proofs.Selectors

/-! Messages are read back from their texts. A message is woven from selectors and texts. No selector begins within
a text, and that does not depend on what is printed behind the text: behind it stands a selector or the line ends. A
selector without arguments has to stand apart from the text behind it. -/

namespace Mcfunction.Selector

open List Parse Cursor String Node Text
variable {ch : Char} {more tail text part rest : List Char} {ns ms : List Node} {c : Cursor} {n : Node}
  {first : Location}

open Reader (Gives)

/-! ### Where selectors begin -/

def isApart (ch : Char) : Bool := ch != '[' && !(isAlphanumeric ch || ch = '_')

/-- What stands behind a text: the line ends, or a selector begins. -/
def isBoundary (ch : Char) : Bool := ch = '@' || ch = '\n'

theorem isApart_of_isBoundary (h : isBoundary ch = true) : isApart ch = true := by
  simp only [isBoundary, Bool.or_eq_true, decide_eq_true_eq] at h
  rcases h with rfl | rfl <;> decide +kernel

theorem not_isTarget_of_isApart (h : isApart ch = true) : isTarget ch = false := by
  by_contra htarget
  simp only [isTarget, Bool.not_eq_false, Bool.or_eq_true, decide_eq_true_eq] at htarget
  rcases htarget with ((((rfl | rfl) | rfl) | rfl) | rfl) | rfl <;> revert h <;> decide +kernel

theorem isAhead_target (v : Char) (rest : List Char) :
    isAhead ('@' :: v :: rest) = (isTarget v && !rest.head?.any fun ch => isAlphanumeric ch || ch = '_') := by
  cases rest <;> simp [isAhead]

theorem isAhead_of_ne (h : ch ≠ '@') (rest : List Char) : isAhead (ch :: rest) = false := by
  unfold isAhead
  split
  · rename_i hcons
    exact absurd (cons.inj hcons).1 h
  · rfl

theorem isAhead_append (hne : text ≠ []) (htail : EndsAt isApart tail) : isAhead (text ++ tail) = isAhead text := by
  obtain ⟨ch, text, rfl⟩ := exists_cons_of_ne_nil hne
  by_cases hch : ch = '@'
  · subst hch
    cases text with
    | nil =>
      cases tail with
      | nil => rfl
      | cons v tail =>
        rw [singleton_append, isAhead_target, not_isTarget_of_isApart htail.of_cons]
        rfl
    | cons v text =>
      rw [cons_append, cons_append, isAhead_target, isAhead_target]
      cases text with
      | nil =>
        cases tail with
        | nil => rfl
        | cons next tail =>
          have hnext := htail.of_cons
          simp only [isApart, Bool.and_eq_true] at hnext
          simp [hnext.2]
      | cons next text => rfl
  · rw [cons_append, isAhead_of_ne hch, isAhead_of_ne hch]

def Quiet (text : List Char) : Prop := ∀ rest, rest <:+ text → isAhead rest = false

theorem Quiet.before (h : Quiet text) (htail : EndsAt isBoundary tail) :
    ∀ rest, rest ≠ [] → rest <:+ text → isAhead (rest ++ tail) = false := by
  intro rest hne hrest
  rw [isAhead_append hne (htail.mono fun _ => isApart_of_isBoundary)]
  exact h rest hrest

/-- The fragments of a message: selectors, and texts that no other text follows. -/
inductive Woven : List Node → Prop
  | nil : Woven []
  | selector {n : Node} {ns : List Node} (hn : SelectorReturns n) (hns : Woven ns) : Woven (n :: ns)
  | text {text : List Char} {span : Span} {ns : List Node} (hne : text ≠ []) (hquiet : Quiet text)
      (hline : '\n' ∉ text) (hreturn : '\r' ∉ text) (hns : Woven ns) (hnext : ∀ n ∈ ns.head?, SelectorReturns n) :
      Woven (⟨.messageText (ofList text), span⟩ :: ns)

/-! ### What is read -/

/-- No selector begins in the text that was read, backwards, before some rest. -/
structure Pending (text rest : List Char) : Prop where
  quiet : ∀ part, part ≠ [] → part <:+ text.reverse → isAhead (part ++ rest) = false
  noLine : '\n' ∉ text
  noReturn : '\r' ∉ text

theorem Pending.nil (rest : List Char) : Pending [] rest := by
  refine ⟨fun part hne hpart => ?_, not_mem_nil, not_mem_nil⟩
  exact absurd (suffix_nil.1 hpart) hne

theorem Pending.step (h : Pending text (ch :: rest)) (hahead : isAhead (ch :: rest) = false)
    (hline : ch ≠ '\n') (hreturn : ch ≠ '\r') : Pending (ch :: text) rest := by
  refine ⟨fun part hne hpart => ?_, by simp [hline.symm, h.noLine], by simp [hreturn.symm, h.noReturn]⟩
  rw [reverse_cons] at hpart
  rcases suffix_concat_iff.1 hpart with rfl | ⟨before, rfl, hbefore⟩
  · exact absurd rfl hne
  · rw [List.append_assoc]
    by_cases hnil : before = []
    · rwa [hnil]
    · exact h.quiet before hnil hbefore

theorem Pending.woven (h : Pending text rest) (hrest : EndsAt isBoundary rest) (first : Location)
    (c : Cursor) (hns : Woven ns) (hnext : ∀ n ∈ ns.head?, SelectorReturns n) :
    Woven (pendingText text first c ++ ns) := by
  unfold pendingText
  split
  · exact hns
  · rename_i hne
    refine Woven.text (by simpa using hne) (fun part hpart => ?_) (by simpa using h.noLine) (by simpa using h.noReturn)
      hns hnext
    by_cases hpart' : part = []
    · rw [hpart']
      rfl
    · rw [← isAhead_append hpart' (hrest.mono fun _ => isApart_of_isBoundary)]
      exact h.quiet part hpart' hpart

theorem atLineEnd_iff (h : '\r' ∉ c.rest) : c.atLineEnd = true ↔ EndsAt (fun ch => ch = '\n') c.rest := by
  unfold atLineEnd
  split
  · rename_i hrest
    simp [hrest, EndsAt.nil]
  · rename_i hrest
    simp [hrest, EndsAt.cons]
  · rename_i hrest
    rw [hrest] at h
    exact absurd mem_cons_self h
  · rename_i hnil hline _
    refine iff_of_false Bool.false_ne_true fun hend => ?_
    obtain ⟨ch, rest, hrest⟩ := exists_cons_of_ne_nil hnil
    rw [hrest] at hend
    obtain rfl : ch = '\n' := of_decide_eq_true hend.of_cons
    exact hline rest hrest

theorem fragmentsFrom_gives (text : List Char) (first : Location) (c : Cursor) (hpending : Pending text c.rest)
    (hreturn : '\r' ∉ c.rest) (x : Step c (List Node)) (hx : fragmentsFrom text first c = .ok x)
    (hexact : ∀ n ∈ x.value, n.Exact) : Woven x.value := by
  fun_induction fragmentsFrom text first c with
  | case1 text first c hrest =>
    cases hx
    have hwoven := hpending.woven (hrest ▸ EndsAt.nil) first c .nil (by simp)
    rwa [append_nil] at hwoven
  | case2 text first c ch rest hrest hend =>
    cases hx
    have hboundary := ((atLineEnd_iff hreturn).1 hend).mono (q := isBoundary) fun ch hch => by
      rw [isBoundary, hch, Bool.or_true]
    have hwoven := hpending.woven hboundary first c .nil (by simp)
    rwa [append_nil] at hwoven
  | case3 | case4 | case6 => cases hx
  | case5 text first c ch rest hrest hend hahead y hy z hz ih =>
    cases hx
    have hn := selector_returns c y hy (hexact y.value (by simp))
    obtain rfl : ch = '@' := by
      by_contra hne
      rw [hrest, isAhead_of_ne hne] at hahead
      cases hahead
    obtain ⟨n, hnext⟩ := y.ahead
    have hreturn' : '\r' ∉ y.next.rest := by
      rw [hnext, rest_drop]
      exact fun hmem => hreturn (mem_of_mem_drop hmem)
    have hns := ih (.nil _) hreturn' z hz fun n hn => hexact n (by simp [hn])
    exact hpending.woven (hrest ▸ EndsAt.cons rfl) first c (.selector hn hns) (by simp [hn])
  | case7 text first c ch rest hrest hend hahead y hy ih =>
    cases hx
    have hdrop : (c.drop 1).rest = rest := by
      rw [rest_drop, hrest]
      rfl
    rw [hrest] at hpending hahead hreturn
    have hline : ch ≠ '\n' := by
      rintro rfl
      simp [atLineEnd, hrest] at hend
    refine ih ?_ ?_ y hy hexact
    · rw [hdrop]
      exact hpending.step (by simpa using hahead) hline fun h => hreturn (h ▸ mem_cons_self)
    · rw [hdrop]
      exact fun hmem => hreturn (mem_cons_of_mem ch hmem)

/-! ### Reading it back -/

def fragmentsText (ns : List Node) : List Char := ns.flatMap fun n => n.text.toList

theorem fragmentsText_cons (n : Node) (ns : List Node) :
    fragmentsText (n :: ns) = n.text.toList ++ fragmentsText ns := flatMap_cons

theorem toList_messageText (text : List Char) (span : Span) :
    (⟨.messageText (ofList text), span⟩ : Node).text.toList = text := by
  rw [text_eq]
  exact toList_ofList

theorem endsAt_boundary (hns : ∀ n ∈ ns.head?, SelectorReturns n) (htail : EndsAt (fun ch => ch = '\n') tail) :
    EndsAt isBoundary (fragmentsText ns ++ tail) := by
  cases ns with
  | nil => exact htail.mono fun ch hch => by rw [isBoundary, hch, Bool.or_true]
  | cons n ns =>
    obtain ⟨ch, arguments, -, -, htext⟩ := (hns n rfl).form
    rw [fragmentsText_cons, htext]
    exact EndsAt.cons rfl

theorem endsAt_apart (hns : ∀ n ∈ ns.head?, SelectorReturns n) (htail : EndsAt (fun ch => ch = '\n') tail) :
    EndsAt isApart (fragmentsText ns ++ tail) :=
  (endsAt_boundary hns htail).mono fun _ => isApart_of_isBoundary

/-- A selector with fragments behind it stands apart from them if it has arguments, or their text lets it end. -/
theorem areApart_cons (hn : SelectorReturns n) (hns : Woven ns) (htail : EndsAt (fun ch => ch = '\n') tail) :
    areApart (n :: ns) = true ↔
      (n.children = [] → EndsAt isApart (fragmentsText ns ++ tail)) ∧ areApart ns = true := by
  obtain ⟨v, arguments, -, hform, -⟩ := hn.form
  have hchildren : n.children = arguments := by
    rw [children, hform]
    rfl
  rw [hchildren]
  cases hns with
  | nil => exact iff_of_true rfl ⟨fun _ => endsAt_apart (by simp) htail, rfl⟩
  | @selector m ms hm hms =>
    obtain ⟨w, others, -, hother, -⟩ := hm.form
    have hruns : n.runsInto m = false := by
      rw [runsInto, hform, hother]
      cases arguments <;> rfl
    rw [areApart, hruns]
    exact (and_iff_right fun _ => endsAt_apart (by simpa using hm) htail).symm
  | @text text span ms hne hquiet hline hreturn hms hnext =>
    obtain ⟨ch, text, rfl⟩ := exists_cons_of_ne_nil hne
    have hfront : EndsAt isApart (fragmentsText (⟨.messageText (ofList (ch :: text)), span⟩ :: ms) ++ tail) ↔
        isApart ch = true := by
      rw [fragmentsText_cons, toList_messageText]
      exact ⟨EndsAt.of_cons, EndsAt.cons⟩
    rw [areApart, Bool.and_eq_true, hfront]
    refine and_congr_left fun _ => ?_
    cases arguments with
    | nil => simp [runsInto, hform, isApart, and_assoc, and_comm]
    | cons argument arguments => simp [runsInto, hform]

theorem not_atLineEnd (hc : c.rest = ch :: more) (hline : ch ≠ '\n') (hreturn : ch ≠ '\r') : ¬c.atLineEnd = true := by
  unfold atLineEnd
  rw [hc]
  split
  · rename_i hnil
    cases hnil
  · rename_i hcons
    exact absurd (cons.inj hcons).1 hline
  · rename_i hcons
    exact absurd (cons.inj hcons).1 hreturn
  · exact Bool.false_ne_true

theorem fragmentsFrom_char (hc : c.rest = ch :: more) (hend : ¬c.atLineEnd = true) (hahead : ¬isAhead c.rest = true) :
    fragmentsFrom text first c =
      (fragmentsFrom (ch :: text) first (c.drop 1)).map (Step.since (c.reaches_drop 1)) := by
  rw [fragmentsFrom]
  split
  · rename_i hnil
    cases hc.symm.trans hnil
  · rename_i hcons
    obtain ⟨rfl, -⟩ := cons.inj (hc.symm.trans hcons)
    refine (if_neg hend).trans ((if_neg hahead).trans ?_)
    cases fragmentsFrom (ch :: text) first (c.drop 1) <;> rfl

theorem not_atLineEnd_of_isAhead (hahead : isAhead c.rest = true) : ¬c.atLineEnd = true := by
  cases hrest : c.rest with
  | nil =>
    rw [hrest] at hahead
    cases hahead
  | cons ch more =>
    obtain rfl : ch = '@' := by
      by_contra hne
      rw [hrest, isAhead_of_ne hne] at hahead
      cases hahead
    exact not_atLineEnd hrest (by decide) (by decide)

theorem fragmentsFrom_ahead (hahead : isAhead c.rest = true) : fragmentsFrom text first c =
      (selector c).bind fun y => (fragmentsFrom [] y.next.location y.next).map fun z =>
        ⟨pendingText text first c ++ y.value :: z.value, z.next, y.ahead.trans z.ahead⟩ := by
  rw [fragmentsFrom]
  split
  · rename_i hnil
    rw [hnil] at hahead
    cases hahead
  · refine (if_neg (not_atLineEnd_of_isAhead hahead)).trans ((if_pos hahead).trans ?_)
    split
    · rename_i herror
      rw [herror]
      rfl
    · rename_i y hy
      rw [hy]
      dsimp only [Except.bind]
      cases fragmentsFrom [] y.next.location y.next <;> rfl

theorem fragmentsFrom_text
    (hquiet : ∀ rest, rest ≠ [] → rest <:+ part → isAhead (rest ++ more) = false) (hline : '\n' ∉ part)
    (hreturn : '\r' ∉ part) (text : List Char) (first : Location) (c : Cursor) (hc : c.rest = part ++ more) :
    ∃ d, ∃ h : c.Reaches d, d.rest = more ∧
      fragmentsFrom text first c = (fragmentsFrom (part.reverse ++ text) first d).map (Step.since h) := by
  induction part generalizing text c with
  | nil =>
    refine ⟨c, .refl c, hc, ?_⟩
    rw [reverse_nil, nil_append]
    cases fragmentsFrom text first c <;> rfl
  | cons ch part ih =>
    have hrest : (c.drop 1).rest = part ++ more := by
      rw [rest_drop, hc]
      rfl
    have hend := not_atLineEnd hc (fun h => hline (h ▸ mem_cons_self)) fun h => hreturn (h ▸ mem_cons_self)
    have hahead : ¬isAhead c.rest = true := by
      rw [hc, hquiet _ (cons_ne_nil ch part) (suffix_refl _)]
      exact Bool.false_ne_true
    obtain ⟨d, hreach, hd, hread⟩ := ih (fun rest hne hpart => hquiet rest hne (hpart.trans (suffix_cons ch part)))
      (fun h => hline (mem_cons_of_mem ch h)) (fun h => hreturn (mem_cons_of_mem ch h)) (ch :: text)
      (c.drop 1) hrest
    refine ⟨d, (c.reaches_drop 1).trans hreach, hd, ?_⟩
    rw [fragmentsFrom_char hc hend hahead, hread, reverse_cons, List.append_assoc, singleton_append]
    cases fragmentsFrom (part.reverse ++ ch :: text) first d <;> rfl

theorem fragmentsFrom_selector (hn : SelectorReturns n) (hmore : n.children = [] → EndsAt isApart more)
    (text : List Char) (first : Location) (c : Cursor) (hc : c.rest = n.text.toList ++ more) :
    ∃ y : Step c Node, y.next.rest = more ∧ n.same y.value = true ∧
      fragmentsFrom text first c = (fragmentsFrom [] y.next.location y.next).map fun z =>
        ⟨pendingText text first c ++ y.value :: z.value, z.next, y.ahead.trans z.ahead⟩ := by
  obtain ⟨v, arguments, hv, hform, htext⟩ := hn.form
  have hcons : c.rest = '@' :: v :: (bracketText arguments ++ more) := by
    rw [hc, htext]
    rfl
  obtain ⟨y, hy, hnext, hsame⟩ := hn.accepts c more hc fun hnil =>
    (hmore hnil).mono fun ch hch => (Bool.and_eq_true_iff.1 hch).1
  have hahead : isAhead c.rest = true := by
    rw [hcons, isAhead_target, hv]
    cases arguments with
    | nil =>
      have happ : EndsAt isApart more := hmore (by rw [children, hform]; rfl)
      cases more with
      | nil => rfl
      | cons ch more => exact (Bool.and_eq_true_iff.1 happ.of_cons).2
    | cons argument arguments =>
      have hbracket : (isAlphanumeric '[' || '[' = '_') = false := by decide +kernel
      have hhead : (bracketText (argument :: arguments) ++ more).head? = some '[' := rfl
      rw [hhead, Option.any_some, hbracket]
      rfl
  refine ⟨y, hnext, hsame, ?_⟩
  rw [fragmentsFrom_ahead hahead, hy]
  rfl

theorem pendingText_same (text : List Char) (first : Location) (c : Cursor) :
    AllSame (pendingText text first c) (pendingText text first c) := by
  unfold pendingText
  split
  · exact .nil
  · exact .cons (same_of_leaf (by simp [Form.sameData]) rfl rfl) .nil

theorem pendingText_reverse (hne : part ≠ []) (first : Location) (c : Cursor) :
    pendingText part.reverse first c = [⟨.messageText (ofList part), c.spanFrom first⟩] := by
  rw [pendingText, if_neg (by simpa using hne), reverse_reverse]

theorem allSame_of_span {form : Form Node} {span span' : Span} (h : AllSame (⟨form, span⟩ :: ns) ms) :
    AllSame (⟨form, span'⟩ :: ns) ms := by
  obtain ⟨m, ms, hhead, hrest, rfl⟩ := forall₂_cons_left_iff.1 h
  have hparts := same_iff.1 hhead
  exact .cons (same_iff.2 hparts) hrest

theorem areApart_tail (h : areApart (n :: ns) = true) : areApart ns = true := by
  cases ns with
  | nil => rfl
  | cons m ns => exact (Bool.and_eq_true_iff.1 h).2

/-- The fragments of a message are read back up to the end of the line, if each stands apart from the next. -/
theorem Woven.reads (h : Woven ns) (hapart : areApart ns = true) (htail : EndsAt (fun ch => ch = '\n') tail)
    (text : List Char) (first : Location) (c : Cursor) (hc : c.rest = fragmentsText ns ++ tail)
    (hstart : text = [] ∨ ∀ n ∈ ns.head?, SelectorReturns n) :
    ∃ x, fragmentsFrom text first c = .ok x ∧ x.next.rest = tail ∧ AllSame (pendingText text first c ++ ns) x.value := by
  induction h generalizing text first c with
  | nil =>
    refine ⟨⟨pendingText text first c, c, .refl c⟩, ?_, hc, ?_⟩
    · rw [fragmentsFrom]
      split
      · rfl
      · rename_i ch more hcons
        rw [← show c.rest = tail from hc, hcons] at htail
        obtain rfl : ch = '\n' := of_decide_eq_true htail.of_cons
        rw [if_pos (by simp [atLineEnd, hcons])]
    · rw [append_nil]
      exact pendingText_same text first c
  | @selector n ns hn hns ih =>
    rw [fragmentsText_cons, List.append_assoc] at hc
    obtain ⟨happ, hapart⟩ := (areApart_cons hn hns htail).1 hapart
    obtain ⟨y, hy, hm, hread⟩ := fragmentsFrom_selector hn happ text first c hc
    obtain ⟨z, hz, hnext, hsame⟩ := ih hapart [] y.next.location y.next hy (.inl rfl)
    refine ⟨⟨pendingText text first c ++ y.value :: z.value, z.next, y.ahead.trans z.ahead⟩, ?_, hnext, ?_⟩
    · rw [hread, hz]
      rfl
    · exact rel_append (pendingText_same text first c) (.cons hm hsame)
  | @text part span ns hne hquiet hline hreturn hns hnext ih =>
    obtain rfl : text = [] := by
      refine hstart.resolve_right fun hselector => ?_
      obtain ⟨v, arguments, -, hform, -⟩ := (hselector _ rfl).form
      cases hform
    rw [fragmentsText_cons, List.append_assoc, toList_messageText] at hc
    obtain ⟨d, hreach, hd, hread⟩ := fragmentsFrom_text (hquiet.before (endsAt_boundary hnext htail)) hline hreturn
      [] first c hc
    rw [append_nil] at hread
    obtain ⟨y, hy, hynext, hsame⟩ := ih (areApart_tail hapart) part.reverse first d hd (.inr hnext)
    refine ⟨y.since hreach, ?_, hynext, ?_⟩
    · rw [hread, hy]
      rfl
    · rw [pendingText_reverse hne] at hsame
      exact allSame_of_span hsame

/-! ### Messages -/

theorem fragmentsText_pending (text : List Char) (first : Location) (c : Cursor) (ns : List Node) :
    fragmentsText (pendingText text first c ++ ns) = text.reverse ++ fragmentsText ns := by
  unfold pendingText
  split
  · rename_i hnil
    rw [hnil]
    rfl
  · rw [singleton_append, fragmentsText_cons, toList_messageText]

theorem selector_form (c : Cursor) : Gives selector c fun n => ∃ v arguments, n.form = .selector v arguments := by
  rw [selector_eq]
  refine node_gives ((Reader.Gives.trivial _ _).bind fun v _ _ _ => ?_)
  exact (Reader.Gives.trivial _ _).bind fun arguments _ _ _ => Reader.Gives.pure fun _ => ⟨v, arguments, rfl⟩

/-- The fragments begin with the text that is pending and a part of the rest, and then a selector follows. -/
theorem fragmentsFrom_first (text : List Char) (first : Location) (c : Cursor) (x : Step c (List Node))
    (hx : fragmentsFrom text first c = .ok x) :
    ∃ part d ns, part <+: c.rest ∧ x.value = pendingText (part.reverse ++ text) first d ++ ns ∧
      ∀ n ∈ ns.head?, ∃ v arguments, n.form = .selector v arguments := by
  fun_induction fragmentsFrom text first c with
  | case1 text first c | case2 text first c =>
    cases hx
    exact ⟨[], c, [], nil_prefix, (append_nil _).symm, by simp⟩
  | case3 | case4 | case6 => cases hx
  | case5 text first c ch rest hrest hend hahead y hy z hz ih =>
    cases hx
    exact ⟨[], c, y.value :: z.value, nil_prefix, rfl, by simpa using selector_form c y hy⟩
  | case7 text first c ch rest hrest hend hahead y hy ih =>
    cases hx
    obtain ⟨part, d, ns, hpart, hvalue, hns⟩ := ih y hy
    have hdrop : (c.drop 1).rest = rest := by
      rw [rest_drop, hrest]
      rfl
    refine ⟨ch :: part, d, ns, ?_, ?_, hns⟩
    · rw [hrest]
      exact cons_prefix_cons.2 ⟨rfl, hdrop ▸ hpart⟩
    · rw [reverse_cons, List.append_assoc]
      exact hvalue

/-- The text of a message begins with the class of characters it was read from, if a selector may begin with it. -/
theorem fragmentsFrom_starts {p : Char → Bool} (hp : p '@' = true) {x : Step c (List Node)} (hend : ¬c.atLineEnd = true)
    (hrest : EndsAt p c.rest) (hx : fragmentsFrom [] first c = .ok x) (hexact : ∀ n ∈ x.value, n.Exact) :
    StartsAt p (fragmentsText x.value) := by
  rw [fragmentsFrom] at hx
  split at hx
  · rename_i hnil
    exact absurd (by simp [atLineEnd, hnil]) hend
  · rename_i hcons
    rw [if_neg hend] at hx
    split at hx
    · split at hx
      · cases hx
      · rename_i y hy
        split at hx
        · cases hx
        · cases hx
          have hy := selector_returns c y hy (hexact y.value (by simp))
          obtain ⟨v, arguments, -, -, htext⟩ := hy.form
          rw [fragmentsText_pending, fragmentsText_cons, htext]
          exact StartsAt.cons hp
    · split at hx
      · cases hx
      · rename_i y hy
        cases hx
        obtain ⟨part, d, ns, -, hvalue, -⟩ := fragmentsFrom_first _ _ _ y hy
        rw [hcons] at hrest
        rw [Step.since_value, hvalue, fragmentsText_pending, reverse_append]
        exact StartsAt.cons hrest.of_cons

theorem Woven.not_atLineEnd (h : Woven ns) (hne : fragmentsText ns ≠ []) (hc : c.rest = fragmentsText ns ++ tail) :
    ¬c.atLineEnd = true := by
  cases h with
  | nil => exact absurd rfl hne
  | selector hn hns =>
    obtain ⟨v, arguments, -, -, htext⟩ := hn.form
    rw [fragmentsText_cons, htext] at hc
    exact not_atLineEnd hc (by decide) (by decide)
  | text hne' hquiet hline hreturn hns hnext =>
    obtain ⟨ch, text, rfl⟩ := exists_cons_of_ne_nil hne'
    rw [fragmentsText_cons, toList_messageText] at hc
    exact not_atLineEnd hc (fun h => hline (h ▸ mem_cons_self)) fun h => hreturn (h ▸ mem_cons_self)

theorem toList_joinTexts (ns : List Node) : (String.join (ns.map Node.text)).toList = fragmentsText ns := by
  induction ns with
  | nil => rfl
  | cons n ns ih => simp [fragmentsText_cons, ← ih]

theorem message_returns (c : Cursor) (hreturn : '\r' ∉ c.rest) (hspace : EndsAt (fun ch => !isSpace ch) c.rest) :
    Gives message c fun n => n.Exact → Returns message (fun ch => !isSpace ch) (EndsAt fun ch => ch = '\n') n := by
  refine node_gives ?_
  refine Reader.Gives.bind (Q := fun ns => (∀ n ∈ ns, n.Exact) → Woven ns ∧
    StartsAt (fun ch => !isSpace ch) (fragmentsText ns)) ?_ fun ns _ _ hns => .pure fun span hexact => ?_
  · intro x hx hexact
    unfold fragments at hx
    split at hx
    · cases hx
    · rename_i hend
      have hwoven := fragmentsFrom_gives [] _ c (.nil _) hreturn x hx hexact
      exact ⟨hwoven, fragmentsFrom_starts rfl hend hspace hx hexact⟩
  · obtain ⟨hwoven, hstarts⟩ := hns fun n hn => hexact.child hn
    have htext : (⟨.message ns, span⟩ : Node).text.toList = fragmentsText ns := by
      rw [text_eq]
      exact toList_joinTexts ns
    refine ⟨?_, ?_⟩
    · rwa [htext]
    · rw [htext]
      refine (node_accepts (Q := fun form => ∃ ms, form = .message ms ∧ AllSame ns ms) ?_).mono ?_
      · refine Reader.Accepts.bind_pure (fun d tail hd htail => ?_) fun ms hms => ⟨ms, rfl, hms⟩
        obtain ⟨x, hx, hnext, hsame⟩ := hwoven.reads hexact.self htail [] d.location d hd (.inl rfl)
        refine ⟨x, ?_, hnext, hsame⟩
        rw [fragments, if_neg (hwoven.not_atLineEnd hstarts.ne_nil hd), hx]
      · rintro ⟨_, span⟩ ⟨ms, rfl, hms⟩
        exact same_iff.2 ⟨decide_eq_true hms.length_eq, hms⟩

end Mcfunction.Selector
