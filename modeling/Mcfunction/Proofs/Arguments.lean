import Mcfunction.Proofs.Components
import Mcfunction.Proofs.Entities
import Mcfunction.Proofs.Messages

/-! Single arguments. Each reader of single arguments returns what it has given, in front of what may stand behind an
argument: a space or the end of the line, nothing but the end of the line for a reader that takes the whole line, and
behind a resource location a colon too, if no path follows it. -/

namespace Mcfunction

open Cursor String Text Token Node List

abbrev LineEnd : List Char → Prop := EndsAt fun ch => ch = '\n'

namespace Parse

open Reader (Gives)

variable {r : Parse Node} {p q : Char → Bool} {n : Node}

theorem Returns.mono {F G : List Char → Prop} (h : Returns r p F n) (hpq : ∀ ch, p ch = true → q ch = true)
    (hFG : ∀ tail, G tail → F tail) : Returns r q G n :=
  ⟨h.starts.mono hpq, h.accepts.before hFG⟩

theorem Returns.apart {F : List Char → Prop} (h : Returns r p F n) (hblank : p ' ' = false) (htab : p '\t' = false)
    (hF : ∀ tail, EndsAt isBreak tail → F tail) : Returns r (fun ch => !isSpace ch) (EndsAt isBreak) n :=
  h.mono (fun _ hch => not_isSpace hch hblank htab) hF

variable {tail text : List Char} {c : Cursor}

theorem lineEnd_break (h : LineEnd tail) : EndsAt isBreak tail :=
  h.mono fun ch hch => by rw [isBreak, hch, Bool.or_true]

theorem behindLocation_of_break (h : EndsAt isBreak tail) : BehindLocation tail where
  noPath := endsAt_of_break h rfl rfl
  noSecond rest hrest := by
    subst hrest
    exact absurd h.of_cons (by decide)

theorem behindBlock_of_break (h : EndsAt isBreak tail) : BehindBlock tail where
  location := behindLocation_of_break h
  noData := endsAt_of_break h rfl rfl
  noProperties := endsAt_of_break h rfl rfl

/-! ### Truth values and strings -/

theorem word_accepts (htext : ∀ ch ∈ text, isBlank ch = false) :
    Accepts word text (EndsAt isBreak) fun x => x.1 = ofList text := by
  intro c tail hc htail
  refine .look_bind ?_
  rw [hc, value_length htext htail]
  exact take_accepts rfl c tail hc trivial

theorem bool_restores (c : Cursor) : Gives bool c fun n =>
    Restores bool (fun ch => ch = 't' || ch = 'f') (EndsAt isBreak) n := by
  have restores : ∀ (b : Bool) (span : Span),
      Restores bool (fun ch => ch = 't' || ch = 'f') (EndsAt isBreak) ⟨.bool b, span⟩ := by
    intro b span
    have htext : (⟨.bool b, span⟩ : Node).text = toString b := text_eq _
    refine ⟨?_, ?_, rfl, by cases b <;> rfl⟩
    · rw [htext]
      cases b <;> exact StartsAt.cons rfl
    · rw [htext]
      intro e tail he htail
      have hunblank : ∀ ch ∈ (toString b).toList, (!isBlank ch) = true := all_eq_true.1 (by cases b <;> rfl)
      refine (word_accepts (fun ch hch => (Bool.not_eq_true' _).mp (hunblank ch hch)) e tail he htail).bind ?_
      rintro ⟨text, place⟩ d rfl hd
      cases b <;> exact .pure hd rfl
  refine Reader.Gives.bind (.trivial word c) ?_
  rintro ⟨text, span⟩ d - -
  refine .ite (fun _ => .pure (restores true span)) fun _ => ?_
  exact .ite (fun _ => .pure (restores false span)) fun _ => .fail

theorem takeWhile_line (hline : '\n' ∉ text) (htail : LineEnd tail) : (text ++ tail).takeWhile (· ≠ '\n') = text := by
  refine EndsAt.takeWhile_append (fun ch hch => decide_eq_true ?_) (htail.mono fun ch hch => by simpa using hch)
  rintro rfl
  exact hline hch

theorem lineRest_of_lineEnd (hc : c.rest = text ++ tail) (hline : '\n' ∉ text)
    (hreturn : '\r' ∉ text) (htail : LineEnd tail) : c.lineRest = text := by
  rw [lineRest, hc, takeWhile_line hline htail, if_neg fun hlast => hreturn (mem_of_getLast? hlast)]

theorem greedy_restores (c : Cursor) (hreturn : '\r' ∉ c.rest) (hspace : EndsAt (fun ch => !isSpace ch) c.rest) :
    Gives greedy c fun n => Restores greedy (fun ch => !isSpace ch) LineEnd n := by
  have hgives : Gives line c fun x => x.1 = ofList c.lineRest := by
    refine (Reader.Gives.look_bind (take_gives _ c)).mono fun x hx => ?_
    rw [hx, c.take_lineRest]
  refine hgives.bind ?_
  rintro ⟨text, span⟩ d - rfl
  refine Reader.Gives.ite (fun _ => Reader.Gives.fail) fun hne => Reader.Gives.pure ?_
  obtain ⟨more, hmore, -⟩ := c.rest_eq_lineRest
  have htext : (⟨.greedy (ofList c.lineRest), span⟩ : Node).text.toList = c.lineRest := by
    rw [text_eq]
    exact toList_ofList
  have hreturn' : '\r' ∉ c.lineRest := fun h => hreturn (hmore ▸ mem_append_left more h)
  refine ⟨?_, ?_, rfl, decide_eq_true rfl⟩
  · rw [htext]
    cases hline : c.lineRest with
    | nil => exact absurd (congrArg ofList hline) hne
    | cons ch cs =>
      rw [hline] at hmore
      exact StartsAt.cons (hspace ch (by rw [hmore]; rfl))
  · rw [htext]
    intro e tail he htail
    have hrest := lineRest_of_lineEnd he c.newline_not_mem_lineRest hreturn' htail
    have hread : Reads line e tail fun x => x.1 = ofList c.lineRest := by
      refine .look_bind ?_
      rw [hrest]
      exact take_accepts rfl e tail he trivial
    refine hread.bind ?_
    rintro ⟨text, place⟩ f rfl hf
    dsimp only
    rw [if_neg hne]
    exact .pure hf rfl

theorem phrase_restores (c : Cursor) : Gives phrase c fun n => Restores phrase isQuote (fun _ => True) n := by
  refine (quoted_gives c).bind ?_
  rintro ⟨text, span⟩ d - htext
  refine .pure ?_
  have hwrite : (⟨.string text, span⟩ : Node).text = Text.quoted text := text_eq _
  refine ⟨?_, ?_, rfl, decide_eq_true rfl⟩
  · rw [hwrite]
    exact quoted_starts text
  · rw [hwrite]
    intro e tail he htail
    refine (quoted_accepts (F := fun _ => True) htext e tail he htail).bind ?_
    rintro ⟨found, place⟩ f rfl hf
    exact .pure hf rfl

def StringEnd (p : Properties) : List Char → Prop :=
  if p.text? "type" = some "greedy" then LineEnd else EndsAt isBreak

theorem Gives.atQuote {β : Type} {f : Bool → Parse β} {Q : β → Prop} (h : ∀ quote, Gives (f quote) c Q) :
    Gives (atQuote >>= f) c Q := by
  intro y hy
  obtain ⟨x, z, hx, hz, rfl⟩ := Reader.bind_ok hy
  cases hx
  exact h _ z hz

theorem string_restores (p : Properties) (c : Cursor) (hreturn : '\r' ∉ c.rest)
    (hspace : EndsAt (fun ch => !isSpace ch) c.rest) :
    Gives (string p) c fun n => Restores (string p) (fun ch => !isSpace ch) (StringEnd p) n := by
  refine Gives.atQuote fun quote => ?_
  by_cases hgreedy : p.text? "type" = some "greedy"
  · rw [if_pos hgreedy, StringEnd, if_pos hgreedy]
    refine (greedy_restores c hreturn hspace).mono fun n hn => ⟨hn.starts, ?_, hn.isLeaf, hn.same⟩
    obtain ⟨ch, cs, htext, -⟩ := hn.starts
    refine Accepts.atQuote (isQuote ch) (htext ▸ StartsAt.cons (decide_eq_true rfl)) ?_
    rw [if_pos hgreedy]
    exact hn.accepts
  · rw [if_neg hgreedy, StringEnd, if_neg hgreedy]
    refine .ite (fun hphrase => ?_) fun _ => ?_
    · refine (phrase_restores c).mono fun n hn => ⟨?_, ?_, hn.isLeaf, hn.same⟩
      · exact hn.starts.mono fun ch hch => not_isSpace hch rfl rfl
      · refine Accepts.atQuote true (hn.starts.mono fun ch hch => decide_eq_true hch) ?_
        rw [if_neg hgreedy, if_pos ⟨hphrase.1, rfl⟩]
        exact hn.accepts.before fun _ _ => trivial
    · refine (wordNode_restores (many_stable isWordChar) _ c).mono fun n hn => ⟨?_, ?_, hn.isLeaf, hn.same⟩
      · exact hn.starts.mono fun ch hch => not_isSpace hch rfl rfl
      · refine Accepts.atQuote false (hn.starts.mono fun ch hch => ?_) ?_
        · simpa using not_isQuote hch rfl rfl
        · rw [if_neg hgreedy, if_neg fun h => Bool.false_ne_true h.2]
          exact hn.accepts.before fun _ h => endsAt_of_break h rfl rfl

end Parse

def Leaf.Stops (p : Properties) : Leaf → List Char → Prop
  | .message => LineEnd
  | .string => Parse.StringEnd p
  | .resource | .resourceOrTag => BehindLocation
  | _ => EndsAt Parse.isBreak

/-- The reader of single arguments returns an argument, which begins with no space. -/
abbrev Leaf.Returns (l : Leaf) (p : Properties) (n : Node) : Prop :=
  Parse.Returns (l.read p) (fun ch => !isSpace ch) (l.Stops p) n

open Reader (Gives) in
theorem Leaf.read_returns (p : Properties) (l : Leaf) (c : Cursor) (hreturn : '\r' ∉ c.rest)
    (hspace : EndsAt (fun ch => !isSpace ch) c.rest) : Gives (l.read p) c fun n => n.Exact → l.Returns p n := by
  have ends : ∀ {q : Char → Bool}, q ' ' = true → q '\n' = true → ∀ tail, EndsAt Parse.isBreak tail → EndsAt q tail :=
    fun hblank hline tail htail => Parse.endsAt_of_break htail hblank hline
  have returned : ∀ {r : Parse Node} {q : Char → Bool} {F : List Char → Prop},
      Gives r c (fun n => n.Exact → Parse.Returns r q F n) → q ' ' = false → q '\t' = false →
      (∀ tail, EndsAt Parse.isBreak tail → F tail) →
      Gives r c fun n => n.Exact → Parse.Returns r (fun ch => !isSpace ch) (EndsAt Parse.isBreak) n :=
    fun h hblank htab hF => h.mono fun n hn hexact => (hn hexact).apart hblank htab hF
  have restored : ∀ {r : Parse Node} {q : Char → Bool} {F : List Char → Prop},
      Gives r c (fun n => n.Exact → Parse.Restores r q F n) → q ' ' = false → q '\t' = false →
      (∀ tail, EndsAt Parse.isBreak tail → F tail) →
      Gives r c fun n => n.Exact → Parse.Returns r (fun ch => !isSpace ch) (EndsAt Parse.isBreak) n :=
    fun h => returned (h.mono fun n hn hexact => (hn hexact).returns)
  have wordly : ∀ {t : Token} {q : Char → Bool} {F : List Char → Prop} (what : String), t.Stable q F →
      q ' ' = false → q '\t' = false → (∀ tail, EndsAt Parse.isBreak tail → F tail) →
      Gives (Parse.wordNode t what) c fun n => n.Exact →
        Parse.Returns (Parse.wordNode t what) (fun ch => !isSpace ch) (EndsAt Parse.isBreak) n :=
    fun what ht => restored ((Parse.wordNode_restores ht what c).mono fun n hn _ => hn)
  have located : ∀ allowTag, Gives (Parse.resourceLocation allowTag) c fun n => n.Exact →
      Parse.Returns (Parse.resourceLocation allowTag) (fun ch => !isSpace ch) BehindLocation n :=
    fun allowTag => (Parse.resourceLocation_restores allowTag c).mono fun n hn _ =>
      hn.returns.mono (fun ch hch => not_isSpace hch rfl rfl) fun _ h => h
  cases l with
  | bool => exact restored ((Parse.bool_restores c).mono fun n hn _ => hn) rfl rfl fun _ h => h
  | integer | long | float =>
    exact restored (Parse.bounded_restores p _ _ c) rfl rfl (ends rfl rfl)
  | string => exact (Parse.string_restores p c hreturn hspace).mono fun n hn _ => hn.returns
  | resource => exact located false
  | resourceOrTag => exact located true
  | vector3 => exact returned (Parse.vector3_returns false c) rfl rfl (ends rfl rfl)
  | vector2 => exact returned (Parse.vector2_returns false c) rfl rfl (ends rfl rfl)
  | blockPosition => exact returned (Parse.vector3_returns true c) rfl rfl (ends rfl rfl)
  | columnPosition => exact returned (Parse.vector2_returns true c) rfl rfl (ends rfl rfl)
  | angle => exact restored (Parse.angle_restores c) rfl rfl (ends rfl rfl)
  | integerRange => exact restored (Parse.range_restores true c) rfl rfl (ends rfl rfl)
  | floatRange => exact restored (Parse.range_restores false c) rfl rfl (ends rfl rfl)
  | entity => exact returned (Parse.entity_returns p c) rfl rfl fun _ h => h
  | scoreHolder => exact returned (Parse.scoreHolder_returns p c) rfl rfl fun _ h => h
  | message => exact Selector.message_returns c hreturn hspace
  | component => exact restored (Parse.component_restores c) rfl rfl fun _ h => h
  | nbtCompound => exact returned (Snbt.compound_returns c) rfl rfl fun _ _ => trivial
  | nbtTag => exact returned (Snbt.tag_returns c) rfl rfl (ends rfl rfl)
  | blockState => exact returned (Parse.block_returns false c) rfl rfl fun _ => Parse.behindBlock_of_break
  | blockPredicate => exact returned (Parse.block_returns true c) rfl rfl fun _ => Parse.behindBlock_of_break
  | itemStack =>
    exact returned (Parse.item_returns false c) rfl rfl
      fun _ h => (Parse.behindBlock_of_break h).toBehindItem
  | itemPredicate =>
    exact returned (Parse.item_returns true c) rfl rfl
      fun _ h => (Parse.behindBlock_of_break h).toBehindItem
  | time => exact restored (Parse.time_restores c) rfl rfl (ends rfl rfl)
  | word | criteria | value =>
    exact wordly _ (many_stable _) rfl rfl (ends rfl rfl)
  | operation => exact wordly _ operation_stable rfl rfl (ends rfl rfl)
  | uuid => exact wordly _ uuid_stable rfl rfl (ends rfl rfl)

end Mcfunction
