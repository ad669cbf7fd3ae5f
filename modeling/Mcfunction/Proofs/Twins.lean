import Mcfunction.Proofs.Exact
import Mcfunction.Proofs.Flat
import Mcfunction.Proofs.Likeness

/-! Two readings side by side. One text is read at some place, and at another place the same text, perhaps with further
lines behind it or with carriage returns: the two cursors are twins. Their readings meet if both fail with the same
complaint at corresponding spans, or both give equal trees with corresponding spans and end at twins again. -/

namespace Mcfunction

open List Cursor String Text Step Option

/-- What two texts have left to read. It is the same, or the second has a tail more: further lines behind the end of the
first, or a carriage return in front of the next line feed. Another carriage return right before that would change its
meaning. -/
inductive Rests (tail : List Char) : List Char → List Char → Prop where
  | same (text : List Char) : Rests tail text text
  | further (text rest : List Char) (htail : tail = '\n' :: rest) (hlast : text.getLast? ≠ some '\r') :
      Rests tail text (text ++ '\n' :: rest)
  | returned (text a b : List Char) (htail : tail = ['\r']) (hlast : text.getLast? ≠ some '\r') (hline : '\n' ∉ text) :
      Rests tail (text ++ '\n' :: a) (text ++ '\r' :: '\n' :: b)

variable {ch q : Char} {α : Type} {f : List Char → α}

namespace Rests

variable {tail cs ds : List Char} {n : Nat}

theorem eq_of_nil (h : Rests [] cs ds) : ds = cs := by
  cases h with
  | same => rfl
  | further _ _ htail | returned _ _ _ htail => cases htail

theorem eq_of_lineBound (h : Rests tail cs ds) (hf : LineBound f) : f ds = f cs := by
  cases h with
  | same => rfl
  | further _ rest => exact hf cs rest '\n' (.inl rfl)
  | returned text a b => exact (hf text _ '\r' (.inr rfl)).trans (hf text a '\n' (.inl rfl)).symm

theorem head?_of_head? (h : Rests tail cs ds) (hch : ch ≠ '\n') (hhead : cs.head? = some ch) : ds.head? = some ch := by
  cases h with
  | same => exact hhead
  | further _ rest =>
    cases cs with
    | nil => cases hhead
    | cons x cs => exact hhead
  | returned text a b =>
    cases text with
    | nil => exact absurd (some.inj hhead).symm hch
    | cons x text => exact hhead

theorem le_length {text a : List Char} (hn : '\n' ∉ (text ++ '\n' :: a).take n) : n ≤ text.length := by
  refine Nat.le_of_not_lt fun hlt => hn ?_
  obtain ⟨k, hk⟩ := Nat.exists_eq_add_of_lt hlt
  rw [take_append, show n - text.length = k + 1 by omega]
  exact mem_append_right _ mem_cons_self

theorem take_eq (h : Rests tail cs ds) (hn : '\n' ∉ cs.take n ∧ '\n' ∉ ds.take n) : ds.take n = cs.take n := by
  cases h with
  | same => rfl
  | further _ rest => exact take_append_of_le_length (le_length hn.2)
  | returned text a b =>
    rw [take_append_of_le_length (le_length hn.1), take_append_of_le_length (le_length hn.1)]

theorem unquote (h : Rests tail cs ds) (hq : q ≠ '\r') :
    SameQuote (unquote q cs) (unquote q ds) ∧ (tail ≠ ['\r'] → unquote q ds = unquote q cs) := by
  cases h with
  | same => exact ⟨.same _, fun _ => rfl⟩
  | further _ rest =>
    rw [unquote_append_newline]
    exact ⟨.same _, fun _ => rfl⟩
  | returned text a b htail =>
    rw [unquote_append_newline]
    exact ⟨unquote_append_return hq text b, fun hne => absurd htail hne⟩

end Rests

/-- A correspondence between the cursors of two texts, and between their locations. Corresponding cursors move on alike
within a line, and over its end if no further lines stand behind the second text. Corresponding locations lie in the same
order. -/
structure Pairing where
  Twin : Cursor → Cursor → Prop
  Rel : Location → Location → Prop
  tail : List Char
  rests : ∀ {c d}, Twin c d → Rests tail c.rest d.rest
  location : ∀ {c d}, Twin c d → Rel c.location d.location
  offset_lt : ∀ {l k l' k'}, Rel l k → Rel l' k' → (l.offset < l'.offset ↔ k.offset < k'.offset)
  drop : ∀ {c d}, Twin c d → ∀ {n}, '\n' ∉ c.rest.take n ∧ '\n' ∉ d.rest.take n → Twin (c.drop n) (d.drop n)
  newline : tail.head? ≠ some '\n' → ∀ {c d}, Twin c d → Option.Rel Twin c.skipNewline? d.skipNewline?

namespace Pairing

variable (m : Pairing)

/-- Spans with corresponding ends. A span may end behind a carriage return that the first text does not have. -/
structure Spans (s t : Span) : Prop where
  start : m.Rel s.start t.start
  stop : m.tail ≠ ['\r'] → m.Rel s.stop t.stop

/-- The same complaint about corresponding spans. -/
structure Errors (e g : SyntaxError) : Prop where
  complaint : g.complaint = e.complaint
  span : m.Spans e.span g.span

/-- Equal trees at corresponding spans. -/
structure Nodes (n k : Node) : Prop where
  same : n.same k = true
  span : m.Spans n.span k.span

variable {m} {c d b : Cursor} {n : Nat}

theorem Spans.of_rel {s t : Span} (hstart : m.Rel s.start t.start) (hstop : m.Rel s.stop t.stop) : m.Spans s t :=
  ⟨hstart, fun _ => hstop⟩

/-! ### Twins -/

namespace Twin

theorem location (h : m.Twin c d) : m.Rel c.location d.location := m.location h

theorem eq_of_lineBound (h : m.Twin c d) (hf : LineBound f) : f d.rest = f c.rest :=
  (m.rests h).eq_of_lineBound hf

theorem rest_eq (h : m.Twin c d) (hm : m.tail = []) : d.rest = c.rest := by
  have hrests := m.rests h
  rw [hm] at hrests
  exact hrests.eq_of_nil

theorem take_eq (h : m.Twin c d) (hn : '\n' ∉ c.rest.take n ∧ '\n' ∉ d.rest.take n) :
    d.rest.take n = c.rest.take n := (m.rests h).take_eq hn

theorem drop (h : m.Twin c d) (hn : '\n' ∉ c.rest.take n ∧ '\n' ∉ d.rest.take n) :
    m.Twin (c.drop n) (d.drop n) := m.drop h hn

theorem flat (h : m.Twin c d) {f : List Char → Nat} (hbound : LineBound f) (hflat : ∀ cs : List Char, '\n' ∉ cs.take (f cs)) :
    '\n' ∉ c.rest.take (f c.rest) ∧ '\n' ∉ d.rest.take (f c.rest) :=
  ⟨hflat c.rest, h.eq_of_lineBound hbound ▸ hflat d.rest⟩

theorem peek_of_peek (h : m.Twin c d) (hch : ch ≠ '\n') (hc : c.peek = some ch) : d.peek = some ch :=
  (m.rests h).head?_of_head? hch hc

theorem peek_iff (h : m.Twin c d) (hch : ch ≠ '\n' ∧ ch ≠ '\r') : d.peek = some ch ↔ c.peek = some ch := by
  have hbound : LineBound fun cs => cs.head? = some ch := by
    intro cs rest x hx
    cases cs with
    | nil => rcases hx with rfl | rfl <;> simp [hch.1.symm, hch.2.symm]
    | cons y cs => rfl
  exact iff_of_eq (h.eq_of_lineBound hbound)

theorem drop_one (h : m.Twin c d) (hch : ch ≠ '\n') (hc : c.peek = some ch) : m.Twin (c.drop 1) (d.drop 1) := by
  have hflat : ∀ {e : Cursor}, e.peek = some ch → '\n' ∉ e.rest.take 1 := by
    intro e he
    obtain ⟨rest, hrest⟩ := head?_eq_some_iff.1 he
    rw [hrest]
    simpa using hch.symm
  exact h.drop ⟨hflat hc, hflat (h.peek_of_peek hch hc)⟩

theorem spanHere (h : m.Twin c d) : m.Spans c.spanHere d.spanHere := by
  obtain ⟨cs, l⟩ := c
  obtain ⟨ds, k⟩ := d
  have hrests : Rests m.tail cs ds := m.rests h
  have hempty : m.Spans ⟨l, l⟩ ⟨k, k⟩ := .of_rel h.location h.location
  have hcons : ∀ {ch : Char} {cs ds : List Char}, m.Twin ⟨ch :: cs, l⟩ ⟨ch :: ds, k⟩ →
      m.Spans (spanHere ⟨ch :: cs, l⟩) (spanHere ⟨ch :: ds, k⟩) := by
    intro ch cs ds h
    rw [spanHere, spanHere]
    dsimp only
    split
    · exact hempty
    · rename_i hch
      exact .of_rel h.location (h.drop_one hch rfl).location
  cases hrests with
  | same | further _ rest =>
    cases cs with
    | nil => exact hempty
    | cons ch cs => exact hcons h
  | returned text a b htail =>
    cases text with
    | nil => exact ⟨h.location, fun hne => absurd htail hne⟩
    | cons ch text => exact hcons h

theorem lineRest_eq (h : m.Twin c d) : d.lineRest = c.lineRest := by
  obtain ⟨cs, l⟩ := c
  obtain ⟨ds, k⟩ := d
  have hrests : Rests m.tail cs ds := m.rests h
  have hbefore : ∀ text rest : List Char,
      (text ++ '\n' :: rest).takeWhile (· ≠ '\n') = text.takeWhile (· ≠ '\n') := by
    intro text rest
    induction text with
    | nil => rfl
    | cons ch text ih => rw [cons_append, takeWhile_cons, takeWhile_cons, ih]
  rw [lineRest, lineRest]
  cases hrests with
  | same => rfl
  | further _ rest => rw [hbefore]
  | returned text a b htail hlast hline =>
    have hwhole : ∀ {text : List Char}, '\n' ∉ text → text.takeWhile (· ≠ '\n') = text := by
      intro text hline
      exact takeWhile_eq_self_iff.2 fun ch hch => decide_eq_true fun heq => hline (heq ▸ hch)
    have hreturned : '\n' ∉ text ++ ['\r'] := by simpa using hline
    rw [hbefore, hwhole hline, append_cons, hbefore, hwhole hreturned, if_neg hlast, getLast?_concat, if_pos rfl, dropLast_concat]

theorem indentation_eq (h : m.Twin c d) : d.indentation = c.indentation :=
  congrArg List.length (h.eq_of_lineBound (Token.takeWhile_lineBound ⟨rfl, rfl⟩))

theorem atLineEnd_eq (h : m.Twin c d) : d.atLineEnd = c.atLineEnd := by
  obtain ⟨cs, l⟩ := c
  obtain ⟨ds, k⟩ := d
  have hrests : Rests m.tail cs ds := m.rests h
  rw [atLineEnd, atLineEnd]
  cases hrests with
  | same => rfl
  | further _ rest htail hlast =>
    rcases cs with _ | ⟨ch, _ | ⟨ch', cs⟩⟩
    · rfl
    · have hch : ch ≠ '\r' := by
        rintro rfl
        exact hlast rfl
      by_cases hn : ch = '\n'
      · subst hn
        rfl
      · simp [hch, hn]
    · split <;> simp_all
  | returned text a b htail hlast hline =>
    rcases text with _ | ⟨ch, _ | ⟨ch', text⟩⟩
    · rfl
    · have hch : ch ≠ '\r' := by
        rintro rfl
        exact hlast rfl
      have hn : ch ≠ '\n' := fun heq => hline (heq ▸ mem_cons_self)
      simp [hch, hn]
    · split <;> simp_all

theorem skipSpaces (h : m.Twin c d) : m.Twin c.skipSpaces d.skipSpaces := by
  have hspace : isSpace '\n' = false ∧ isSpace '\r' = false := ⟨rfl, rfl⟩
  rw [Cursor.skipSpaces, Cursor.skipSpaces, h.indentation_eq]
  exact h.drop (h.flat (Token.many_lineBound hspace) (Token.many_avoids hspace.1))

theorem flat_lineRest (h : m.Twin c d) (hn : n ≤ c.lineRest.length) :
    '\n' ∉ c.rest.take n ∧ '\n' ∉ d.rest.take n := by
  have hflat : ∀ e : Cursor, n ≤ e.lineRest.length → '\n' ∉ e.rest.take n := by
    intro e hle hmem
    refine e.newline_not_mem_lineRest ?_
    rw [← e.take_lineRest]
    exact (take_prefix_take_left hle).subset hmem
  exact ⟨hflat c hn, hflat d (h.lineRest_eq ▸ hn)⟩

theorem skipLine (h : m.Twin c d) : m.Twin c.skipLine d.skipLine := by
  rw [Cursor.skipLine, Cursor.skipLine, h.lineRest_eq]
  exact h.drop (h.flat_lineRest (le_refl _))

end Twin

/-! ### The same text elsewhere -/

/-- The second cursor has the same text before it as the first, and the further lines behind. -/
structure Follows (Rel : Location → Location → Prop) (tail : List Char) (c d : Cursor) : Prop where
  rest : d.rest = c.rest ++ tail
  location : Rel c.location d.location
  last : tail = [] ∨ c.rest.getLast? ≠ some '\r'

namespace Follows

variable {Rel : Location → Location → Prop} {tail : List Char}

theorem drop (h : Follows Rel tail c d) (hafter : ∀ {l k}, Rel l k → ∀ ch, Rel (l.after ch) (k.after ch))
    (hn : tail = [] ∨ n ≤ c.rest.length) : Follows Rel tail (c.drop n) (d.drop n) where
  rest := by
    rw [rest_drop, rest_drop, h.rest]
    rcases hn with hnil | hle
    · rw [hnil, append_nil, append_nil]
    · exact drop_append_of_le_length hle
  location := by
    have htake : d.rest.take n = c.rest.take n := by
      rw [h.rest]
      rcases hn with hnil | hle
      · rw [hnil, append_nil]
      · exact take_append_of_le_length hle
    have hafterAll : ∀ (cs : List Char) {l k : Location}, Rel l k → Rel (l.afterAll cs) (k.afterAll cs) := by
      intro cs
      induction cs with
      | nil => exact id
      | cons ch cs ih => exact fun h => ih (hafter h ch)
    rw [Cursor.drop_eq, Cursor.drop_eq, htake]
    exact hafterAll _ h.location
  last := by
    refine h.last.imp_right fun hlast => ?_
    rw [rest_drop, getLast?_drop]
    split
    · exact fun h => nomatch h
    · exact hlast

variable (htail : tail = [] ∨ ∃ rest, tail = '\n' :: rest)

include htail

theorem rests (h : Follows Rel tail c d) : Rests tail c.rest d.rest := by
  rw [h.rest]
  rcases htail with rfl | ⟨rest, rfl⟩
  · rw [append_nil]
    exact .same _
  · exact .further _ rest rfl (h.last.resolve_left (cons_ne_nil _ _))

theorem nil_or_le_length (h : Follows Rel tail c d) (hn : '\n' ∉ d.rest.take n) : tail = [] ∨ n ≤ c.rest.length := by
  rw [h.rest] at hn
  rcases htail with rfl | ⟨rest, rfl⟩
  · exact .inl rfl
  · exact .inr (Rests.le_length hn)

theorem newline (h : Follows Rel tail c d) (hafter : ∀ {l k}, Rel l k → ∀ ch, Rel (l.after ch) (k.after ch))
    (hne : tail.head? ≠ some '\n') : Option.Rel (Follows Rel tail) c.skipNewline? d.skipNewline? := by
  rcases htail with rfl | ⟨rest, rfl⟩
  · rw [skipNewline?, skipNewline?, h.rest, append_nil]
    split
    · exact .some (h.drop hafter (.inl rfl))
    · exact .some (h.drop hafter (.inl rfl))
    · exact .none
  · exact absurd rfl hne

end Follows

theorem no_tail : ([] : List Char) = [] ∨ ∃ rest : List Char, [] = '\n' :: rest := .inl rfl

/-- The same text, at locations that move on alike and lie in the same order, and perhaps further lines behind. -/
def following (Rel : Location → Location → Prop) (hafter : ∀ {l k}, Rel l k → ∀ ch, Rel (l.after ch) (k.after ch))
    (hlt : ∀ {l k l' k'}, Rel l k → Rel l' k' → (l.offset < l'.offset ↔ k.offset < k'.offset)) (tail : List Char)
    (htail : tail = [] ∨ ∃ rest, tail = '\n' :: rest) : Pairing where
  Twin := Follows Rel tail
  Rel := Rel
  tail := tail
  rests h := h.rests htail
  location h := h.location
  offset_lt := hlt
  drop h _ hn := h.drop hafter (h.nil_or_le_length htail hn.2)
  newline hne _ _ h := h.newline htail hafter hne

/-- The same cursor twice, on the line of `b`. Nothing is said about what comes behind the line. -/
def still (b : Cursor) : Pairing where
  Twin first second := first = second ∧ b.OnLine first
  Rel l k := l = k
  tail := ['\n']
  rests := by
    rintro first _ ⟨rfl, -⟩
    exact .same _
  location h := congrArg Cursor.location h.1
  offset_lt := by
    rintro l _ l' _ rfl rfl
    exact Iff.rfl
  drop := by
    rintro first _ ⟨rfl, hb⟩ n hn
    exact ⟨rfl, hb.trans (onLine_drop hn.1)⟩
  newline hne := absurd rfl hne

theorem twin_still (hb : b.OnLine c) : (still b).Twin c c := ⟨rfl, hb⟩

end Pairing

/-! ### What is read -/

/-- A part of an argument, which lies on one line, as its texts do. -/
structure LinePart (c d : Cursor) (n : Node) : Prop extends Plain c d n where
  texts : ∀ t ∈ n.form.texts, Flat t

variable {c d : Cursor} {n : Node} {β : Type} {close : Char}

theorem Row.flat {ns : List Node} (h : Row LinePart c d ns) : ∀ n ∈ ns, n.Flat := by
  induction h with
  | nil => exact forall_mem_nil _
  | cons _ _ hn _ _ ihinside ihrest => exact forall_mem_cons.2 ⟨.mk hn.texts ihinside, ihrest⟩

theorem Placed.plain (h : Placed LinePart c d n) : Placed Plain c d n :=
  h.mono fun _ _ _ hn => hn.toPlain

theorem Placed.flat (h : Placed LinePart c d n) : n.Flat := .mk h.holds.texts h.inside.flat

/-- Equal nodes. The first ones are in a row between two cursors. -/
structure Rows (c : Cursor) (ns ks : List Node) (e : Cursor) : Prop where
  same : Parse.AllSame ns ks
  row : Row LinePart c e ns

/-- Forms with equal data and equal children. -/
structure Forms (c : Cursor) (f g : Form Node) (e : Cursor) : Prop where
  data : f.sameData g = true
  part : f.kind.isPart = true
  texts : ∀ t ∈ f.texts, Flat t
  children : Rows c f.children g.children e

namespace Rows

variable {b c e g : Cursor} {ns ks ms ls : List Node}

theorem nil (c : Cursor) : Rows c [] [] c := ⟨.nil, .nil (.refl c)⟩

theorem before (hb : b.Reaches c) (h : Rows c ns ks e) : Rows b ns ks e := ⟨h.same, h.row.before hb⟩

theorem append (h : Rows c ns ks e) (h' : Rows e ms ls g) : Rows c (ns ++ ms) (ks ++ ls) g :=
  ⟨rel_append h.same h'.same, h.row.append h'.row⟩

theorem behind (h : Rows c ns ks e) (he : e.Reaches g) : Rows c ns ks g := by
  have hrow := h.row.append (.nil he)
  rw [append_nil] at hrow
  exact ⟨h.same, hrow⟩

end Rows

theorem Forms.before {b e : Cursor} {f g : Form Node} (hb : b.Reaches c) (h : Forms c f g e) : Forms b f g e :=
  ⟨h.data, h.part, h.texts, h.children.before hb⟩

namespace Pairing

section Marks

variable (m : Pairing)

/-- Corresponding spans, the first of which begins at a cursor that has a twin. -/
structure Marks (s t : Span) : Prop extends m.Spans s t where
  placed : ∃ c d e, m.Twin c d ∧ c.OnLine e ∧ s = ⟨c.location, e.location⟩

/-- The spans of what was read from one cursor to another. -/
structure Covers (c : Cursor) (s t : Span) (e : Cursor) : Prop extends m.Marks s t where
  line : c.OnLine e
  eq : s = ⟨c.location, e.location⟩

/-- The same complaint about corresponding spans, of which it is known where they are. -/
structure Faults (e g : SyntaxError) : Prop where
  complaint : g.complaint = e.complaint
  span : m.Marks e.span g.span

/-- Equal trees at corresponding spans. The first was read from one cursor to another. -/
structure Trees (c : Cursor) (n k : Node) (e : Cursor) : Prop where
  same : n.same k = true
  span : m.Marks n.span k.span
  placed : Placed LinePart c e n

structure Leaves (c : Cursor) (n k : Node) (e : Cursor) : Prop extends m.Trees c n k e where
  form : k.form = n.form

end Marks

variable {m : Pairing} {c d e g b : Cursor} {n k : Node}

theorem Twin.marks (h : m.Twin c d) (h' : m.Twin e g) (he : c.OnLine e) :
    m.Marks ⟨c.location, e.location⟩ ⟨d.location, g.location⟩ where
  toSpans := .of_rel h.location h'.location
  placed := ⟨c, d, e, h, he, rfl⟩

theorem Twin.covers (h : m.Twin c d) (h' : m.Twin e g) (he : c.OnLine e) :
    m.Covers c ⟨c.location, e.location⟩ ⟨d.location, g.location⟩ e := ⟨h.marks h' he, he, rfl⟩

theorem Twin.marks_spanHere (h : m.Twin c d) : m.Marks c.spanHere d.spanHere where
  toSpans := h.spanHere
  placed := by
    obtain ⟨e, he, hspan⟩ := c.spanHere_eq
    exact ⟨c, d, e, h, he, hspan⟩

theorem Trees.rows (h : m.Trees c n k e) : Rows c [n] [k] e := ⟨.cons h.same .nil, .single h.placed⟩

theorem Covers.trees {s s' : Span} {f f' : Form Node} (h : m.Covers c s s' e) (hforms : Forms c f f' e) :
    m.Trees c ⟨f, s⟩ ⟨f', s'⟩ e where
  same := Node.same_iff.2 ⟨hforms.data, hforms.children.same⟩
  span := h.toMarks
  placed := ⟨h.eq, ⟨⟨h.line, hforms.part⟩, hforms.texts⟩, hforms.children.row⟩

/-! ### Outcomes -/

section Outcomes

variable (m) in
/-- Two outcomes meet: corresponding errors, or related values and twins behind them. -/
protected abbrev Meet (V : α → α → Prop) :
    Except SyntaxError (α × Cursor) → Except SyntaxError (α × Cursor) → Prop := Mcfunction.Meet m.Errors m.Twin V

variable (m) in
/-- Two outcomes are abreast: corresponding errors, or related values and twins behind them on the same line. -/
def Abreast (c : Cursor) (V : α → α → Cursor → Prop) :
    Except SyntaxError (α × Cursor) → Except SyntaxError (α × Cursor) → Prop
  | .error e, .error g => m.Faults e g
  | .ok (a, e), .ok (b, g) => c.OnLine e ∧ V a b e ∧ m.Twin e g
  | _, _ => False

variable (m) in
/-- Two readers agree at two cursors: what they do there is abreast. -/
def Agree (r t : Parse α) (c d : Cursor) (V : α → α → Cursor → Prop) : Prop :=
  m.Abreast c V ((r c).map pair) ((t d).map pair)

variable {V W : α → α → Cursor → Prop}

theorem Abreast.refused (h : m.Twin e g) (complaint : Complaint) :
    m.Abreast c V (.error ⟨complaint, e.spanHere⟩) (.error ⟨complaint, g.spanHere⟩) := ⟨rfl, h.marks_spanHere⟩

theorem Abreast.mono {x y : Except SyntaxError (α × Cursor)} (h : m.Abreast c V x y)
    (hVW : ∀ a b e, V a b e → W a b e) : m.Abreast c W x y := by
  rcases x with e | ⟨a, e⟩ <;> rcases y with g | ⟨b, g⟩
  · exact h
  · exact h.elim
  · exact h.elim
  · exact ⟨h.1, hVW a b e h.2.1, h.2.2⟩

theorem Abreast.since {x y : Except SyntaxError (α × Cursor)} (hce : c.OnLine e) (h : m.Abreast e V x y) :
    m.Abreast c V x y := by
  rcases x with _ | ⟨a, _⟩ <;> rcases y with _ | ⟨b, _⟩
  · exact h
  · exact h.elim
  · exact h.elim
  · exact ⟨hce.trans h.1, h.2⟩

/-- From each of two cursors that belong together a reader reads the same node. -/
def Steady (m : Pairing) (r : Parse Node) : Prop := ∀ ⦃c d⦄, m.Twin c d → m.Agree r r c d (m.Trees c)

theorem Agree.meet {r t : Parse Node} (h : m.Agree r t c d (m.Trees c)) :
    m.Meet m.Nodes ((r c).map pair) ((t d).map pair) := by
  unfold Agree at h
  generalize (r c).map pair = x at h
  generalize (t d).map pair = y at h
  rcases x with e | ⟨n, e⟩ <;> rcases y with g | ⟨k, g⟩
  · exact ⟨h.complaint, h.span.toSpans⟩
  · exact h.elim
  · exact h.elim
  · exact ⟨⟨h.2.1.same, h.2.1.span.toSpans⟩, h.2.2⟩

theorem Agree.at {r : Parse Node} (h : (still b).Agree r r c c ((still b).Trees c)) :
    Parse.At b r c fun n e => Placed LinePart c e n := by
  unfold Agree at h
  unfold Parse.At
  cases hr : r c with
  | error e =>
    rw [hr] at h
    obtain ⟨first, _, last, ⟨-, hfirst⟩, hlast, hspan⟩ := h.span.placed
    exact ⟨first, last, hfirst, hlast, hspan⟩
  | ok x =>
    rw [hr] at h
    exact ⟨h.1, h.2.1.placed⟩

variable {r t : Parse α}

theorem Agree.mono (h : m.Agree r t c d V) (hVW : ∀ a b e, V a b e → W a b e) : m.Agree r t c d W :=
  Abreast.mono h hVW

theorem Agree.and {Q : α → Prop} (h : m.Agree r t c d V) (hQ : Reader.Gives r c Q) :
    m.Agree r t c d fun a b e => V a b e ∧ Q a := by
  unfold Agree at h ⊢
  cases hr : r c <;> cases ht : t d <;> rw [hr, ht] at h
  · exact h
  · exact h.elim
  · exact h.elim
  · exact ⟨h.1, ⟨h.2.1, hQ _ hr⟩, h.2.2⟩

theorem Agree.pure {a b : α} (h : m.Twin c d) (hab : V a b c) : m.Agree (pure a) (pure b) c d V := ⟨.refl c, hab, h⟩

theorem Agree.bind_ahead {f g : α → Parse β} {W : β → β → Cursor → Prop} (h : m.Agree r t c d V)
    (hfg : ∀ a b e k, c.OnLine e → V a b e → m.Twin e k → m.Agree (f a) (g b) e k W) :
    m.Agree (r >>= f) (t >>= g) c d W := by
  have bind_pair : ∀ (r : Parse α) (f : α → Parse β) (c : Cursor), ((r >>= f) c).map pair =
      ((r c).map pair).bind fun x => (f x.1 x.2).map pair := by
    intro r f c
    rw [Parse.bind_apply]
    cases r c with
    | error e => rfl
    | ok x =>
      change _ = (f x.value x.next).map pair
      dsimp only
      cases f x.value x.next <;> rfl
  unfold Agree at h ⊢
  rw [bind_pair, bind_pair]
  cases hr : r c <;> cases ht : t d <;> rw [hr, ht] at h
  · exact h
  · exact h.elim
  · exact h.elim
  · exact (hfg _ _ _ _ h.1 h.2.1 h.2.2).since h.1

theorem Agree.bind {f g : α → Parse β} {W : β → β → Cursor → Prop} (h : m.Agree r t c d V)
    (hfg : ∀ a b e k, V a b e → m.Twin e k → m.Agree (f a) (g b) e k W) : m.Agree (r >>= f) (t >>= g) c d W :=
  h.bind_ahead fun a b e k _ => hfg a b e k

theorem Agree.bind_forms {f g : α → Parse (Form Node)} (h : m.Agree r t c d V)
    (hfg : ∀ a b e k, V a b e → m.Twin e k → m.Agree (f a) (g b) e k (Forms e)) :
    m.Agree (r >>= f) (t >>= g) c d (Forms c) :=
  h.bind_ahead fun a b e k he hab htwin => (hfg a b e k hab htwin).mono fun _ _ _ hforms => hforms.before he.reaches

theorem Agree.bind_rows {f g : α → Parse (List Node)} (h : m.Agree r t c d V)
    (hfg : ∀ a b e k, V a b e → m.Twin e k → m.Agree (f a) (g b) e k (Rows e)) :
    m.Agree (r >>= f) (t >>= g) c d (Rows c) :=
  h.bind_ahead fun a b e k he hab htwin => (hfg a b e k hab htwin).mono fun _ _ _ hrows => hrows.before he.reaches

theorem Agree.look_bind {f : Cursor → α} {g h : α → Parse β} {W : β → β → Cursor → Prop}
    (hgh : m.Agree (g (f c)) (h (f d)) c d W) : m.Agree (Reader.look f >>= g) (Reader.look f >>= h) c d W := by
  have look_apply : ∀ (g : α → Parse β) (c : Cursor), (Reader.look f >>= g) c = g (f c) c := by
    intro g c
    rw [Parse.bind_apply, Reader.look]
    dsimp only
    cases g (f c) c <;> rfl
  unfold Agree
  rw [look_apply, look_apply]
  exact hgh

theorem Agree.map {f : α → β} {W : β → β → Cursor → Prop}
    (h : m.Agree r t c d fun a b e => W (f a) (f b) e) : m.Agree (f <$> r) (f <$> t) c d W :=
  Agree.bind h fun _ _ _ _ hab htwin => Agree.pure htwin hab

theorem Agree.ite {p q : Prop} [Decidable p] [Decidable q] {r' t' : Parse α} (hpq : q ↔ p)
    (hr : p → m.Agree r t c d V) (ht : ¬p → m.Agree r' t' c d V) :
    m.Agree (if p then r else r') (if q then t else t') c d V := by
  by_cases hp : p
  · rw [if_pos hp, if_pos (hpq.2 hp)]
    exact hr hp
  · rw [if_neg hp, if_neg fun hq => hp (hpq.1 hq)]
    exact ht hp

theorem Agree.ite_same {p : Prop} [Decidable p] {r' t' : Parse α} (hr : m.Agree r t c d V)
    (ht : m.Agree r' t' c d V) : m.Agree (if p then r else r') (if p then t else t') c d V :=
  .ite Iff.rfl (fun _ => hr) fun _ => ht

theorem Agree.fail (h : m.Twin c d) (complaint : Complaint) :
    m.Agree (Parse.fail complaint) (Parse.fail complaint) c d V := Abreast.refused (V := V) h complaint

theorem Agree.failAt {s t : Span} (h : m.Marks s t) (complaint : Complaint) :
    m.Agree (Parse.failAt s complaint) (Parse.failAt t complaint) c d V := ⟨rfl, h⟩

end Outcomes

end Pairing

/-! ### The parts of readers -/

namespace Parse

variable {m : Pairing} {c d : Cursor} {V : α → α → Cursor → Prop}

theorem skipSpaces_agree (h : m.Twin c d) : m.Agree skipSpaces skipSpaces c d fun _ _ _ => True :=
  ⟨c.skipSpaces_onLine, trivial, h.skipSpaces⟩

theorem advance_bind {n : Nat} {r t : Parse β} {W : β → β → Cursor → Prop} (hline : c.OnLine (c.drop n))
    (h : m.Agree r t (c.drop n) (d.drop n) W) :
    m.Agree (advance n >>= fun _ => r) (advance n >>= fun _ => t) c d W := by
  have advance_apply : ∀ (r : Parse β) (c : Cursor), ((advance n >>= fun _ => r) c).map pair =
      (r (c.drop n)).map pair := by
    intro r c
    rw [bind_apply]
    simp only [advance, stepOver]
    cases r (c.drop n) <;> rfl
  unfold Pairing.Agree
  rw [advance_apply, advance_apply]
  exact h.since hline

theorem spanned_agree {r t : Parse α} (h : m.Twin c d) (hr : m.Agree r t c d V) :
    m.Agree (spanned r) (spanned t) c d fun x y e => V x.1 y.1 e ∧ m.Covers c x.2 y.2 e := by
  refine .look_bind (hr.bind_ahead fun a b e g he hab htwin => .look_bind ?_)
  exact .pure htwin ⟨hab, h.covers htwin he⟩

theorem node_agree {r t : Parse (Form Node)} (h : m.Twin c d) (hr : m.Agree r t c d (Forms c)) :
    m.Agree (node r) (node t) c d (m.Trees c) := by
  refine (spanned_agree h hr).bind ?_
  rintro ⟨f, s⟩ ⟨g, s'⟩ e _ ⟨hforms, hspan⟩ htwin
  exact .pure htwin (hspan.trees hforms)

theorem take_agree (h : m.Twin c d) {n : Nat} (hn : '\n' ∉ c.rest.take n ∧ '\n' ∉ d.rest.take n) :
    m.Agree (take n) (take n) c d fun x y e => (x.1 = ofList (c.rest.take n) ∧ y.1 = x.1) ∧ m.Covers c x.2 y.2 e := by
  refine spanned_agree h (V := fun x y _ => x = ofList (c.rest.take n) ∧ y = x) (.look_bind ?_)
  rw [h.take_eq hn]
  exact advance_bind (onLine_drop hn.1) (.pure (h.drop hn) ⟨rfl, rfl⟩)

end Parse

/-! ### Tokens -/

/-- A token stays on its line and does not depend on others. -/
structure Token.OnLine (t : Token) : Prop where
  flat : t.Flat
  bound : LineBound t

namespace Token

theorem number_onLine : number.OnLine := ⟨number_flat, number_lineBound⟩

theorem rangeInteger_onLine : rangeInteger.OnLine := ⟨rangeInteger_flat, rangeInteger_lineBound⟩

theorem rangeDecimal_onLine : rangeDecimal.OnLine := ⟨rangeDecimal_flat, rangeDecimal_lineBound⟩

theorem many_onLine {p : Char → Bool} (hp : p '\n' = false ∧ p '\r' = false) : (many p).OnLine :=
  ⟨many_avoids hp.1, many_lineBound hp⟩

theorem word_onLine : word.OnLine := many_onLine (by decide)

theorem criteria_onLine : criteria.OnLine := many_onLine (by decide)

theorem value_onLine : value.OnLine := many_onLine (by decide)

theorem playerName_onLine : playerName.OnLine := many_onLine (by decide)

theorem operation_onLine : operation.OnLine := ⟨operation_flat, operation_lineBound⟩

theorem uuid_onLine : uuid.OnLine := ⟨hexGroups_flat _, hexGroups_lineBound _⟩

end Token

namespace Parse

variable {m : Pairing} {c d b : Cursor} {t : Token} {text : String}

/-- The same token at corresponding spans. -/
structure SameToken (m : Pairing) (t : Token) (c : Cursor) (x y : String × Span) (e : Cursor) : Prop where
  text : y.1 = x.1
  span : m.Covers c x.2 y.2 e
  flat : Flat x.1
  token : ∃ cs : List Char, x.1 = ofList (cs.take (t cs))

theorem token?_agree (h : m.Twin c d) (ht : t.OnLine) : m.Agree (token? t) (token? t) c d fun x y e =>
      Rel (fun x y => SameToken m t c x y e) x y ∧ (x = none → e = c) := by
  have empty : t [] = 0 := by
    have hnil := ht.flat ['\n']
    rw [show t ['\n'] = t [] from ht.bound [] [] '\n' (.inl rfl)] at hnil
    cases hn : t [] with
    | zero => rfl
    | succ n =>
      rw [hn] at hnil
      exact absurd mem_cons_self hnil
  have length_eq : ∀ cs : List Char, (if cs = [] then 0 else t cs) = t cs := by
    intro cs
    split
    · rename_i hcs
      rw [hcs, empty]
    · rfl
  have hflat := h.flat ht.bound ht.flat
  refine .look_bind ?_
  rw [length_eq, length_eq, h.eq_of_lineBound ht.bound]
  refine .ite Iff.rfl (fun _ => .pure h ⟨.none, fun _ => rfl⟩) fun _ => ?_
  refine (take_agree h hflat).bind fun x y _ _ hxy htwin => .pure htwin ⟨.some ⟨hxy.1.2, hxy.2, ?_, ?_⟩, nofun⟩
  · rw [hxy.1.1, Flat, toList_ofList]
    exact hflat.1
  · exact ⟨c.rest, hxy.1.1⟩

theorem token_agree (h : m.Twin c d) (ht : t.OnLine) (what : String) :
    m.Agree (token t what) (token t what) c d (SameToken m t c) := by
  refine (token?_agree h ht).bind ?_
  rintro _ _ e g ⟨hfound | _, -⟩ htwin
  · exact .pure htwin hfound
  · exact .fail htwin _

theorem consume_agree (h : m.Twin c d) (ht : '\n' ∉ text.toList ∧ '\r' ∉ text.toList) :
    m.Agree (consume text) (consume text) c d fun x y _ => y = x := by
  have hbound : LineBound fun cs => text.toList.isPrefixOf cs := by
    intro cs rest x hx
    have hnot : x ∉ text.toList := by rcases hx with rfl | rfl <;> simp [ht]
    dsimp only
    generalize text.toList = word at hnot
    induction word generalizing cs with
    | nil => simp
    | cons y word ih =>
      rw [mem_cons, not_or] at hnot
      cases cs with
      | nil => simp [List.isPrefixOf, Ne.symm hnot.1]
      | cons z cs => rw [cons_append, isPrefixOf_cons_cons, isPrefixOf_cons_cons, ih cs hnot.2]
  have hflat : ∀ e : Cursor, text.toList.isPrefixOf e.rest = true → '\n' ∉ e.rest.take text.toList.length := by
    intro e he
    rw [← prefix_iff_eq_take.1 (List.isPrefixOf_iff_prefix.1 he)]
    exact ht.1
  refine .look_bind ?_
  rw [h.eq_of_lineBound hbound]
  refine .ite Iff.rfl (fun hp => ?_) fun _ => .pure h rfl
  exact advance_bind (onLine_drop (hflat c hp))
    (.pure (h.drop ⟨hflat c hp, hflat d ((h.eq_of_lineBound hbound).trans hp)⟩) rfl)

theorem expect_agree (h : m.Twin c d) (ht : '\n' ∉ text.toList ∧ '\r' ∉ text.toList) :
    m.Agree (expect text) (expect text) c d fun _ _ _ => True := by
  refine (consume_agree h ht).bind ?_
  rintro found _ e g rfl htwin
  exact .ite Iff.rfl (fun _ => .pure htwin trivial) fun _ => .fail htwin _

/-! ### Lists -/

section Lists

def ItemsMeet (m : Pairing) {limit limit' : Nat}
    (item : (c : Cursor) → c.remaining ≤ limit → Except SyntaxError (Step c Node))
    (item' : (c : Cursor) → c.remaining ≤ limit' → Except SyntaxError (Step c Node)) : Prop :=
  ∀ c d hc hd, m.Twin c d → m.Abreast c (m.Trees c) ((item c hc).map pair) ((item' d hd).map pair)

theorem items_abreast {limit limit' : Nat} (hclose : close ≠ '\n' ∧ close ≠ '\r')
    {item : (c : Cursor) → c.remaining ≤ limit → Except SyntaxError (Step c Node)}
    {item' : (c : Cursor) → c.remaining ≤ limit' → Except SyntaxError (Step c Node)} (hitem : ItemsMeet m item item')
    {read read' : List Node} (hread : Rows b read.reverse read'.reverse c) (h : m.Twin c d)
    (hc : c.remaining ≤ limit) (hd : d.remaining ≤ limit') :
    m.Abreast c (Rows b) ((items close item read c hc).map pair) ((items close item' read' d hd).map pair) := by
  have next_le : ∀ {c : Cursor} (x : Step c.skipSpaces Node), x.next.skipSpaces.remaining ≤ c.remaining := by
    intro c x
    exact ((c.skipSpaces_reaches.trans x.ahead).trans x.next.skipSpaces_reaches).remaining_le
  induction c using induct generalizing read read' d with
  | hstep c ih =>
    have hitems := hitem c.skipSpaces d.skipSpaces (le_trans c.skipSpaces_remaining_le hc)
      (le_trans d.skipSpaces_remaining_le hd) h.skipSpaces
    rw [items, items]
    cases hx : item c.skipSpaces (le_trans c.skipSpaces_remaining_le hc) with
    | error e =>
      cases hy : item' d.skipSpaces (le_trans d.skipSpaces_remaining_le hd) with
      | error e' =>
        rw [hx, hy] at hitems
        exact hitems
      | ok y =>
        rw [hx, hy] at hitems
        exact hitems.elim
    | ok x =>
      cases hy : item' d.skipSpaces (le_trans d.skipSpaces_remaining_le hd) with
      | error e' =>
        rw [hx, hy] at hitems
        exact hitems.elim
      | ok y =>
        rw [hx, hy] at hitems
        obtain ⟨hline, hxy, htwin⟩ := hitems
        have hspaces := htwin.skipSpaces
        have hahead : c.OnLine x.next.skipSpaces := (c.skipSpaces_onLine.trans hline).trans x.next.skipSpaces_onLine
        have hrows : Rows b (x.value :: read).reverse (y.value :: read').reverse x.next.skipSpaces := by
          rw [reverse_cons, reverse_cons]
          exact (hread.append (hxy.rows.before c.skipSpaces_reaches)).behind x.next.skipSpaces_reaches
        dsimp only
        by_cases hcomma : x.next.skipSpaces.peek = some ','
        · rw [dif_pos hcomma, dif_pos ((hspaces.peek_iff (by decide)).2 hcomma)]
          have hlt : (x.next.skipSpaces.drop 1).remaining < c.remaining :=
            lt_of_lt_of_le (drop_one_remaining _ hcomma) (next_le x)
          have hle : (y.next.skipSpaces.drop 1).remaining ≤ d.remaining :=
            le_trans (reaches_drop 1 _).remaining_le (next_le y)
          have hrest := (ih _ hlt (hrows.behind (reaches_drop 1 _)) (hspaces.drop_one (by decide) hcomma)
            (le_trans (le_of_lt hlt) hc) (le_trans hle hd)).since (hahead.trans (onLine_over (by decide) hcomma))
          revert hrest
          generalize items close item (x.value :: read) _ _ = left
          generalize items close item' (y.value :: read') _ _ = right
          cases left <;> cases right <;> exact id
        · rw [dif_neg hcomma, dif_neg fun hd => hcomma ((hspaces.peek_iff (by decide)).1 hd)]
          by_cases hend : x.next.skipSpaces.peek = some close
          · rw [if_pos hend, if_pos ((hspaces.peek_iff hclose).2 hend)]
            exact ⟨hahead.trans (onLine_over hclose.1 hend), hrows.behind (reaches_drop 1 _),
              hspaces.drop_one hclose.1 hend⟩
          · rw [if_neg hend, if_neg fun hd => hend ((hspaces.peek_iff hclose).1 hd)]
            exact .refused hspaces _

theorem list_agree (hclose : close ≠ '\n' ∧ close ≠ '\r') {item item' : Parse Node} (h : m.Twin c d)
    (hitem : ∀ e g, e.remaining ≤ c.remaining → m.Twin e g → m.Agree item item' e g (m.Trees e)) :
    m.Agree (list close item) (list close item') c d (Rows c) := by
  have hspaces := h.skipSpaces
  have hrows : Rows c [] [] c.skipSpaces := (Rows.nil c).behind c.skipSpaces_reaches
  have hitems : m.Abreast c (Rows c)
      ((items close (fun e (_ : e.remaining ≤ c.remaining) => item e) [] _ c.skipSpaces_remaining_le).map pair)
      ((items close (fun e (_ : e.remaining ≤ d.remaining) => item' e) [] _ d.skipSpaces_remaining_le).map pair) :=
    (items_abreast hclose (fun e g he _ htwin => hitem e g he htwin) hrows hspaces _ _).since c.skipSpaces_onLine
  rw [Pairing.Agree, list, list, listWithin, listWithin]
  by_cases hend : c.skipSpaces.peek = some close
  · rw [if_pos hend, if_pos ((hspaces.peek_iff hclose).2 hend)]
    exact ⟨c.skipSpaces_onLine.trans (onLine_over hclose.1 hend), hrows.behind (reaches_drop 1 _),
      hspaces.drop_one hclose.1 hend⟩
  · rw [if_neg hend, if_neg fun hd => hend ((hspaces.peek_iff hclose).1 hd)]
    revert hitems
    generalize items close (fun e (_ : e.remaining ≤ c.remaining) => item e) [] _ _ = left
    generalize items close (fun e (_ : e.remaining ≤ d.remaining) => item' e) [] _ _ = right
    cases left <;> cases right <;> exact id

end Lists

end Parse

end Mcfunction
